import LakeStore.Memory.Client
import LakeStore.Proofs.Host.Arrival
import LakeStore.Proofs.Path.Target
import LakeStore.Proofs.Transfer.Delivery
import LakeStore.Proofs.Transfer.Reading

/-!
What is carried to a disk is delivered there. Each entry is put at its place, or left out with an
error and no change to the disk when something is in its way.
-/

namespace LakeStore

open StorePath

structure Disk.Brings {ε : Type} (disk : Disk) (place : Location) (cargo : Cargo)
    (outcome : Except ε Unit × Disk) :
    Prop where
  done : (disk.contentsAt []).Admits place cargo →
    ∃ new, outcome = (.ok (), new) ∧ disk.GrowsTo ((disk.contentsAt []).lay place cargo) new
  refused : ¬ (disk.contentsAt []).Admits place cargo → ∃ error, outcome = (.error error, disk)

namespace Disk

variable {disk made : Disk} {text source : String} {directory location place origin : Location}
  {path : StorePath} {cargo : Cargo} {data : ByteArray}

/-- Whether neither of two places is at the other one or below it. -/
def Apart (location place : Location) : Prop :=
  ¬ location <+: place ∧ ¬ place <+: location

theorem Apart.symm (h : Apart location place) : Apart place location :=
  ⟨h.2, h.1⟩

theorem Apart.append (h : Apart location place) (path : StorePath) :
    Apart (location ++ path) place := by
  constructor
  . intro hpre
    exact h.1 ((List.prefix_append location path).trans hpre)
  . intro hpre
    rcases prefix_or_prefix_of_append hpre with habove | hbelow
    . exact h.2 habove
    . exact h.1 hbelow

theorem Brings.mapError {ε δ : Type} {step : Step Disk ε Unit}
    (h : disk.Brings place cargo (step.outcome disk)) (describe : ε → δ) :
    disk.Brings place cargo ((step.mapError describe).outcome disk) := by
  constructor
  . intro hadmits
    obtain ⟨new, hrun, hnew⟩ := h.done hadmits
    exact ⟨new, Step.outcome_mapError_ok hrun, hnew⟩
  . intro hadmits
    obtain ⟨error, hrun⟩ := h.refused hadmits
    exact ⟨describe error, Step.outcome_mapError_error hrun⟩

theorem Brings.below {ε : Type} {data? : Option ByteArray} {outcome : Except ε Unit × Disk}
    (h : disk.Brings [] (place ++ path, data?) outcome) :
    disk.Brings place (path, data?) outcome := by
  cases data? with
  | none => exact ⟨h.done, h.refused⟩
  | some data => exact ⟨h.done, h.refused⟩

theorem Arrives.createDirectories (h : disk.Arrives text place) (hdisk : disk.WellFormed) :
    disk.Brings [] (place, none) ((Disk.createDirectories text).outcome disk) :=
  ⟨h.exists_createDirectories hdisk, h.createDirectories_refused hdisk⟩

theorem Opens.writeLocal {id opened} (h : disk.Opens text made id opened) (data : ByteArray) :
    (MemoryClient.writeLocal text data).outcome disk = (.ok (),
      ((writeAt id 0 data).run opened).2) := by
  have hwrite : (writeFile text data).outcome made = (.ok (),
      ((writeAt id 0 data).run opened).2) := by
    unfold writeFile
    rw [Step.outcome_bind_ok h.opening, Step.outcome_liftM]
  unfold MemoryClient.writeLocal
  rw [Step.outcome_bind_ok (Step.outcome_mapError_ok h.parents)]
  exact Step.outcome_mapError_ok hwrite

theorem Reaches.writeLocal (h : disk.Reaches text directory path) (hdisk : disk.WellFormed)
    (halone : disk.Alone (directory ++ path)) (data : ByteArray) :
    disk.Brings [] (directory ++ path, some data)
      ((MemoryClient.writeLocal text data).outcome disk) := by
  constructor
  . intro hput
    obtain ⟨made, id, opened, hopens⟩ := h.exists_opened hdisk halone hput
    exact ⟨_, hopens.opens.writeLocal data, hopens.written data⟩
  . intro hput
    unfold MemoryClient.writeLocal
    rcases h.not_canPut hdisk hput with ⟨error, hparents⟩ | ⟨hparents, hdirectory⟩
    . exact ⟨.parentRefused error, Step.outcome_bind_error (Step.outcome_mapError_error hparents) _⟩
    . refine ⟨.writeRefused text .isDirectory, ?_⟩
      rw [Step.outcome_bind_ok (Step.outcome_mapError_ok hparents)]
      apply Step.outcome_mapError_error
      exact Step.outcome_bind_error (h.openForWriting_refused hdisk hdirectory) _

theorem Opens.copyFile {id opened original} (h : disk.Opens text made id opened)
    (hread : made.openForReading source = .ok original) :
    (DirectoryClient.copyFile source text).outcome disk =
      (.ok (), ((writeAt id 0 (opened.contents original)).run opened).2) := by
  have hcopy : (Disk.copyFile source text).outcome made =
      (.ok (), ((writeAt id 0 (opened.contents original)).run opened).2) := by
    unfold Disk.copyFile
    rw [outcome_asked_bind, hread]
    dsimp only
    rw [Step.outcome_bind_ok h.opening, Step.outcome_bind_ok (Step.outcome_get opened),
      Step.outcome_liftM]
  unfold DirectoryClient.copyFile
  rw [Step.outcome_bind_ok (Step.outcome_mapError_ok h.parents),
    Step.outcome_bind_ok (Step.outcome_get made), h.notDirectory, if_neg (by simp)]
  exact Step.outcome_mapError_ok hcopy

theorem OpensAt.copyFile {id opened original} (h : disk.OpensAt text place made id opened)
    (hdisk : disk.WellFormed) (hsource : disk.find source = .ok (.taken origin (.file original)))
    (hdata : disk.contentsAt [] origin = some (.file data)) (hnot : ¬ origin <+: place) :
    ∃ new, (DirectoryClient.copyFile source text).outcome disk = (.ok (), new) ∧
      disk.GrowsTo ((disk.contentsAt []).put place data) new := by
  have hnode : disk.nodes.get? origin = some (.file original) := findWith_holds hdisk hsource
  have hread := openForReading_of_find (findWith_keeps h.parents.keeps h.parents.here hsource)
  have hlay : (disk.contentsAt []).lay [] (place, some ByteArray.empty) origin =
      disk.contentsAt [] origin :=
    Contents.lay_elsewhere hnot
  have hsame : opened.contentsAt [] origin = some (.file data) := by
    rw [h.empty.contents, ← hdata]
    exact hlay
  obtain ⟨other, hother, hcontents⟩ := contentsAt_eq_file_iff.mp hsame
  have hkept := h.empty.grows.keeps _ _ hnode
  rw [List.nil_append, hkept, Option.some_inj, Node.file.injEq] at hother
  rw [← hother] at hcontents
  refine ⟨_, h.opens.copyFile hread, ?_⟩
  rw [hcontents]
  exact h.written data

theorem Arrives.copyFile {original : Nat} (h : disk.Arrives text place) (hdisk : disk.WellFormed)
    (halone : disk.Alone place) (hsource : disk.find source = .ok (.taken origin (.file original)))
    (hdata : disk.contentsAt [] origin = some (.file data)) (hnot : ¬ origin <+: place) :
    disk.Brings [] (place, some data) ((DirectoryClient.copyFile source text).outcome disk) := by
  -- With a directory at the place, the directories above it are there already, and the copy is
  -- refused.
  have hblocked : (Disk.createParents text).outcome disk = (.ok (), disk) →
      disk.isDirectory text = true →
        ∃ error, (DirectoryClient.copyFile source text).outcome disk = (.error error, disk) := by
    intro hparents hdirectory
    refine ⟨.directoryInTheWay text, ?_⟩
    unfold DirectoryClient.copyFile
    rw [Step.outcome_bind_ok (Step.outcome_mapError_ok hparents),
      Step.outcome_bind_ok (Step.outcome_get disk), hdirectory, if_pos rfl]
    rfl
  cases h with
  | here hfind =>
    constructor
    . intro hput
      exact absurd (directory_of_find hdisk hfind) hput.1
    . intro _
      exact hblocked (createParents_of_find hdisk hfind) (isDirectory_of_find hfind)
  | named h =>
    constructor
    . intro hput
      obtain ⟨made, id, opened, hopens⟩ := h.exists_opened hdisk halone hput
      exact hopens.copyFile hdisk hsource hdata hnot
    . intro hput
      rcases h.not_canPut hdisk hput with ⟨error, hparents⟩ | ⟨hparents, hdirectory⟩
      . exact ⟨.parentRefused error,
          Step.outcome_bind_error (Step.outcome_mapError_error hparents) _⟩
      . exact hblocked hparents ((h.isDirectory_iff hdisk).mpr hdirectory)

end Disk

def Transfer.recordCargo (transfer : Transfer) (text : String) (cargo : Cargo)
    (result : Except FailureReason Unit) :
    Transfer :=
  match cargo.2 with
  | none => transfer.recordDirectory text result
  | some _ => transfer.recordFile text result

structure Delivery.Reported (delivery : Delivery) (label : StorePath → String)
    (transfer : Transfer) : Prop where
  transferred : transfer.transferred = delivery.transferred
  failed : transfer.failed.map Failure.path = delivery.failed.map label

theorem Delivery.Reported.length_failed {delivery : Delivery} {label : StorePath → String}
    {transfer : Transfer} (h : delivery.Reported label transfer) :
    transfer.failed.length = delivery.failed.length := by
  have hlength := congrArg List.length h.failed
  rw [List.length_map, List.length_map] at hlength
  exact hlength

theorem Delivery.Reported.eq_of_complete {delivery : Delivery} {label : StorePath → String}
    {transfer : Transfer} (h : delivery.Reported label transfer)
    (hcomplete : delivery.failed = []) :
    transfer = ⟨delivery.transferred, []⟩ := by
  have hlength := h.length_failed
  rw [hcomplete, List.length_nil, List.length_eq_zero_iff] at hlength
  rw [← h.transferred, ← hlength]

theorem Delivery.Reported.next_of_admits {delivery : Delivery} {label : StorePath → String}
    {transfer : Transfer} (h : delivery.Reported label transfer) {place : StorePath} {cargo : Cargo}
    (hadmits : delivery.contents.Admits place cargo) :
    (delivery.next place cargo).Reported label
      (transfer.recordCargo (label cargo.1) cargo (.ok ())) := by
  obtain ⟨path, data?⟩ := cargo
  rw [Contents.next_of_admits hadmits]
  cases data? with
  | none => exact ⟨h.transferred, h.failed⟩
  | some data => exact ⟨congrArg (· + 1) h.transferred, h.failed⟩

theorem Delivery.Reported.next_of_not_admits {delivery : Delivery} {label : StorePath → String}
    {transfer : Transfer} (h : delivery.Reported label transfer) {place : StorePath} {cargo : Cargo}
    (hadmits : ¬ delivery.contents.Admits place cargo) (reason : FailureReason) :
    (delivery.next place cargo).Reported label
      (transfer.recordCargo (label cargo.1) cargo (.error reason)) := by
  obtain ⟨path, data?⟩ := cargo
  have hfailed : (transfer.failed ++ [Failure.mk (label path) reason]).map Failure.path =
      (delivery.failed ++ [path]).map label := by
    rw [List.map_append, List.map_append, h.failed]
    rfl
  rw [Contents.next_of_not_admits hadmits]
  cases data? with
  | none => exact ⟨h.transferred, hfailed⟩
  | some data => exact ⟨h.transferred, hfailed⟩

theorem Delivery.Reported.mapPaths {delivery : Delivery} {label stored : StorePath → String}
    {transfer : Transfer} (h : delivery.Reported label transfer) {place : String → String}
    (hplace : ∀ path ∈ delivery.failed, place (label path) = stored path) :
    delivery.Reported stored (transfer.mapPaths place) := by
  have hpaths : (transfer.mapPaths place).failed.map Failure.path =
      (transfer.failed.map Failure.path).map place := by
    unfold Transfer.mapPaths
    rw [List.map_map, List.map_map]
    rfl
  refine ⟨h.transferred, ?_⟩
  rw [hpaths, h.failed, List.map_map]
  exact List.map_congr_left hplace

namespace Disk

variable {start disk : Disk} {source target : String} {place origin : Location} {root : StorePath}
  {label : StorePath → String} {cargo : Cargo} {cargoes : List Cargo} {transfer : Transfer}

structure Delivered (start : Disk) (place : Location) (label : StorePath → String)
    (cargoes : List Cargo) (transfer : Transfer) (disk : Disk) : Prop where
  growsTo : start.GrowsTo ((start.contentsAt []).deliver place cargoes).contents disk
  reported : ((start.contentsAt []).deliver place cargoes).Reported label transfer

theorem delivered_nil (h : start.WellFormed) (place : Location) (label : StorePath → String) :
    Delivered start place label [] {} start :=
  ⟨.refl h, rfl, rfl⟩

theorem Delivered.concat (h : Delivered start place label cargoes transfer disk)
    {outcome : Except FailureReason Unit × Disk} (hbrings : disk.Brings place cargo outcome) :
    Delivered start place label (cargoes ++ [cargo])
      (transfer.recordCargo (label cargo.1) cargo outcome.1) outcome.2 := by
  have hcontents := h.growsTo.contents
  by_cases hadmits : (disk.contentsAt []).Admits place cargo
  . obtain ⟨new, rfl, hnew⟩ := hbrings.done hadmits
    rw [hcontents] at hadmits hnew
    constructor
    . rw [Contents.deliver_concat, Contents.next_of_admits hadmits]
      exact h.growsTo.trans hnew
    . rw [Contents.deliver_concat]
      exact h.reported.next_of_admits hadmits
  . obtain ⟨error, rfl⟩ := hbrings.refused hadmits
    rw [hcontents] at hadmits
    constructor
    . rw [Contents.deliver_concat, Contents.next_of_not_admits hadmits]
      exact h.growsTo
    . rw [Contents.deliver_concat]
      exact h.reported.next_of_not_admits hadmits error

theorem Delivered.contents_eq (h : Delivered start place label cargoes transfer disk)
    {other : Location} (hapart : Apart other place) :
    disk.contentsAt [] other = start.contentsAt [] other := by
  rw [h.growsTo.contents, Contents.deliver_elsewhere]
  intro cargo _ hpre
  cases prefix_or_prefix_of_append hpre with
  | inl habove => exact hapart.1 habove
  | inr hbelow => exact hapart.2 hbelow

theorem Delivered.readsAlike (h : Delivered start place label cargoes transfer disk)
    (hstart : start.WellFormed) (hsource : start.Source source origin)
    (hapart : Apart origin place) : ReadsAlike source origin start disk := by
  apply hsource.readsAlike hstart h.growsTo.grows.keeps h.growsTo.grows.here
  intro path
  cases hnode : start.nodes.get? (origin ++ path) with
  | some node => exact h.growsTo.grows.keeps _ _ hnode
  | none =>
    have hnone : disk.contentsAt [] (origin ++ path) = none := by
      rw [h.contents_eq (hapart.append path)]
      exact contentsAt_eq_none_iff.mpr hnode
    exact contentsAt_eq_none_iff.mp hnone

/--
Whether the host takes the paths of a tree below a host path, no link is on the way to its entries,
and what is at the place of one of its files has no second name.
-/
structure HasWay (disk : Disk) (target : String) (place : Location) (tree : Contents) : Prop where
  fits : ∀ path, tree path ≠ none → DirectoryClient.Accepts target path
  plain : ∀ path, tree path ≠ none → disk.Plain (place ++ path)
  alone : ∀ path data, tree path = some (.file data) → disk.Alone (place ++ path)

variable {tree : Contents} {path : StorePath}

theorem HasWay.arrives (h : start.HasWay target place tree) (harrives : start.Arrives target place)
    (hgrows : start.Grows disk) (hpath : path.Canonical) (htree : tree path ≠ none) :
    disk.Arrives (HostPath.below target path) (place ++ path) :=
  (harrives.of_grows hgrows).below hpath (h.fits path htree).short (h.fits path htree).checked
    ((h.plain path htree).of_grows hgrows)

theorem HasWay.withoutLinks (h : start.HasWay target place tree) :
    start.HasWay target place tree.withoutLinks := by
  constructor
  . exact fun path hpath => h.fits path (Contents.ne_none_of_withoutLinks hpath)
  . exact fun path hpath => h.plain path (Contents.ne_none_of_withoutLinks hpath)
  . exact fun path data hfile => h.alone path data (Contents.withoutLinks_eq_file_iff.mp hfile)

theorem HasWay.reaches {directory : Location} {front : StorePath}
    (h : start.HasWay target (directory ++ front) tree)
    (hreaches : start.Reaches target directory front) (hgrows : start.Grows disk)
    (hpath : path.Canonical) (htree : tree path ≠ none) :
    disk.Reaches (HostPath.below target path) directory (front ++ path) := by
  apply (hreaches.of_grows hgrows).below hpath (h.fits path htree).short (h.fits path htree).checked
  rw [← List.append_assoc]
  exact (h.plain path htree).of_grows hgrows

variable {entry : Node}

theorem Delivered.copyItem (hstart : start.WellFormed) (hsource : start.Source source origin)
    {found : Location} (hentry : start.findEntry source = .ok (.taken found entry))
    (harrives : start.Arrives target place)
    (hway : start.HasWay target place (start.contentsAt origin).withoutLinks)
    (hapart : Apart origin place) {done : List WalkItem} {item : WalkItem}
    (hmem : item ∈ start.itemsFrom entry origin)
    (h : Delivered start place (HostPath.below target) (done.filterMap (WalkItem.cargo? start))
      transfer disk) :
    Delivered start place (HostPath.below target)
      ((done ++ [item]).filterMap (WalkItem.cargo? start))
      ((DirectoryClient.copyItem source target transfer item).run disk).1
      ((DirectoryClient.copyItem source target transfer item).run disk).2 := by
  have hdisk := h.growsTo.grows.wellFormed
  rw [List.filterMap_append]
  obtain ⟨path, node, rfl⟩ := hsource.exists_of_mem_itemsFrom hstart hmem
  have hplace : (∀ target modified, node ≠ .link target modified) →
      start.nodes.get? (origin ++ path) = some node ∧
        disk.Arrives (HostPath.below target path) (place ++ path) := by
    intro hlink
    have hnode := hsource.get?_of_mem_itemsFrom hstart hentry hmem hlink
    have hpath := (canonical_append.mp (hstart.canonical hnode)).2
    exact ⟨hnode, hway.arrives harrives h.growsTo.grows hpath (withoutLinks_ne_none hlink hnode)⟩
  unfold DirectoryClient.copyItem
  cases node with
  | link destination modified =>
    rw [List.filterMap_cons_none rfl, List.filterMap_nil, List.append_nil]
    exact h
  | directory modified =>
    obtain ⟨_, harrives⟩ := hplace (by simp)
    exact h.concat ((harrives.createDirectories hdisk).mapError FailureReason.host).below
  | file id =>
    obtain ⟨hnode, harrives⟩ := hplace (by simp)
    have htree : (start.contentsAt origin).withoutLinks path = some (.file (start.contents id)) :=
      Contents.withoutLinks_eq_file_iff.mpr (contentsAt_eq_file_iff.mpr ⟨id, hnode, rfl⟩)
    have halone := h.growsTo.alone _ (hway.alone path _ htree)
    have hfind := (h.readsAlike hstart hsource hapart).find path _ hnode (by simp)
    have hdata : disk.contentsAt [] (origin ++ path) = some (.file (start.contents id)) := by
      rw [h.contents_eq (hapart.append path)]
      exact contentsAt_eq_file_iff.mpr ⟨id, hnode, rfl⟩
    have hnot : ¬ origin ++ path <+: place ++ path := by
      intro hpre
      cases prefix_or_prefix_of_append hpre with
      | inl habove => exact (hapart.append path).1 habove
      | inr hbelow => exact (hapart.append path).2 hbelow
    exact h.concat (harrives.copyFile hdisk halone hfind hdata hnot).below

theorem copyTree_delivers (hstart : start.WellFormed) (hsource : start.Source source origin)
    {found : Location} (hentry : start.findEntry source = .ok (.taken found entry))
    (harrives : start.Arrives target place)
    (hway : start.HasWay target place (start.contentsAt origin).withoutLinks)
    (hapart : Apart origin place) :
    Delivered start place (HostPath.below target) (start.cargoesFrom entry origin)
      ((DirectoryClient.copyTree source target).run start).1
      ((DirectoryClient.copyTree source target).run start).2 := by
  let P : List WalkItem → Transfer → Disk → Prop := fun done transfer disk =>
    Delivered start place (HostPath.below target) (done.filterMap (WalkItem.cargo? start))
    transfer disk
  have hcopied :
      P (start.itemsFrom entry origin) ((DirectoryClient.copyTree source target).run start).1
        ((DirectoryClient.copyTree source target).run start).2 := by
    unfold DirectoryClient.copyTree
    apply hsource.visitTree_follows hstart hentry
    . intro done transfer disk h
      exact h.readsAlike hstart hsource hapart
    . intro done item transfer disk hall h
      exact h.copyItem hstart hsource hentry harrives hway hapart (hall.subset (by simp))
    . exact delivered_nil hstart place _
  exact hcopied

theorem Delivered.of_bringsRoot {node : Node} {found : Location}
    (h : Delivered start place label (start.cargoesFrom entry origin) transfer disk)
    (hstart : start.WellFormed) (hsource : start.Source source origin)
    (hfind : start.find source = .ok (.taken origin node))
    (hentry : start.findEntry source = .ok (.taken found entry))
    (hroot : start.BringsRoot source origin place) :
    Delivered start place label (start.cargoesFrom node origin) transfer disk := by
  by_cases hlink : ∀ target modified, entry ≠ .link target modified
  . rw [find_of_findEntry hlink hentry] at hfind
    cases hfind
    exact h
  . simp only [ne_eq, not_forall, not_not] at hlink
    obtain ⟨destination, linked, rfl⟩ := hlink
    rcases id hroot with ⟨other, hother, hnot⟩ | ⟨⟨modified, hdirectory⟩, hput, _⟩
    . rw [hentry] at hother
      cases hother
      exact absurd rfl (hnot destination linked)
    . have hnode : start.nodes.get? origin = some node := findWith_holds hstart hfind
      rw [hnode, Option.some_inj] at hdirectory
      subst hdirectory
      have hclear :=
        (hsource.lists_cargoes hstart hnode).pairwise_clear (isTree_contentsAt hstart origin)
      have hmore := or_iff_not_imp_right.mpr (hroot.cargoes_ne_nil hsource hstart hentry)
      rw [cargoesFrom_directory hnode] at hclear ⊢
      have hsame := Contents.deliver_root (isTree_contentsAt hstart []) hput hclear hmore
      constructor
      . rw [hsame]
        exact h.growsTo
      . rw [hsame]
        exact h.reported

end Disk

namespace MemoryClient

variable {start : Disk} {target : String} {directory : Location} {front root : StorePath}
  {cargoes : List Cargo}

theorem downloadEntries_delivers (hstart : start.WellFormed) {tree : Contents}
    (hreaches : start.Reaches target directory front)
    (hway : start.HasWay target (directory ++ front) tree) (hroot : root.Canonical)
    (hcargoes : ∀ cargo ∈ cargoes, cargo.1.Canonical ∧ tree cargo.1 ≠ none)
    (hfiles : ∀ path data, (path, some data) ∈ cargoes → tree path = some (.file data)) :
    Disk.Delivered start (directory ++ front) (fun path => (root ++ path).text) cargoes
      ((downloadEntries root target (cargoes.map fun cargo =>
        (root ++ cargo.1, cargo.2))).run start).1
      ((downloadEntries root target (cargoes.map fun cargo =>
        (root ++ cargo.1, cargo.2))).run start).2 := by
  unfold downloadEntries
  induction cargoes using List.reverseRecOn with
  | nil => exact Disk.delivered_nil hstart _ _
  | append_singleton cargoes cargo ih =>
    have h := ih (fun other hother => hcargoes other (List.mem_append_left _ hother))
      fun path data hmem => hfiles path data (List.mem_append_left _ hmem)
    obtain ⟨hpath, htree⟩ := hcargoes cargo (by simp)
    have hplace := hway.reaches hreaches h.growsTo.grows hpath htree
    have hdisk := h.growsTo.grows.wellFormed
    obtain ⟨path, data?⟩ := cargo
    rw [List.map_append, List.map_singleton, Step.run_foldlM_concat]
    unfold downloadEntry
    dsimp only
    rw [localTarget_append hreaches.text_ne_empty hroot hpath]
    cases data? with
    | none =>
      have hbrings := (Disk.Arrives.named hplace).createDirectories hdisk
      rw [← List.append_assoc] at hbrings
      exact h.concat (hbrings.mapError FailureReason.host).below
    | some data =>
      have halone := h.growsTo.alone _ (hway.alone path data (hfiles path data (by simp)))
      rw [List.append_assoc] at halone
      have hbrings := hplace.writeLocal hdisk halone data
      rw [← List.append_assoc] at hbrings
      exact h.concat hbrings.below

end MemoryClient

end LakeStore
