import LakeStore.Proofs.Host.Detour
import LakeStore.Proofs.Transfer.DownloadDelivery

/-!
A download to a host path that leads through missing names, and back from them with `..`. The first
entry that it brings makes the directories above the path, and from then on it goes on as from a
disk that had them already.
-/

namespace LakeStore

open StorePath

namespace Disk

variable {disk made : Disk} {source target : String} {directory origin : Location} {name : String}
  {path : StorePath} {tree : Contents}

theorem Grows.get?_of_contentsAt (h : disk.Grows made)
    (hsame : made.contentsAt origin = disk.contentsAt origin) (path : StorePath) :
    made.nodes.get? (origin ++ path) = disk.nodes.get? (origin ++ path) := by
  cases hnode : disk.nodes.get? (origin ++ path) with
  | some node => exact h.keeps _ _ hnode
  | none =>
    rw [← contentsAt_eq_none_iff, ← hsame] at hnode
    exact contentsAt_eq_none_iff.mp hnode

theorem ReadsAlike.symm (h : ReadsAlike source origin disk made)
    (hsource : disk.Source source origin) (hdisk : disk.WellFormed)
    (hsame : ∀ path, made.nodes.get? (origin ++ path) = disk.nodes.get? (origin ++ path)) :
    ReadsAlike source origin made disk := by
  refine ⟨?_, fun path => (h.children path).symm⟩
  intro path node hnode hlink
  rw [hsame] at hnode
  exact hsource.find_of_get? hdisk hlink hnode

theorem Vacant.hasWay (h : disk.Vacant target directory path) (hdisk : disk.WellFormed)
    (hfits : ∀ rest, tree rest ≠ none → DirectoryClient.Accepts target rest) :
    disk.HasWay target (directory ++ path) tree :=
  ⟨hfits, fun rest _ => h.plain hdisk rest, fun rest _ _ =>
    .of_none (h.get?_below_eq_none hdisk rest)⟩

namespace Detours

variable {node entry : Node} {found : Location} {transfer : Transfer}

theorem writeLocal (h : disk.Detours target made directory name) (hdisk : disk.WellFormed)
    (hpath : path.Canonical) (haccepts : DirectoryClient.Accepts target path) (data : ByteArray) :
    (MemoryClient.writeLocal (HostPath.below target path) data).outcome disk =
      (MemoryClient.writeLocal (HostPath.below target path) data).outcome made := by
  unfold MemoryClient.writeLocal
  rw [Step.outcome_bind, Step.outcome_bind, Step.outcome_mapError, Step.outcome_mapError,
    h.createParents_below hdisk hpath haccepts.short haccepts.checked]

theorem copyFile (h : disk.Detours target made directory name) (hdisk : disk.WellFormed)
    (hpath : path.Canonical) (haccepts : DirectoryClient.Accepts target path) (text : String) :
    (DirectoryClient.copyFile text (HostPath.below target path)).outcome disk =
      (DirectoryClient.copyFile text (HostPath.below target path)).outcome made := by
  unfold DirectoryClient.copyFile
  rw [Step.outcome_bind, Step.outcome_bind, Step.outcome_mapError, Step.outcome_mapError,
    h.createParents_below hdisk hpath haccepts.short haccepts.checked]

theorem createDirectories (h : disk.Detours target made directory name) (hdisk : disk.WellFormed)
    (hpath : path.Canonical) (haccepts : DirectoryClient.Accepts target path) :
    ((Disk.createDirectories (HostPath.below target path)).mapError FailureReason.host).outcome
      disk =
      ((Disk.createDirectories (HostPath.below target path)).mapError FailureReason.host).outcome
        made := by
  rw [Step.outcome_mapError, Step.outcome_mapError,
    h.createDirectories_below hdisk hpath haccepts.short haccepts.checked]

theorem downloadEntry (h : disk.Detours target made directory name) (hdisk : disk.WellFormed)
    {root : StorePath} (hroot : root.Canonical) (hpath : path.Canonical)
    (haccepts : DirectoryClient.Accepts target path) (transfer : Transfer)
    (data? : Option ByteArray) :
    (MemoryClient.downloadEntry root target transfer (root ++ path, data?)).run disk =
      (MemoryClient.downloadEntry root target transfer (root ++ path, data?)).run made := by
  unfold MemoryClient.downloadEntry
  dsimp only
  rw [localTarget_append h.text_ne_empty hroot hpath]
  cases data? with
  | none =>
    rw [Step.run_bind, Step.run_bind, Step.run_run, Step.run_run,
      h.createDirectories hdisk hpath haccepts]
  | some data =>
    rw [Step.run_bind, Step.run_bind, Step.run_run, Step.run_run, h.writeLocal hdisk hpath haccepts]

theorem copyItem (h : disk.Detours target made directory name) (hdisk : disk.WellFormed)
    (hpath : path.Canonical) (haccepts : DirectoryClient.Accepts target path)
    (hlink : ∀ target modified, node ≠ .link target modified) (transfer : Transfer) :
    (DirectoryClient.copyItem source target transfer (.found path node)).run disk =
      (DirectoryClient.copyItem source target transfer (.found path node)).run made := by
  unfold DirectoryClient.copyItem
  dsimp only
  cases node with
  | directory modified =>
    rw [Step.run_bind, Step.run_bind, Step.run_run, Step.run_run,
      h.createDirectories hdisk hpath haccepts]
  | file id =>
    rw [Step.run_bind, Step.run_bind, Step.run_run, Step.run_run, h.copyFile hdisk hpath haccepts]
  | link text modified => exact absurd rfl (hlink text modified)

theorem downloadEntries (h : disk.Detours target made directory name) (hdisk : disk.WellFormed)
    {root : StorePath} {cargoes : List Cargo} (hroot : root.Canonical) (hne : cargoes ≠ [])
    (hcargoes : ∀ cargo ∈ cargoes, cargo.1.Canonical ∧ DirectoryClient.Accepts target cargo.1) :
    (MemoryClient.downloadEntries root target
        (cargoes.map fun cargo => (root ++ cargo.1, cargo.2))).run disk =
      (MemoryClient.downloadEntries root target
        (cargoes.map fun cargo => (root ++ cargo.1, cargo.2))).run made := by
  obtain ⟨⟨path, data?⟩, rest, rfl⟩ := List.exists_cons_of_ne_nil hne
  obtain ⟨hpath, haccepts⟩ := hcargoes (path, data?) (.head _)
  unfold MemoryClient.downloadEntries
  rw [List.map_cons, List.foldlM_cons, Step.run_bind, Step.run_bind,
    h.downloadEntry hdisk hroot hpath haccepts]

theorem copyTree_delivers (h : disk.Detours target made directory name) (hdisk : disk.WellFormed)
    (hsource : disk.Source source origin)
    (hentry : disk.findEntry source = .ok (.taken found entry))
    (hsame : made.contentsAt origin = disk.contentsAt origin)
    (hapart : Apart origin (directory ++ [name]))
    (hfits : ∀ rest, (made.contentsAt origin).withoutLinks rest ≠ none →
      DirectoryClient.Accepts target rest)
    (hne : made.cargoesFrom entry origin ≠ []) :
    Delivered made (directory ++ [name]) (HostPath.below target) (made.cargoesFrom entry origin)
      ((DirectoryClient.copyTree source target).run disk).1
      ((DirectoryClient.copyTree source target).run disk).2 := by
  have hgrows := h.grows hdisk
  have hmade := hgrows.wellFormed
  have hnodes := hgrows.get?_of_contentsAt hsame
  have halike : ReadsAlike source origin made disk :=
    (hsource.readsAlike hdisk hgrows.keeps hgrows.here hnodes).symm hsource hdisk hnodes
  have hmadeEntry := findWith_keeps hgrows.keeps hgrows.here hentry
  have hmadeSource : made.Source source origin := by
    obtain ⟨node, hfind⟩ := hsource.found
    refine ⟨⟨node, findWith_keeps hgrows.keeps hgrows.here hfind⟩, ?_⟩
    rw [hsame]
    exact hsource.fits
  have hway := h.vacant.hasWay hmade hfits
  have harrives : made.Arrives target (directory ++ [name]) := .named (h.vacant.reaches hmade)
  -- Until the first entry is brought along, nothing has happened.
  let P : List WalkItem → Transfer → Disk → Prop := fun done transfer new =>
    Delivered made (directory ++ [name]) (HostPath.below target)
    (done.filterMap (WalkItem.cargo? made)) transfer new ∨
    done.filterMap (WalkItem.cargo? made) = [] ∧ transfer = {} ∧ new = disk
  have hcopied :
      P (made.itemsFrom entry origin) ((DirectoryClient.copyTree source target).run disk).1
        ((DirectoryClient.copyTree source target).run disk).2 := by
    unfold DirectoryClient.copyTree
    apply hmadeSource.visitTree_follows hmade hentry
    . rintro done transfer new (hdelivered | ⟨_, _, rfl⟩)
      . exact hdelivered.readsAlike hmade hmadeSource hapart
      . exact halike
    . rintro done item transfer new hall (hdelivered | ⟨hnil, rfl, rfl⟩)
      . exact .inl (hdelivered.copyItem hmade hmadeSource hmadeEntry harrives hway hapart
          (hall.subset (by simp)))
      . have hmem : item ∈ made.itemsFrom entry origin := hall.subset (by simp)
        obtain ⟨path, node, rfl⟩ := hmadeSource.exists_of_mem_itemsFrom hmade hmem
        by_cases hlink : ∀ target modified, node ≠ .link target modified
        . have hnode := hmadeSource.get?_of_mem_itemsFrom hmade hmadeEntry hmem hlink
          have hpath := (canonical_append.mp (hmade.canonical hnode)).2
          have hstart := delivered_nil hmade (directory ++ [name]) (HostPath.below target)
          rw [← hnil] at hstart
          rw [h.copyItem hdisk hpath (hfits path (withoutLinks_ne_none hlink hnode)) hlink]
          exact .inl (hstart.copyItem hmade hmadeSource hmadeEntry harrives hway hapart hmem)
        . simp only [ne_eq, not_forall, not_not] at hlink
          obtain ⟨text, modified, rfl⟩ := hlink
          refine .inr ⟨?_, rfl, rfl⟩
          rw [List.filterMap_append, hnil]
          rfl
    . exact .inr ⟨rfl, rfl, rfl⟩
  rcases hcopied with hdelivered | ⟨hnil, _⟩
  . exact hdelivered
  . exact absurd hnil hne

end Detours

theorem Awaits.downloadEntries {place : Location} (h : disk.Awaits target made place)
    (hdisk : disk.WellFormed) {root : StorePath} {cargoes : List Cargo} (hroot : root.Canonical)
    (hne : cargoes ≠ [])
    (hcargoes : ∀ cargo ∈ cargoes, cargo.1.Canonical ∧ DirectoryClient.Accepts target cargo.1) :
    (MemoryClient.downloadEntries root target
        (cargoes.map fun cargo => (root ++ cargo.1, cargo.2))).run disk =
      (MemoryClient.downloadEntries root target
        (cargoes.map fun cargo => (root ++ cargo.1, cargo.2))).run made := by
  cases h with
  | vacant h => rfl
  | detour h => exact h.downloadEntries hdisk hroot hne hcargoes

theorem Awaits.copyTree_delivers {place : Location} (h : disk.Awaits target made place)
    (hdisk : disk.WellFormed) (hsource : disk.Source source origin) {entry : Node}
    {found : Location} (hentry : disk.findEntry source = .ok (.taken found entry))
    (hsame : made.contentsAt origin = disk.contentsAt origin) (hapart : Apart origin place)
    (hfits : ∀ rest, (made.contentsAt origin).withoutLinks rest ≠ none →
      DirectoryClient.Accepts target rest)
    (hne : made.cargoesFrom entry origin ≠ []) :
    Delivered made place (HostPath.below target) (made.cargoesFrom entry origin)
      ((DirectoryClient.copyTree source target).run disk).1
      ((DirectoryClient.copyTree source target).run disk).2 := by
  cases h with
  | vacant h =>
    exact Disk.copyTree_delivers hdisk hsource hentry (.named (h.reaches hdisk))
      (h.hasWay hdisk hfits) hapart
  | detour h => exact h.copyTree_delivers hdisk hsource hentry hsame hapart hfits hne

end Disk

end LakeStore
