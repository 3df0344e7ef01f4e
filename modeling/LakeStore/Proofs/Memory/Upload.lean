import LakeStore.Proofs.Memory.Client
import LakeStore.Proofs.Path.Target
import LakeStore.Proofs.Trees
import Mathlib.Data.List.Find
import Mathlib.Data.List.Nodup

/-!
An upload to a tree in memory when some of its entries cannot be carried to their places. Which
entries these are depends on the tree before the upload alone: what the upload itself makes on its
way holds back no other entry, in whatever order they come.
-/

namespace LakeStore

namespace Memory

open StorePath

namespace LocalEntry

def isFile : LocalEntry → Bool
  | .file .. => true
  | _ => false

/--
Whether some entries are, in one order or another, the directories and the files of a local tree.
-/
structure Lists (entries : List LocalEntry) (tree : Contents) : Prop where
  nodup : (entries.map names).Nodup
  directory : ∀ names, .directory names ∈ entries ↔ tree names = some .directory
  file : ∀ names data, .file names data ∈ entries ↔ tree names = some (.file data)
  read : ∀ path reason, .unread path reason ∉ entries

variable {entries : List LocalEntry} {tree : Contents} {entry : LocalEntry}

theorem Lists.ne_none (h : Lists entries tree) (hentry : entry ∈ entries) :
    tree entry.names ≠ none := by
  cases entry with
  | directory names => simp [LocalEntry.names, (h.directory names).mp hentry]
  | file names data => simp [LocalEntry.names, (h.file names data).mp hentry]
  | unread path reason => exact absurd hentry (h.read path reason)

theorem Lists.canonical (h : Lists entries tree) (htree : tree.IsTree) (hentry : entry ∈ entries) :
    entry.names.Canonical :=
  htree.canonical entry.names (h.ne_none hentry)

theorem Lists.eq_of_prefix (h : Lists entries tree) (htree : tree.IsTree) {names : List String}
    {data : ByteArray} (hfile : .file names data ∈ entries) (hentry : entry ∈ entries)
    (hpre : names <+: entry.names) : entry = .file names data := by
  have hcontent := (h.file names data).mp hfile
  rw [prefix_iff_eq_or_below] at hpre
  cases hpre with
  | inl heq =>
    cases entry with
    | directory other =>
      have hother := (h.directory other).mp hentry
      rw [heq] at hcontent
      change tree other = _ at hcontent
      rw [hother] at hcontent
      cases hcontent
    | file other found =>
      have hother := (h.file other found).mp hentry
      have hnames : names = other := heq
      subst hnames
      rw [hcontent] at hother
      cases hother
      rfl
    | unread path reason => exact absurd hentry (h.read path reason)
  | inr hbelow =>
    have hclosed := htree.closed entry.names names (h.ne_none hentry) hbelow
    rw [hcontent] at hclosed
    cases hclosed

theorem Lists.perm {others : List LocalEntry} (h : Lists entries tree)
    (hothers : Lists others tree) :
    entries.Perm others := by
  rw [List.perm_ext_iff_of_nodup (List.Nodup.of_map _ h.nodup) (List.Nodup.of_map _ hothers.nodup)]
  intro entry
  cases entry with
  | directory names => rw [h.directory, hothers.directory]
  | file names data => rw [h.file, hothers.file]
  | unread path reason => simp [h.read, hothers.read]

end LocalEntry

namespace Tree

variable {tree before after : Tree} {root path : StorePath} {entry : LocalEntry} {now : Time}

def blocks (tree : Tree) (root : StorePath) : LocalEntry → Bool
  | .directory names => tree.isFile (root ++ names) || (root ++ names).ancestors.any tree.isFile
  | .file names _ => tree.isDirectory (root ++ names) || (root ++ names).ancestors.any tree.isFile
  | .unread .. => true

def failure? (tree : Tree) (root : StorePath) : LocalEntry → Option Failure
  | .directory names =>
    if tree.isFile (root ++ names) || (tree.fileAbove? (root ++ names)).isSome then
      some ⟨(root ++ names).text, .fileInTheWay⟩
    else none
  | .file names _ =>
    (tree.putRefusal? (root ++ names) .overwrite).map fun error =>
      ⟨(root ++ names).text, .client error⟩
  | .unread path reason => some ⟨path, reason⟩

def nodeAfter? (now : Time) (tree : Tree) (root : StorePath) (entry : LocalEntry)
    (path : StorePath) :
    Option Node :=
  match entry with
  | .file names data =>
    if path = root ++ names then some (.file data (some now))
    else if path <+: root ++ names then some ((tree.get? path).getD (.directory (some now)))
    else tree.get? path
  | _ =>
    if path <+: root ++ entry.names then some ((tree.get? path).getD (.directory (some now)))
    else tree.get? path

theorem isSome_fileAbove? (tree : Tree) (path : StorePath) :
    (tree.fileAbove? path).isSome = path.ancestors.any tree.isFile := by
  rw [Bool.eq_iff_iff, fileAbove?, List.find?_isSome, List.any_eq_true]

theorem putRefusal?_overwrite (tree : Tree) (path : StorePath) :
    tree.putRefusal? path .overwrite =
      if tree.isDirectory path then some (.directoryInTheWay path.text)
      else (tree.fileAbove? path).map fun parent => .parentIsFile path.text parent.text := by
  unfold putRefusal? isDirectory
  cases tree.get? path with
  | none => simp
  | some node => cases node <;> simp [Node.isDirectory]

theorem isSome_failure? (tree : Tree) (root : StorePath) (entry : LocalEntry) :
    (tree.failure? root entry).isSome = tree.blocks root entry := by
  cases entry with
  | directory names =>
    unfold failure? blocks
    dsimp only
    rw [isSome_fileAbove?]
    split
    . next h => rw [h, Option.isSome_some]
    . next h => rw [Bool.not_eq_true] at h; rw [h, Option.isSome_none]
  | file names data =>
    unfold failure? blocks
    dsimp only
    rw [Option.isSome_map, putRefusal?_overwrite]
    split
    . next h => simp [h]
    . next h => rw [Option.isSome_map, isSome_fileAbove?]; simp [h]
  | unread path reason => rfl

theorem ne_none_of_prefix (h : tree.contents.WellFormed) {target : StorePath}
    {modified : Option Time} (hnode : tree.get? target = some (.directory modified))
    (hpre : path <+: target) :
    ∃ node, tree.get? path = some node := by
  have hdirectory := contents_eq_directory_iff.mpr ⟨modified, hnode⟩
  rw [prefix_iff_eq_or_below] at hpre
  cases hpre with
  | inl heq => exact ⟨_, heq ▸ hnode⟩
  | inr hbelow =>
    have hclosed := h.closed target path (by simp [hdirectory]) hbelow
    obtain ⟨modified, hget⟩ := contents_eq_directory_iff.mp hclosed
    exact ⟨_, hget⟩

theorem get?_insert_addParents (h : tree.contents.WellFormed) (now : Time) (target : StorePath)
    (node : Node) (path : StorePath) :
    ((tree.addParents now target).insert target node).get? path =
      if path = target then some node
      else if path <+: target then some ((tree.get? path).getD (.directory (some now)))
      else tree.get? path := by
  rw [PathMap.get?_insert, get?_addParents]
  split
  . rfl
  . next hne =>
    by_cases hpre : path <+: target
    . rw [if_pos hpre]
      split
      . rfl
      . next hnot =>
        -- Of the paths above the target, the root alone is not among those that are added.
        have hroot : path = [] := by
          by_contra hpath
          exact hnot (mem_ancestors.mpr ⟨hpath, hpre, hne⟩)
        obtain ⟨modified, hget⟩ := contents_eq_directory_iff.mp h.root
        rw [hroot, hget, Option.getD_some]
    . rw [if_neg hpre, if_neg]
      intro hmem
      exact hpre (mem_ancestors.mp hmem).2.1

def recordEntry (transfer : Transfer) (entry : LocalEntry) : Option Failure → Transfer
  | some failure => transfer.recordFailure failure.path failure.reason
  | none => if entry.isFile then transfer.recordSuccess else transfer

theorem canPutDirectory_iff (h : tree.contents.WellFormed) :
    (tree.isFile path || (tree.fileAbove? path).isSome) = false ↔
      tree.contents.CanPutDirectory path := by
  unfold Contents.CanPutDirectory
  rw [Bool.or_eq_false_iff, Option.isSome_eq_false_iff, Option.isNone_iff_eq_none,
    fileAbove?_eq_none_iff h]
  rw [← Bool.not_eq_true, isFile_iff, not_exists]

theorem get?_createDirectory (h : tree.contents.WellFormed)
    (hput : tree.contents.CanPutDirectory path) (now : Time) :
    ∃ stored, (createDirectory now path).run tree = (true, stored) ∧
      ∀ other, stored.get? other =
        if other <+: path then some ((tree.get? other).getD (.directory (some now)))
        else tree.get? other := by
  rw [createDirectory_run]
  cases hnode : tree.get? path with
  | some node =>
    cases node with
    | file data modified => exact absurd (contents_eq_file_iff.mpr ⟨modified, hnode⟩) (hput.1 data)
    | directory modified =>
      refine ⟨tree, rfl, ?_⟩
      intro other
      split
      . next hpre =>
        obtain ⟨node, hget⟩ := ne_none_of_prefix h hnode hpre
        rw [hget, Option.getD_some]
      . rfl
  | none =>
    dsimp only
    rw [(fileAbove?_eq_none_iff h).mpr hput.2, if_neg (by simp)]
    refine ⟨_, rfl, ?_⟩
    intro other
    rw [get?_insert_addParents h]
    split
    . next heq => rw [if_pos (heq ▸ List.prefix_rfl), heq, hnode, Option.getD_none]
    . rfl

theorem uploadEntry_run (h : tree.contents.WellFormed) (now : Time) (root : StorePath)
    (transfer : Transfer) (entry : LocalEntry) :
    ∃ stored, (uploadEntry now root transfer entry).run tree =
        (recordEntry transfer entry (tree.failure? root entry), stored) ∧
      ∀ path, stored.get? path =
        if tree.blocks root entry then tree.get? path else nodeAfter? now tree root entry path := by
  have hblocks := isSome_failure? tree root entry
  unfold uploadEntry
  unfold failure? at hblocks ⊢
  cases entry with
  | directory names =>
    dsimp only at hblocks ⊢
    rw [Step.run_bind]
    by_cases hput : tree.contents.CanPutDirectory (root ++ names)
    . obtain ⟨stored, hrun, hstored⟩ := get?_createDirectory h hput now
      have hnone := (canPutDirectory_iff h).mpr hput
      rw [hnone] at hblocks ⊢
      rw [hrun, ← hblocks]
      exact ⟨stored, rfl, hstored⟩
    . have hrun := createDirectory_of_not_canPut h hput now
      rw [← canPutDirectory_iff h, Bool.not_eq_false] at hput
      rw [hput] at hblocks ⊢
      rw [hrun, ← hblocks]
      exact ⟨tree, rfl, fun path => rfl⟩
  | file names data =>
    dsimp only at hblocks ⊢
    rw [Step.run_bind_pure, Step.run_run, Step.outcome_mapError, putFile_outcome]
    cases hrefusal : tree.putRefusal? (root ++ names) .overwrite with
    | some error =>
      rw [hrefusal] at hblocks
      rw [← hblocks]
      exact ⟨tree, rfl, fun path => rfl⟩
    | none =>
      rw [hrefusal] at hblocks
      rw [← hblocks]
      exact ⟨_, rfl, get?_insert_addParents h now (root ++ names) (.file data (some now))⟩
  | unread path reason => exact ⟨tree, rfl, fun path => rfl⟩

structure Carried (now : Time) (root : StorePath) (before : Tree) (done : List LocalEntry)
    (after : Tree) :
    Prop where
  wellFormed : after.contents.WellFormed
  file : ∀ names data, .file names data ∈ done → before.blocks root (.file names data) = false →
    after.get? (root ++ names) = some (.file data (some now))
  made : ∀ path,
    (∀ names data, .file names data ∈ done → before.blocks root (.file names data) = false →
      path ≠ root ++ names) →
    (∃ entry ∈ done, before.blocks root entry = false ∧ path <+: root ++ entry.names) →
    after.get? path = some ((before.get? path).getD (.directory (some now)))
  kept : ∀ path,
    (∀ entry ∈ done, before.blocks root entry = false → ¬ path <+: root ++ entry.names) →
    after.get? path = before.get? path

variable {done entries : List LocalEntry} {tree : Contents}

theorem Carried.start (h : before.contents.WellFormed) (now : Time) (root : StorePath) :
    Carried now root before [] before := by
  refine ⟨h, ?_, ?_, ?_⟩
  . intro names data hmem
    cases hmem
  . rintro path _ ⟨entry, hmem, _⟩
    cases hmem
  . exact fun path _ => rfl

theorem Carried.isFile_eq (h : Carried now root before done after)
    (hpath : ∀ names data, .file names data ∈ done → before.blocks root (.file names data) = false →
      path ≠ root ++ names) : after.isFile path = before.isFile path := by
  unfold isFile
  by_cases hmade : ∃ entry ∈ done, before.blocks root entry = false ∧ path <+: root ++ entry.names
  . rw [h.made path hpath hmade]
    cases before.get? path <;> rfl
  . rw [h.kept path fun entry hmem hblocks hpre => hmade ⟨entry, hmem, hblocks, hpre⟩]

theorem Carried.fileAbove?_eq (h : Carried now root before done after)
    (hlists : LocalEntry.Lists entries tree) (htree : tree.IsTree) (hdone : done ⊆ entries)
    (hentry : entry ∈ entries) :
    after.fileAbove? (root ++ entry.names) = before.fileAbove? (root ++ entry.names) := by
  unfold fileAbove?
  apply List.find?_congr
  intro above habove
  apply h.isFile_eq
  rintro names data hfile _ rfl
  have hbelow := (mem_ancestors.mp habove).2
  rw [below_append_iff] at hbelow
  rw [hlists.eq_of_prefix htree (hdone hfile) hentry hbelow.1] at hbelow
  exact hbelow.2 rfl

theorem Carried.failure?_eq (h : Carried now root before done after)
    (hlists : LocalEntry.Lists entries tree) (htree : tree.IsTree) (hdone : done ⊆ entries)
    (hentry : entry ∈ entries) :
    after.failure? root entry = before.failure? root entry := by
  have habove := h.fileAbove?_eq hlists htree hdone hentry
  cases entry with
  | unread path reason => rfl
  | directory names =>
    have hfile : after.isFile (root ++ names) = before.isFile (root ++ names) := by
      apply h.isFile_eq
      intro other data hmem _ heq
      rw [List.append_cancel_left_eq] at heq
      have := hlists.eq_of_prefix htree (hdone hmem) hentry (heq ▸ List.prefix_rfl)
      cases this
    unfold failure?
    change after.fileAbove? (root ++ names) = _ at habove
    dsimp only
    rw [hfile, habove]
    rfl
  | file names data =>
    have hdirectory : after.isDirectory (root ++ names) = before.isDirectory (root ++ names) := by
      by_cases hcarried : .file names data ∈ done ∧ before.blocks root (.file names data) = false
      . have hnot : before.isDirectory (root ++ names) = false :=
          (Bool.or_eq_false_iff.mp hcarried.2).1
        rw [hnot, isDirectory, h.file names data hcarried.1 hcarried.2]
        rfl
      . unfold isDirectory
        rw [h.kept]
        intro other hmem hblocks hpre
        rw [List.prefix_append_right_inj] at hpre
        have heq := hlists.eq_of_prefix htree hentry (hdone hmem) hpre
        subst heq
        exact hcarried ⟨hmem, hblocks⟩
    unfold failure?
    change after.fileAbove? (root ++ names) = _ at habove
    dsimp only
    rw [putRefusal?_overwrite, putRefusal?_overwrite, hdirectory, habove]
    rfl

theorem Carried.blocks_eq (h : Carried now root before done after)
    (hlists : LocalEntry.Lists entries tree) (htree : tree.IsTree) (hdone : done ⊆ entries)
    (hentry : entry ∈ entries) :
    after.blocks root entry = before.blocks root entry := by
  rw [← isSome_failure?, ← isSome_failure?, h.failure?_eq hlists htree hdone hentry]

theorem Carried.of_blocked (h : Carried now root before done after)
    (hblocks : before.blocks root entry = true) {stored : Tree}
    (hwellFormed : stored.contents.WellFormed)
    (hstored : ∀ path, stored.get? path = after.get? path) :
    Carried now root before (done ++ [entry]) stored := by
  have hmem : ∀ other ∈ done ++ [entry], before.blocks root other = false → other ∈ done := by
    intro other hother hnot
    rw [List.mem_append, List.mem_singleton] at hother
    cases hother with
    | inl hother => exact hother
    | inr heq =>
      rw [heq, hblocks] at hnot
      cases hnot
  refine ⟨hwellFormed, ?_, ?_, ?_⟩
  . intro names data hother hnot
    rw [hstored]
    exact h.file names data (hmem _ hother hnot) hnot
  . rintro path hfile ⟨other, hother, hnot, hpre⟩
    rw [hstored]
    apply h.made path
    . exact fun names data hdone => hfile names data (List.mem_append_left _ hdone)
    . exact ⟨other, hmem other hother hnot, hnot, hpre⟩
  . intro path hkept
    rw [hstored]
    apply h.kept path
    exact fun other hdone => hkept other (List.mem_append_left _ hdone)

theorem Carried.of_carried (h : Carried now root before done after)
    (hlists : LocalEntry.Lists entries tree) (htree : tree.IsTree) (hdone : done ⊆ entries)
    (hentry : entry ∈ entries) (hblocks : before.blocks root entry = false) {stored : Tree}
    (hwellFormed : stored.contents.WellFormed)
    (hstored : ∀ path, stored.get? path = nodeAfter? now after root entry path) :
    Carried now root before (done ++ [entry]) stored := by
  have hlast : entry ∈ done ++ [entry] := List.mem_append_right _ (List.mem_singleton_self entry)
  -- Behind the place of the entry itself, only the directories on the way to it may be new.
  have hother : ∀ path, (∀ names data, entry = .file names data → path ≠ root ++ names) →
      stored.get? path =
        if path <+: root ++ entry.names then some ((after.get? path).getD (.directory (some now)))
        else after.get? path := by
    intro path hpath
    rw [hstored]
    cases entry with
    | directory names => rfl
    | unread source reason => rfl
    | file names data =>
      unfold nodeAfter?
      dsimp only
      rw [if_neg (hpath names data rfl)]
      rfl
  refine ⟨hwellFormed, ?_, ?_, ?_⟩
  . intro names data hmem hnot
    by_cases heq : entry = .file names data
    . rw [hstored, heq]
      exact if_pos rfl
    . have hfile : .file names data ∈ done := by
        rw [List.mem_append, List.mem_singleton] at hmem
        exact hmem.resolve_right fun hsame => heq hsame.symm
      have hnotPrefix : ¬ root ++ names <+: root ++ entry.names := by
        rw [List.prefix_append_right_inj]
        exact fun hpre => heq (hlists.eq_of_prefix htree (hdone hfile) hentry hpre)
      rw [hother, if_neg hnotPrefix]
      . exact h.file names data hfile hnot
      . rintro other found rfl hsame
        exact hnotPrefix (hsame ▸ List.prefix_rfl)
  . intro path hfile hmade
    have hdoneFile : ∀ names data,
        .file names data ∈ done → before.blocks root (.file names data) = false →
          path ≠ root ++ names := fun names data hmem =>
          hfile names data (List.mem_append_left _ hmem)
    rw [hother path fun names data heq => hfile names data (heq ▸ hlast) (heq ▸ hblocks)]
    by_cases hearlier : ∃ other ∈ done,
      before.blocks root other = false ∧ path <+: root ++ other.names
    . rw [h.made path hdoneFile hearlier, Option.getD_some, ite_self]
    . have hkept := h.kept path fun other hmem hnot hpre => hearlier ⟨other, hmem, hnot, hpre⟩
      obtain ⟨other, hmem, hnot, hpre⟩ := hmade
      rw [List.mem_append, List.mem_singleton] at hmem
      cases hmem with
      | inl hmem => exact absurd ⟨other, hmem, hnot, hpre⟩ hearlier
      | inr heq => rw [hkept, if_pos (heq ▸ hpre)]
  . intro path hkept
    have hnotPrefix := hkept entry hlast hblocks
    rw [hother, if_neg hnotPrefix]
    . exact h.kept path fun other hmem => hkept other (List.mem_append_left _ hmem)
    . rintro names data rfl rfl
      exact hnotPrefix List.prefix_rfl

theorem Carried.step (h : Carried now root before done after)
    (hlists : LocalEntry.Lists entries tree) (htree : tree.IsTree) (hroot : root.Canonical)
    (hdone : done ⊆ entries) (hentry : entry ∈ entries) (transfer : Transfer) :
    ∃ stored, (uploadEntry now root transfer entry).run after =
        (recordEntry transfer entry (before.failure? root entry), stored) ∧
      Carried now root before (done ++ [entry]) stored := by
  have hcanonical : (root ++ entry.names).Canonical :=
    canonical_append.mpr ⟨hroot, hlists.canonical htree hentry⟩
  have hwellFormed := uploadEntry_wellFormed h.wellFormed hcanonical now transfer
  obtain ⟨stored, hrun, hstored⟩ := uploadEntry_run h.wellFormed now root transfer entry
  rw [h.failure?_eq hlists htree hdone hentry] at hrun
  rw [h.blocks_eq hlists htree hdone hentry] at hstored
  rw [hrun] at hwellFormed
  refine ⟨stored, hrun, ?_⟩
  cases hblocks : before.blocks root entry with
  | true =>
    rw [hblocks] at hstored
    exact h.of_blocked hblocks hwellFormed hstored
  | false =>
    rw [hblocks] at hstored
    exact h.of_carried hlists htree hdone hentry hblocks hwellFormed hstored

def transferOf (before : Tree) (root : StorePath) (entries : List LocalEntry) : Transfer where
  transferred := entries.countP fun entry => entry.isFile && !before.blocks root entry
  failed := entries.filterMap (before.failure? root)

theorem transferOf_concat (before : Tree) (root : StorePath) (entries : List LocalEntry)
    (entry : LocalEntry) :
    before.transferOf root (entries ++ [entry]) =
      recordEntry (before.transferOf root entries) entry (before.failure? root entry) := by
  have hblocks := isSome_failure? before root entry
  unfold transferOf recordEntry
  rw [List.countP_append, List.countP_singleton, List.filterMap_append]
  cases hfailure : before.failure? root entry with
  | some failure =>
    rw [hfailure] at hblocks
    simp [← hblocks, hfailure, Transfer.recordFailure]
  | none =>
    rw [hfailure] at hblocks
    cases hfile : entry.isFile <;> simp [← hblocks, hfailure, Transfer.recordSuccess]

theorem upload_run (hbefore : before.contents.WellFormed) (hlists : LocalEntry.Lists entries tree)
    (htree : tree.IsTree) (hroot : root.Canonical) (now : Time) :
    ∃ stored, (upload now root entries).run before = (before.transferOf root entries, stored) ∧
      Carried now root before entries stored := by
  have hloop : ∀ done, done <+: entries → ∃ stored,
      (done.foldlM (uploadEntry now root) {}).run before = (before.transferOf root done, stored) ∧
        Carried now root before done stored := by
    intro done hdone
    induction done using List.reverseRecOn with
    | nil => exact ⟨before, rfl, .start hbefore now root⟩
    | append_singleton done entry ih =>
      obtain ⟨earlier, hrun, hcarried⟩ := ih ((List.prefix_append _ _).trans hdone)
      have hsubset := hdone.subset
      rw [List.append_subset] at hsubset
      obtain ⟨stored, hstep, hstored⟩ := hcarried.step hlists htree hroot hsubset.1
        (hsubset.2 (List.mem_singleton_self entry)) (before.transferOf root done)
      refine ⟨stored, ?_, hstored⟩
      rw [Step.run_foldlM_concat, hrun, transferOf_concat, ← hstep]
  exact hloop entries List.prefix_rfl

/--
What an upload of a local tree tells and leaves behind, by the tree before it: what nothing held
back is at its place, what was held back is recorded under its place, and all else is as it was.
-/
structure Uploaded (root : StorePath) (entries : List LocalEntry) (before : Tree)
    (transfer : Transfer) (after : Tree) : Prop where
  transferred : transfer.transferred = entries.countP fun entry =>
    entry.isFile && !before.blocks root entry
  failed : transfer.failed.map Failure.path = (entries.filter (before.blocks root)).map fun entry =>
    joinRemote root.text (HostPath.ofComponents entry.names)
  once : (transfer.failed.map Failure.path).Nodup
  file : ∀ names data, .file names data ∈ entries → before.blocks root (.file names data) = false →
    after.contents (root ++ names) = some (.file data)
  directory : ∀ names, .directory names ∈ entries → before.blocks root (.directory names) = false →
    after.contents (root ++ names) = some .directory
  above : ∀ entry ∈ entries, before.blocks root entry = false → ∀ path,
    Below path (root ++ entry.names) →
    after.contents path = some .directory
  kept : ∀ path node, before.get? path = some node → (∀ names data, .file names data ∈ entries →
    before.blocks root (.file names data) = false → path ≠ root ++ names) →
    after.get? path = some node
  absent : ∀ path, before.get? path = none → (∀ entry ∈ entries, before.blocks root entry = false →
    ¬ path <+: root ++ entry.names) → after.get? path = none

theorem path_failure? (hlists : LocalEntry.Lists entries tree) (htree : tree.IsTree)
    (hroot : root.Canonical) (hentry : entry ∈ entries) {failure : Failure}
    (hfailure : before.failure? root entry = some failure) :
    failure.path = joinRemote root.text (HostPath.ofComponents entry.names) := by
  rw [joinRemote_ofComponents hroot (hlists.canonical htree hentry)]
  unfold failure? at hfailure
  split at hfailure
  . split at hfailure
    . cases hfailure
      rfl
    . cases hfailure
  . rw [Option.map_eq_some_iff] at hfailure
    obtain ⟨error, _, rfl⟩ := hfailure
    rfl
  . exact absurd hentry (hlists.read _ _)

theorem map_path_failed (before : Tree) (hlists : LocalEntry.Lists entries tree)
    (htree : tree.IsTree) (hroot : root.Canonical) :
    (before.transferOf root entries).failed.map Failure.path =
      (entries.filter (before.blocks root)).map fun entry =>
        joinRemote root.text (HostPath.ofComponents entry.names) := by
  unfold transferOf
  dsimp only
  rw [List.map_filterMap, ← List.filterMap_eq_map, List.filterMap_filter]
  apply List.filterMap_congr
  intro entry hentry
  have hblocks := isSome_failure? before root entry
  cases hfailure : before.failure? root entry with
  | none =>
    rw [hfailure] at hblocks
    simp [← hblocks]
  | some failure =>
    rw [hfailure] at hblocks
    simp [← hblocks, path_failure? hlists htree hroot hentry hfailure]

theorem nodup_targets (hlists : LocalEntry.Lists entries tree) (htree : tree.IsTree)
    (hroot : root.Canonical) :
    (entries.map fun entry => joinRemote root.text (HostPath.ofComponents entry.names)).Nodup := by
  have hnodup := hlists.nodup
  unfold List.Nodup at hnodup ⊢
  rw [List.pairwise_map] at hnodup ⊢
  refine hnodup.imp_of_mem ?_
  intro entry other hentry hother hne heq
  have hnames := hlists.canonical htree hentry
  have hotherNames := hlists.canonical htree hother
  rw [joinRemote_ofComponents hroot hnames, joinRemote_ofComponents hroot hotherNames] at heq
  have hpaths := eq_of_text_eq (canonical_append.mpr ⟨hroot, hnames⟩)
    (canonical_append.mpr ⟨hroot, hotherNames⟩) heq
  rw [List.append_cancel_left_eq] at hpaths
  exact hne hpaths

theorem Carried.uploaded (h : Carried now root before entries after)
    (hlists : LocalEntry.Lists entries tree) (htree : tree.IsTree) (hroot : root.Canonical) :
    Uploaded root entries before (before.transferOf root entries) after := by
  have hfailed := map_path_failed before hlists htree hroot
  have hpresent : ∀ entry ∈ entries, before.blocks root entry = false →
      after.contents (root ++ entry.names) ≠ none := by
    intro entry hentry hblocks
    rw [ne_eq, contents_eq_none_iff]
    by_cases hfile : ∃ names data,
      .file names data ∈ entries ∧ before.blocks root (.file names data) = false ∧
        root ++ entry.names = root ++ names
    . obtain ⟨names, data, hmem, hnot, heq⟩ := hfile
      rw [heq, h.file names data hmem hnot]
      simp
    . have hmade := h.made (root ++ entry.names)
        (fun names data hmem hnot heq => hfile ⟨names, data, hmem, hnot, heq⟩)
        ⟨entry, hentry, hblocks, List.prefix_rfl⟩
      rw [hmade]
      simp
  refine ⟨rfl, hfailed, ?_, ?_, ?_, ?_, ?_, ?_⟩
  . rw [hfailed]
    exact (nodup_targets hlists htree hroot).sublist (List.filter_sublist.map _)
  . intro names data hmem hblocks
    exact contents_eq_file_iff.mpr ⟨some now, h.file names data hmem hblocks⟩
  . intro names hmem hblocks
    have hfile : after.isFile (root ++ names) = before.isFile (root ++ names) := by
      apply h.isFile_eq
      intro other data hother _ heq
      rw [List.append_cancel_left_eq] at heq
      cases hlists.eq_of_prefix htree hother hmem (heq ▸ List.prefix_rfl)
    rw [(Bool.or_eq_false_iff.mp hblocks).1] at hfile
    rcases h.wellFormed.content_cases (root ++ names) with hdirectory | hdata | hnone
    . exact hdirectory
    . rw [← isFile_iff, hfile] at hdata
      cases hdata
    . exact absurd hnone (hpresent _ hmem hblocks)
  . intro entry hmem hblocks path hbelow
    exact h.wellFormed.closed (root ++ entry.names) path (hpresent entry hmem hblocks) hbelow
  . intro path node hnode hfile
    by_cases hmade : ∃ entry ∈ entries,
      before.blocks root entry = false ∧ path <+: root ++ entry.names
    . rw [h.made path hfile hmade, hnode, Option.getD_some]
    . rw [h.kept path fun entry hmem hblocks hpre => hmade ⟨entry, hmem, hblocks, hpre⟩, hnode]
  . intro path hnone hkept
    rw [h.kept path hkept, hnone]

theorem Carried.contents_again (h : Carried now root before entries after)
    (hlists : LocalEntry.Lists entries tree) (htree : tree.IsTree) {others : List LocalEntry}
    (hsame : ∀ entry, entry ∈ others ↔ entry ∈ entries) {later : Time} {again : Tree}
    (hagain : Carried later root after others again) :
    again.contents = after.contents := by
  have hblocks : ∀ entry ∈ others, after.blocks root entry = before.blocks root entry :=
    fun entry hmem => h.blocks_eq hlists htree (List.Subset.refl entries) ((hsame entry).mp hmem)
  funext path
  unfold contents
  by_cases hfile : ∃ names data,
    .file names data ∈ others ∧ after.blocks root (.file names data) = false ∧
      path = root ++ names
  . obtain ⟨names, data, hmem, hnot, rfl⟩ := hfile
    rw [hagain.file names data hmem hnot]
    rw [hblocks _ hmem] at hnot
    rw [h.file names data ((hsame _).mp hmem) hnot]
    rfl
  . have hnotFile : ∀ names data,
      .file names data ∈ others → after.blocks root (.file names data) = false →
        path ≠ root ++ names := fun names data hmem hnot heq => hfile ⟨names, data, hmem, hnot, heq⟩
    by_cases hmade : ∃ entry ∈ others,
      after.blocks root entry = false ∧ path <+: root ++ entry.names
    . rw [hagain.made path hnotFile hmade]
      obtain ⟨entry, hmem, hnot, hpre⟩ := hmade
      rw [hblocks entry hmem] at hnot
      rw [h.made path _ ⟨entry, (hsame entry).mp hmem, hnot, hpre⟩, Option.getD_some]
      intro names data hother hfree
      rw [← hsame] at hother
      rw [← hblocks _ hother] at hfree
      exact hnotFile names data hother hfree
    . rw [hagain.kept path fun entry hmem hnot hpre => hmade ⟨entry, hmem, hnot, hpre⟩]

theorem Carried.upload_again (h : Carried now root before entries after)
    (hlists : LocalEntry.Lists entries tree) (htree : tree.IsTree) (hroot : root.Canonical)
    {others : List LocalEntry} (hothers : LocalEntry.Lists others tree) (later : Time) :
    ∃ transfer again, (upload later root others).run after = (transfer, again) ∧
      transfer.transferred = (before.transferOf root entries).transferred ∧
      transfer.failed.Perm (before.transferOf root entries).failed ∧
      again.contents = after.contents := by
  obtain ⟨again, hrun, hagain⟩ := upload_run h.wellFormed hothers htree hroot later
  have hperm := hothers.perm hlists
  have hfailure : ∀ entry ∈ others, after.failure? root entry = before.failure? root entry :=
    fun entry hmem => h.failure?_eq hlists htree (List.Subset.refl entries) (hperm.subset hmem)
  have hblocks : ∀ entry ∈ others, after.blocks root entry = before.blocks root entry :=
    fun entry hmem => h.blocks_eq hlists htree (List.Subset.refl entries) (hperm.subset hmem)
  refine ⟨_, again, hrun, ?_, ?_, h.contents_again hlists htree (fun _ => hperm.mem_iff) hagain⟩
  . unfold transferOf
    dsimp only
    rw [← hperm.countP_eq]
    apply List.countP_congr
    intro entry hmem
    rw [hblocks entry hmem]
  . unfold transferOf
    dsimp only
    rw [List.filterMap_congr hfailure]
    exact hperm.filterMap _

end Tree

end Memory

end LakeStore
