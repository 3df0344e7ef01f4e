import LakeStore.Proofs.Host.Growth
import LakeStore.Proofs.Host.Region

/-!
What removals leave of a disk. Entries can be left out, as long as no entry that stays is in one
that is left out.
-/

namespace LakeStore.Disk

open StorePath

variable {disk : Disk} {keep : Location → Bool} {location : Location}

theorem get?_filter (disk : Disk) (keep : Location → Bool) (location : Location) :
    (disk.filter keep).nodes.get? location =
      if keep location then disk.nodes.get? location else none :=
  PathMap.get?_filter disk.nodes keep location

theorem get?_of_get?_filter {node : Node} (h : (disk.filter keep).nodes.get? location = some node) :
    keep location ∧ disk.nodes.get? location = some node := by
  rw [get?_filter] at h
  split at h
  . next hkeep => exact ⟨hkeep, h⟩
  . cases h

theorem filter_keeps (disk : Disk) (keep : Location → Bool) : (disk.filter keep).Keeps disk := by
  intro location node hnode
  exact (get?_of_get?_filter hnode).2

theorem isDirectoryAt_filter (hkeep : keep location) (h : disk.IsDirectoryAt location) :
    (disk.filter keep).IsDirectoryAt location := by
  obtain ⟨modified, hnode⟩ := h
  refine ⟨modified, ?_⟩
  rw [get?_filter, if_pos hkeep]
  exact hnode

theorem WellFormed.filter (h : disk.WellFormed) (hroot : keep []) (hhere : keep disk.here)
    (hparent : ∀ location name node, disk.nodes.get? (location ++ [name]) = some node →
      keep (location ++ [name]) → keep location) : (disk.filter keep).WellFormed := by
  refine ⟨?_, ?_, ?_, ?_, ?_⟩
  . exact isDirectoryAt_filter hroot h.root
  . exact isDirectoryAt_filter hhere h.here
  . intro location name node hnode
    have hold := get?_of_get?_filter hnode
    apply isDirectoryAt_filter
    . exact hparent location name node hold.2 hold.1
    . exact h.parent location name node hold.2
  . intro location name node hnode
    exact h.name location name node (get?_of_get?_filter hnode).2
  . intro location id hnode
    exact h.file location id (get?_of_get?_filter hnode).2

structure Shrinks (removed : Location) (old new : Disk) : Prop where
  keeps : new.Keeps old
  outside : ∀ location node, ¬ removed <+: location → old.nodes.get? location = some node →
    new.nodes.get? location = some node
  here : new.here = old.here
  wellFormed : new.WellFormed

theorem Shrinks.refl (h : disk.WellFormed) : Shrinks location disk disk := by
  refine ⟨?_, ?_, rfl, h⟩
  . exact fun _ _ hnode => hnode
  . exact fun _ _ _ hnode => hnode

theorem shrinks_filter (h : (disk.filter keep).WellFormed)
    (hkeep : ∀ other, ¬ location <+: other → keep other) :
    Shrinks location disk (disk.filter keep) := by
  refine ⟨filter_keeps disk keep, ?_, rfl, h⟩
  intro other node hother hnode
  rw [get?_filter, if_pos (hkeep other hother)]
  exact hnode

theorem shrinks_erase (h : disk.WellFormed) (hroot : location ≠ [])
    (hhere : ¬ location <+: disk.here)
    (hempty : ∀ name, disk.nodes.get? (location ++ [name]) = none) :
    Shrinks location disk { disk with nodes := disk.nodes.erase location } := by
  have hwellFormed : (disk.filter (· ≠ location)).WellFormed := by
    apply h.filter
    . simpa using hroot.symm
    . rw [decide_eq_true_eq]
      rintro heq
      exact hhere (heq ▸ List.prefix_rfl)
    . intro other name node hnode _
      rw [decide_eq_true_eq]
      rintro rfl
      rw [hempty name] at hnode
      cases hnode
  apply shrinks_filter hwellFormed
  intro other hother
  rw [decide_eq_true_eq]
  rintro rfl
  exact hother List.prefix_rfl

theorem Shrinks.trans {a b c : Disk} (hab : Shrinks location a b) (hbc : Shrinks location b c) :
    Shrinks location a c := by
  refine ⟨?_, ?_, ?_, hbc.wellFormed⟩
  . intro other node hnode
    apply hab.keeps
    apply hbc.keeps
    exact hnode
  . intro other node hother hnode
    apply hbc.outside _ _ hother
    exact hab.outside other node hother hnode
  . rw [hbc.here, hab.here]

theorem get?_cleared (disk : Disk) (directory other : Location) :
    (disk.cleared directory).nodes.get? other =
      if Below directory other then none else disk.nodes.get? other := by
  unfold cleared
  rw [get?_filter]
  by_cases hbelow : Below directory other <;> simp [hbelow]

theorem get?_cleared_self (disk : Disk) (directory : Location) :
    (disk.cleared directory).nodes.get? directory = disk.nodes.get? directory := by
  rw [get?_cleared, if_neg fun hbelow => hbelow.2 rfl]

theorem below_cleared (disk : Disk) (directory : Location) :
    (disk.cleared directory).nodes.below directory = [] := by
  rw [List.eq_nil_iff_forall_not_mem]
  rintro ⟨other, node⟩ hmem
  rw [PathMap.mem_below_iff, get?_cleared] at hmem
  rw [if_pos hmem.1] at hmem
  cases hmem.2

theorem erase_cleared (disk : Disk) (directory : Location) :
    (disk.cleared directory).nodes.erase directory = disk.nodes.eraseFrom directory :=
  PathMap.erase_filter_below disk.nodes directory

theorem shrinks_cleared (h : disk.WellFormed) (hhere : ¬ location <+: disk.here) :
    Shrinks location disk (disk.cleared location) := by
  have hwellFormed : (disk.cleared location).WellFormed := by
    apply h.filter
    . simpa using not_below_nil location
    . rw [decide_eq_true_eq]
      exact fun hbelow => hhere hbelow.1
    . intro other name node _ hkeep
      rw [decide_eq_true_eq] at hkeep ⊢
      intro hbelow
      apply hkeep
      exact hbelow.trans (List.prefix_append _ _)
  apply shrinks_filter hwellFormed
  intro other hother
  rw [decide_eq_true_eq]
  exact fun hbelow => hother hbelow.1

theorem WellFormed.get?_concat_of_not_directory (h : disk.WellFormed) {node : Node}
    (hnode : disk.nodes.get? location = some node) (hkind : ∀ modified, node ≠ .directory modified)
    (name : String) : disk.nodes.get? (location ++ [name]) = none := by
  cases hchild : disk.nodes.get? (location ++ [name]) with
  | none => rfl
  | some child =>
    obtain ⟨modified, hdirectory⟩ := h.parent location name child hchild
    rw [hnode, Option.some_inj] at hdirectory
    exact absurd hdirectory (hkind modified)

def RemovesOnly (request : String → Step Disk HostError Unit) : Prop :=
  ∀ disk path removed, disk.WellFormed → removed ≠ [] → ¬ removed <+: disk.here →
    (∀ found node, disk.findEntry path = .ok (.taken found node) → found = removed) →
    Shrinks removed disk ((request path).outcome disk).2

theorem removesOnly_removeFile : RemovesOnly removeFile := by
  intro disk path removed h hroot hhere hfind
  rw [removeFile_outcome]
  split
  . exact .refl h
  . exact .refl h
  . next found node hkind hentry =>
    have hnode := findWith_holds h hentry
    have heq := hfind found node hentry
    subst heq
    apply shrinks_erase h hroot hhere
    exact h.get?_concat_of_not_directory hnode hkind
  . exact .refl h

theorem removesOnly_removeDirectory : RemovesOnly removeDirectory := by
  intro disk path removed h hroot hhere hfind
  rw [removeDirectory_outcome]
  split
  . exact .refl h
  . next found modified hentry =>
    have heq := hfind found _ hentry
    subst heq
    split
    . next hempty =>
      apply shrinks_erase h hroot hhere
      intro name
      cases hchild : disk.nodes.get? (found ++ [name]) with
      | none => rfl
      | some child =>
        have hbelow : Below found (found ++ [name]) := below_append (by simp)
        have hmem := (PathMap.mem_below_iff disk.nodes found _ child).mpr ⟨hbelow, hchild⟩
        rw [List.isEmpty_iff] at hempty
        rw [hempty] at hmem
        cases hmem
    . exact .refl h
  . exact .refl h
  . exact .refl h

theorem removesOnly_removeTree : RemovesOnly removeTree := by
  intro disk path removed h hroot hhere hfind
  rw [removeTree_outcome]
  split
  . exact .refl h
  . next found modified hentry =>
    have heq := hfind found _ hentry
    subst heq
    have hcleared := shrinks_cleared h hhere
    have hagain : ∀ again node, (disk.cleared found).findEntry path = .ok (.taken again node) →
        again = found :=
      fun again node hentry => hfind again node (findWith_keeps hcleared.keeps rfl hentry)
    have hremoved := removesOnly_removeDirectory _ path found hcleared.wellFormed hroot hhere hagain
    split
    all_goals
      next houtcome =>
        rw [houtcome] at hremoved
        exact hcleared.trans hremoved
  . next found target modified hentry =>
    have hnode := findWith_holds h hentry
    have heq := hfind found _ hentry
    subst heq
    apply shrinks_erase h hroot hhere
    apply h.get?_concat_of_not_directory hnode
    intro time hkind
    cases hkind
  . exact .refl h
  . exact .refl h

end LakeStore.Disk
