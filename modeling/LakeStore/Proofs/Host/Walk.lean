import LakeStore.Host.Walk
import LakeStore.Proofs.Host.Growth

/-!
The rule for walks: what each visit keeps true of the result and the disk is true when the walk is
over. A walk of a disk that nobody changes only meets entries by names that entries can have.
-/

namespace LakeStore

def WalkItem.names : WalkItem → StorePath
  | .found names _ => names
  | .failed names _ => names

namespace Disk

open StorePath

theorem isName_of_mem_entriesIn {disk : Disk} (h : disk.WellFormed) {path : String}
    {entries : List (String × Node)} (hentries : disk.entriesIn path = .ok entries)
    {name : String} {node : Node} (hmem : (name, node) ∈ entries) : IsName name := by
  unfold entriesIn at hentries
  cases hfind : disk.find path with
  | error error =>
    rw [hfind] at hentries
    cases hentries
  | ok spot =>
    rw [hfind] at hentries
    cases spot with
    | free location name => cases hentries
    | taken location found =>
      cases found with
      | file id => cases hentries
      | link target modified => cases hentries
      | directory modified =>
        cases hentries
        rw [List.mem_map] at hmem
        obtain ⟨⟨key, child⟩, hchild, heq⟩ := hmem
        rw [PathMap.mem_children_iff] at hchild
        obtain ⟨last, rfl, hget⟩ := hchild
        cases heq
        rw [List.getLast?_concat]
        exact h.name location last node hget

section visit

variable {α : Type} {visit : α → WalkItem → StateM Disk α} {start : String} {P : α → Disk → Prop}

theorem visitBelow_invariant (hwellFormed : ∀ result disk, P result disk → disk.WellFormed)
    (hvisit : ∀ result disk item, P result disk → item.names.Canonical →
      P ((visit result item).run disk).1 ((visit result item).run disk).2)
    (depth : Nat) {names : StorePath} (hnames : names.Canonical) {result : α} {disk : Disk}
    (h : P result disk) :
    P ((visitBelow visit start depth names result).run disk).1
      ((visitBelow visit start depth names result).run disk).2 := by
  induction depth generalizing names result disk with
  | zero => exact h
  | succ depth ih =>
    unfold visitBelow
    rw [Step.run_get_bind]
    split
    . next error _ => exact hvisit result disk (.failed names error) h hnames
    . next entries hentries =>
      -- The names in a directory are fixed when it is listed, whatever the visits do to the disk.
      refine Step.run_foldlM_of_step ?_ h
      rintro value state hstate ⟨name, node⟩ hmem
      have hname := isName_of_mem_entriesIn (hwellFormed result disk h) hentries hmem
      have hbelow : (names ++ [name]).Canonical :=
        canonical_append.mpr ⟨hnames, canonical_singleton.mpr hname⟩
      have hfound := hvisit value state (.found (names ++ [name]) node) hstate hbelow
      rw [Step.run_bind]
      split
      . exact ih hbelow hfound
      . exact hfound

theorem visitTree_invariant (hwellFormed : ∀ result disk, P result disk → disk.WellFormed)
    (hvisit : ∀ result disk item, P result disk → item.names.Canonical →
      P ((visit result item).run disk).1 ((visit result item).run disk).2)
    {result : α} {disk : Disk} (h : P result disk) :
    P ((visitTree visit start result).run disk).1 ((visitTree visit start result).run disk).2 := by
  unfold visitTree
  rw [Step.run_get_bind]
  split
  . next error _ => exact hvisit result disk (.failed [] error) h canonical_nil
  . next node _ =>
    have hfound := hvisit result disk (.found [] node) h canonical_nil
    rw [Step.run_bind, Step.run_get_bind]
    split
    . exact visitBelow_invariant hwellFormed hvisit maxPath canonical_nil hfound
    . exact hfound

theorem exists_visited
    (hvisit : ∀ result disk item, disk.WellFormed → ((visit result item).run disk).2.WellFormed)
    {disk : Disk} (h : disk.WellFormed) (start : String) (result : α) :
    ∃ items : List WalkItem, (∀ item ∈ items, item.names.Canonical) ∧
      (visitTree visit start result).run disk = (items.foldlM visit result).run disk := by
  let P : α → Disk → Prop := fun value new => new.WellFormed ∧ ∃ items : List WalkItem,
    (∀ item ∈ items, item.names.Canonical) ∧ (value, new) = (items.foldlM visit result).run disk
  have hwalk :
    P ((visitTree visit start result).run disk).1 ((visitTree visit start result).run disk).2 := by
    apply visitTree_invariant
    . exact fun value new hnew => hnew.1
    . rintro value new item ⟨hnew, items, hitems, hrun⟩ hitem
      refine ⟨hvisit value new item hnew, items ++ [item], ?_, ?_⟩
      . rw [List.forall_mem_append, List.forall_mem_singleton]
        exact ⟨hitems, hitem⟩
      . rw [Step.run_foldlM_concat, ← hrun]
        rfl
    . exact ⟨h, [], by simp, rfl⟩
  exact hwalk.2

end visit

theorem canonical_of_mem_walk {disk : Disk} (h : disk.WellFormed) {start : String} {item : WalkItem}
    (hmem : item ∈ disk.walk start) : item.names.Canonical := by
  let visit : List WalkItem → WalkItem → StateM Disk (List WalkItem) :=
    fun items item => return items ++ [item]
  let P : List WalkItem → Disk → Prop :=
    fun items new => new.WellFormed ∧ ∀ other ∈ items, other.names.Canonical
  have hvisit : ∀ items new item, P items new → item.names.Canonical →
      P ((visit items item).run new).1 ((visit items item).run new).2 := by
    intro items new item hnew hitem
    refine ⟨hnew.1, ?_⟩
    intro other hother
    change other ∈ items ++ [item] at hother
    rw [List.mem_append, List.mem_singleton] at hother
    cases hother with
    | inl hother => exact hnew.2 other hother
    | inr heq => rw [heq]; exact hitem
  have hwalk :
      P ((visitTree visit start []).run disk).1 ((visitTree visit start []).run disk).2 := by
    apply visitTree_invariant
    . exact fun items new hnew => hnew.1
    . exact hvisit
    . exact ⟨h, by simp⟩
  exact hwalk.2 item hmem

end Disk

end LakeStore
