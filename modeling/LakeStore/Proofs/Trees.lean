import LakeStore.Proofs.Contents
import Mathlib.Data.Set.Card

/-!
Trees that transfers carry from place to place, without links, and the places that take such a tree
whole.
-/

namespace LakeStore.Contents

open StorePath

variable {contents tree : Contents} {path : StorePath} {data : ByteArray}

/-- The directories and files of a tree. -/
def withoutLinks (contents : Contents) : Contents := fun path =>
  match contents path with
  | some (.link _) => none
  | found => found

theorem withoutLinks_eq_directory_iff :
    contents.withoutLinks path = some .directory ↔ contents path = some .directory := by
  unfold withoutLinks
  split
  . next heq => simp [heq]
  . rfl

theorem withoutLinks_eq_file_iff :
    contents.withoutLinks path = some (.file data) ↔ contents path = some (.file data) := by
  unfold withoutLinks
  split
  . next heq => simp [heq]
  . rfl

theorem withoutLinks_ne_link (contents : Contents) (path : StorePath) (target : String) :
    contents.withoutLinks path ≠ some (.link target) := by
  unfold withoutLinks
  split
  . simp
  . next hlink => exact hlink target

theorem withoutLinks_eq_self (h : ∀ path target, contents path ≠ some (.link target)) :
    contents.withoutLinks = contents := by
  funext path
  unfold withoutLinks
  split
  . next target heq => exact absurd heq (h path target)
  . rfl

theorem withoutLinks_withoutLinks (contents : Contents) :
    contents.withoutLinks.withoutLinks = contents.withoutLinks :=
  withoutLinks_eq_self (withoutLinks_ne_link contents)

theorem ne_none_of_withoutLinks (h : contents.withoutLinks path ≠ none) : contents path ≠ none := by
  unfold withoutLinks at h
  split at h
  . exact absurd rfl h
  . exact h

theorem IsTree.withoutLinks (h : tree.IsTree) : tree.withoutLinks.IsTree := by
  constructor
  . intro path hpath
    exact h.canonical path (ne_none_of_withoutLinks hpath)
  . intro path above hpath habove
    rw [withoutLinks_eq_directory_iff]
    exact h.closed path above (ne_none_of_withoutLinks hpath) habove

noncomputable def fileCount (tree : Contents) : Nat :=
  {path | ∃ data, tree path = some (.file data)}.ncard

theorem fileCount_eq_countP {α : Type} {entries : List α} (pathOf : α → StorePath)
    {isFile : α → Bool} (hnodup : (entries.map pathOf).Nodup)
    (hfile : ∀ path, (∃ entry ∈ entries, isFile entry ∧ pathOf entry = path) ↔ ∃ data,
      tree path = some (.file data)) :
    tree.fileCount = entries.countP isFile := by
  have hfiles : ((entries.filter isFile).map pathOf).Nodup :=
    hnodup.sublist (List.filter_sublist.map pathOf)
  have hset : {path | ∃ data, tree path = some (.file data)} =
      (((entries.filter isFile).map pathOf).toFinset : Set StorePath) := by
    ext path
    rw [Set.mem_ofPred_eq, ← hfile, List.coe_toFinset, Set.mem_ofPred_eq]
    simp [and_assoc]
  unfold fileCount
  rw [hset, Set.ncard_coe_finset, List.toFinset_card_of_nodup hfiles, List.length_map,
    List.countP_eq_length_filter]

/--
Whether a tree can be put at a path: nothing is there, or an empty directory in the place of a
directory.
-/
structure Takes (contents : Contents) (path : StorePath) (tree : Contents) : Prop where
  empty : ∀ other, Below path other → contents other = none
  here : contents path = none ∧ ¬ contents.FileAbove path ∨
    contents path = some .directory ∧ tree [] = some .directory

theorem Takes.eq_none (h : contents.Takes path tree) {rest : StorePath}
    (hrest : tree rest ≠ some .directory) :
    contents (path ++ rest) = none := by
  by_cases hnil : rest = []
  . rw [hnil] at hrest ⊢
    rw [List.append_nil]
    exact (h.here.resolve_right fun hdirectory => hrest hdirectory.2).1
  . exact h.empty _ (below_append hnil)

theorem Takes.not_file (h : contents.Takes path tree) (hcontents : contents.IsTree)
    {other : StorePath} (hother : other <+: path ∨ path <+: other) (data : ByteArray) :
    contents other ≠ some (.file data) := by
  intro hfile
  have hnot : ¬ Below path other := by
    intro hbelow
    rw [h.empty other hbelow] at hfile
    cases hfile
  have hpre : other <+: path := by
    rcases hother with habove | hbelow
    . exact habove
    . rw [prefix_iff_eq_or_below] at hbelow
      exact (hbelow.resolve_right hnot) ▸ List.prefix_rfl
  rw [prefix_iff_eq_or_below] at hpre
  rcases h.here with ⟨hnone, habove⟩ | ⟨hdirectory, _⟩
  . rcases hpre with rfl | hbelow
    . rw [hnone] at hfile
      cases hfile
    . exact habove ⟨other, data, hbelow, hfile⟩
  . rcases hpre with rfl | hbelow
    . rw [hdirectory] at hfile
      cases hfile
    . rw [hcontents.closed path other (by simp [hdirectory]) hbelow] at hfile
      cases hfile

theorem Takes.canPutDirectory (h : contents.Takes path tree) (hcontents : contents.IsTree) :
    contents.CanPutDirectory path := by
  constructor
  . exact h.not_file hcontents (.inl List.prefix_rfl)
  . rintro ⟨above, data, hbelow, hfile⟩
    exact h.not_file hcontents (.inl hbelow.1) data hfile

end LakeStore.Contents
