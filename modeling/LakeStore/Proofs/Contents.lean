import LakeStore.Proofs.Path.Below
import Mathlib.Data.List.Induction

/-!
The store as its users see it: what it holds at each path, whichever client keeps it. The changes
that clients make keep it well formed: the root is there, and what lies above an entry is a
directory.
-/

namespace LakeStore

inductive Content where
  | directory
  | file (data : ByteArray)
  | link (target : String)

abbrev Contents := StorePath → Option Content

namespace Contents

open StorePath

variable {contents : Contents} {path : StorePath}

structure WellFormed (contents : Contents) : Prop where
  root : contents [] = some .directory
  canonical : ∀ path, contents path ≠ none → path.Canonical
  closed : ∀ path above, contents path ≠ none → Below above path → contents above = some .directory
  noLink : ∀ path target, contents path ≠ some (.link target)

structure IsTree (tree : Contents) : Prop where
  canonical : ∀ path, tree path ≠ none → path.Canonical
  closed : ∀ path above, tree path ≠ none → Below above path → tree above = some .directory

theorem WellFormed.isTree (h : contents.WellFormed) : contents.IsTree :=
  ⟨h.canonical, h.closed⟩

def FileAbove (contents : Contents) (path : StorePath) : Prop :=
  ∃ above data, Below above path ∧ contents above = some (.file data)

def CanPut (contents : Contents) (path : StorePath) : Prop :=
  contents path ≠ some .directory ∧ ¬ contents.FileAbove path

def CanPutDirectory (contents : Contents) (path : StorePath) : Prop :=
  (∀ data, contents path ≠ some (.file data)) ∧ ¬ contents.FileAbove path

def CanDelete (contents : Contents) (path : StorePath) : Prop :=
  path ≠ [] ∧ contents path ≠ none ∧ ∀ other, Below path other → contents other = none

def put (contents : Contents) (path : StorePath) (data : ByteArray) : Contents := fun other =>
  if other = path then some (.file data)
  else if Below other path then some .directory
  else contents other

def putDirectory (contents : Contents) (path : StorePath) : Contents := fun other =>
  if other <+: path then some .directory else contents other

def without (contents : Contents) (path : StorePath) : Contents := fun other =>
  if path <+: other then none else contents other

theorem WellFormed.put (h : contents.WellFormed) (hpath : path.Canonical)
    (hdirectory : contents path ≠ some .directory) (data : ByteArray) :
    (contents.put path data).WellFormed := by
  have hne : path ≠ [] := by
    rintro rfl
    exact hdirectory h.root
  refine ⟨?_, ?_, ?_, ?_⟩
  . unfold Contents.put
    rw [if_neg hne.symm, if_pos (nil_below hne)]
  . intro other hother
    unfold Contents.put at hother
    split at hother
    . next heq => rw [heq]; exact hpath
    . split at hother
      . next hbelow => exact hbelow.canonical hpath
      . exact h.canonical other hother
  . intro other above hother habove
    unfold Contents.put at hother ⊢
    -- What lies above an old entry is an old directory, and so is not `path` itself.
    have hold : contents other ≠ none → ¬ above = path ∧ contents above = some .directory := by
      intro hother
      have hclosed := h.closed other above hother habove
      refine ⟨?_, hclosed⟩
      rintro rfl
      exact hdirectory hclosed
    split at hother
    . next heq =>
      subst heq
      rw [if_neg habove.2, if_pos habove]
    . split at hother
      . next hbelow =>
        have := habove.trans hbelow.1
        rw [if_neg this.2, if_pos this]
      . rw [if_neg (hold hother).1]
        split
        . rfl
        . exact (hold hother).2
  . intro other target
    unfold Contents.put
    split
    . simp
    . split
      . simp
      . exact h.noLink other target

theorem WellFormed.putDirectory (h : contents.WellFormed) (hpath : path.Canonical) :
    (contents.putDirectory path).WellFormed := by
  unfold Contents.putDirectory
  refine ⟨?_, ?_, ?_, ?_⟩
  . rw [if_pos List.nil_prefix]
  . intro other hother
    split at hother
    . next hpre => exact hpath.of_prefix hpre
    . exact h.canonical other hother
  . intro other above hother habove
    split
    . rfl
    . next habove' =>
      split at hother
      . next hpre => exact absurd (habove.1.trans hpre) habove'
      . exact h.closed other above hother habove
  . intro other target
    split
    . simp
    . exact h.noLink other target

theorem WellFormed.without (h : contents.WellFormed) (hne : path ≠ []) :
    (contents.without path).WellFormed := by
  unfold Contents.without
  refine ⟨?_, ?_, ?_, ?_⟩
  . rw [if_neg (fun hpre => hne (List.prefix_nil.mp hpre))]
    exact h.root
  . intro other hother
    split at hother
    . exact absurd rfl hother
    . exact h.canonical other hother
  . intro other above hother habove
    split at hother
    . exact absurd rfl hother
    . next hnot =>
      rw [if_neg (fun hpre => hnot (hpre.trans habove.1))]
      exact h.closed other above hother habove
  . intro other target
    split
    . simp
    . exact h.noLink other target

theorem WellFormed.content_cases (h : contents.WellFormed) (path : StorePath) :
    contents path = some .directory ∨ (∃ data, contents path = some (.file data)) ∨
      contents path = none := by
  cases hcontent : contents path with
  | none => exact .inr (.inr rfl)
  | some content =>
    cases content with
    | directory => exact .inl rfl
    | file data => exact .inr (.inl ⟨data, rfl⟩)
    | link target => exact absurd hcontent (h.noLink path target)

theorem WellFormed.fileAbove_iff (h : contents.WellFormed) :
    contents.FileAbove path ↔ ∃ above ∈ path.ancestors, ∃ data,
      contents above = some (.file data) := by
  constructor
  . rintro ⟨above, data, hbelow, hfile⟩
    refine ⟨above, ?_, data, hfile⟩
    rw [mem_ancestors]
    refine ⟨?_, hbelow⟩
    rintro rfl
    rw [h.root] at hfile
    cases hfile
  . rintro ⟨above, hmem, data, hfile⟩
    rw [mem_ancestors] at hmem
    exact ⟨above, data, hmem.2, hfile⟩

theorem WellFormed.directory_of_not_fileAbove (h : contents.WellFormed)
    (hfile : ¬ contents.FileAbove path) {above : StorePath} (habove : Below above path) :
    contents above = none ∨ contents above = some .directory := by
  cases hcontent : contents above with
  | none => exact .inl rfl
  | some content =>
    cases content with
    | directory => exact .inr rfl
    | file data => exact absurd ⟨above, data, habove, hcontent⟩ hfile
    | link target => exact absurd hcontent (h.noLink above target)

theorem IsTree.not_fileAbove (h : contents.IsTree) (hpath : contents path ≠ none) :
    ¬ contents.FileAbove path := by
  rintro ⟨above, data, hbelow, hfile⟩
  rw [h.closed path above hpath hbelow] at hfile
  cases hfile

theorem IsTree.canPutDirectory (h : contents.IsTree)
    (hdirectory : contents path = some .directory) :
    contents.CanPutDirectory path :=
  ⟨by simp [hdirectory], h.not_fileAbove (by simp [hdirectory])⟩

theorem not_fileAbove_concat_iff {name : String} :
    ¬ contents.FileAbove (path ++ [name]) ↔ contents.CanPutDirectory path := by
  constructor
  . intro hfile
    constructor
    . intro data hcontent
      exact hfile ⟨path, data, below_append (by simp), hcontent⟩
    . rintro ⟨above, data, habove, hcontent⟩
      exact hfile ⟨above, data, below_concat_iff.mpr habove.1, hcontent⟩
  . rintro hput ⟨above, data, habove, hcontent⟩
    rw [below_concat_iff, prefix_iff_eq_or_below] at habove
    cases habove with
    | inl heq => exact hput.1 data (heq ▸ hcontent)
    | inr hbelow => exact hput.2 ⟨above, data, hbelow, hcontent⟩

theorem WellFormed.exists_first_missing (h : contents.WellFormed) (hpath : contents path = none)
    (hfile : ¬ contents.FileAbove path) :
    ∃ front name rest, path = front ++ name :: rest ∧ contents front = some .directory ∧
      contents (front ++ [name]) = none := by
  induction path using List.reverseRecOn with
  | nil =>
    rw [h.root] at hpath
    cases hpath
  | append_singleton path name ih =>
    have hbelow : Below path (path ++ [name]) := below_append (by simp)
    cases h.directory_of_not_fileAbove hfile hbelow with
    | inl hnone =>
      obtain ⟨front, first, rest, heq, hfound⟩ := ih hnone (not_fileAbove_concat_iff.mp hfile).2
      refine ⟨front, first, rest ++ [name], ?_, hfound⟩
      rw [heq, List.append_assoc, List.cons_append]
    | inr hdirectory => exact ⟨path, name, [], rfl, hdirectory, hpath⟩

theorem IsTree.putDirectory_concat (h : contents.IsTree)
    (hdirectory : contents path = some .directory) (name : String) :
    contents.putDirectory (path ++ [name]) =
      fun other => if other = path ++ [name] then some .directory else contents other := by
  funext other
  unfold Contents.putDirectory
  by_cases heq : other = path ++ [name]
  . rw [if_pos heq, if_pos (heq ▸ List.prefix_rfl)]
  . rw [if_neg heq]
    split
    . next hpre =>
      have hbelow : Below other (path ++ [name]) := ⟨hpre, heq⟩
      rw [below_concat_iff, prefix_iff_eq_or_below] at hbelow
      cases hbelow with
      | inl hsame => rw [hsame, hdirectory]
      | inr hbelow => rw [h.closed path other (by simp [hdirectory]) hbelow]
    . rfl

theorem putDirectory_putDirectory (contents : Contents) {above path : StorePath}
    (h : above <+: path) :
    (contents.putDirectory above).putDirectory path = contents.putDirectory path := by
  funext other
  unfold Contents.putDirectory
  split
  . rfl
  . next hnot => rw [if_neg fun hpre => hnot (hpre.trans h)]

theorem putDirectory_put (contents : Contents) (path : StorePath) (name : String)
    (data : ByteArray) :
    (fun other =>
      if other = path ++ [name] then some (.file data) else contents.putDirectory path other) =
        contents.put (path ++ [name]) data := by
  funext other
  unfold Contents.putDirectory Contents.put
  simp only [below_concat_iff]

theorem IsTree.none_below_file (h : contents.IsTree) {data : ByteArray}
    (hfile : contents path = some (.file data)) {other : StorePath} (hbelow : Below path other) :
    contents other = none := by
  cases hcontent : contents other with
  | none => rfl
  | some content =>
    have hclosed := h.closed other path (by simp [hcontent]) hbelow
    rw [hfile] at hclosed
    cases hclosed

theorem IsTree.putDirectory_eq_self (h : contents.IsTree)
    (hdirectory : contents path = some .directory) : contents.putDirectory path = contents := by
  funext other
  unfold Contents.putDirectory
  split
  . next hpre =>
    rw [prefix_iff_eq_or_below] at hpre
    cases hpre with
    | inl heq => rw [heq, hdirectory]
    | inr hbelow =>
      rw [h.closed path other _ hbelow]
      simp [hdirectory]
  . rfl

theorem put_again (contents : Contents) (path : StorePath) (old new : ByteArray) :
    (fun other => if other = path then some (.file new) else contents.put path old other) =
      contents.put path new := by
  funext other
  unfold Contents.put
  split
  all_goals rfl

theorem without_of_canDelete (hdelete : contents.CanDelete path) :
    contents.without path = fun other => if other = path then none else contents other := by
  funext other
  unfold Contents.without
  by_cases heq : other = path
  . rw [if_pos heq, if_pos (heq ▸ List.prefix_rfl)]
  . rw [if_neg heq]
    split
    . next hpre => rw [hdelete.2.2 other ⟨hpre, Ne.symm heq⟩]
    . rfl

section under

def under (contents : Contents) (path : StorePath) : Contents := fun rest =>
  contents (path ++ rest)

theorem IsTree.under (h : contents.IsTree) (path : StorePath) : (contents.under path).IsTree := by
  constructor
  . intro rest hrest
    exact (canonical_append.mp (h.canonical _ hrest)).2
  . intro rest above hrest habove
    exact h.closed _ _ hrest (below_append_iff.mpr habove)

theorem putDirectory_under (contents : Contents) (location path : StorePath) :
    (contents.putDirectory (location ++ path)).under location =
      (contents.under location).putDirectory path := by
  funext key
  simp only [Contents.under, putDirectory, List.prefix_append_right_inj]

theorem put_under (contents : Contents) (location path : StorePath) (data : ByteArray) :
    (contents.put (location ++ path) data).under location =
      (contents.under location).put path data := by
  funext key
  simp only [Contents.under, put, List.append_cancel_left_eq, below_append_iff]

variable {location : StorePath} (h : ∀ above, above <+: location → contents above = some .directory)

include h

theorem fileAbove_under_iff :
    contents.FileAbove (location ++ path) ↔ (contents.under location).FileAbove path := by
  constructor
  . rintro ⟨above, data, hbelow, hfile⟩
    cases prefix_or_prefix_of_append hbelow.1 with
    | inl hpre =>
      rw [h above hpre] at hfile
      cases hfile
    | inr hpre =>
      obtain ⟨rest, rfl⟩ := hpre
      exact ⟨rest, data, below_append_iff.mp hbelow, hfile⟩
  . rintro ⟨above, data, hbelow, hfile⟩
    exact ⟨location ++ above, data, below_append_iff.mpr hbelow, hfile⟩

theorem canPut_under_iff :
    contents.CanPut (location ++ path) ↔ (contents.under location).CanPut path := by
  unfold CanPut
  rw [fileAbove_under_iff h]
  rfl

theorem canPutDirectory_under_iff :
    contents.CanPutDirectory (location ++ path) ↔
      (contents.under location).CanPutDirectory path := by
  unfold CanPutDirectory
  rw [fileAbove_under_iff h]
  rfl

end under

end Contents

end LakeStore
