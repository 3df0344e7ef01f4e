import LakeStore.Path.Host
import LakeStore.Proofs.Path.Canonical
import Mathlib.Data.List.Induction

/-!
Laws of host paths that have names put behind them, as text and by their components. The paths above
such a path are the base with fewer names, and then the paths above the base.
-/

namespace LakeStore

theorem append_slashed_of_splitSlashes {text first : List Char} {rest : List (List Char)}
    (h : splitSlashes text = first :: rest) :
    text = first ++ rest.flatMap ('/' :: ·) := by
  induction text generalizing first rest with
  | nil =>
    cases h
    rfl
  | cons c text ih =>
    unfold splitSlashes at h
    split at h
    . next hslash =>
      cases h
      cases hsplit : splitSlashes text with
      | nil => exact absurd hsplit (splitSlashes_ne_nil text)
      | cons piece pieces =>
        rw [hslash, List.nil_append, List.flatMap_cons, List.cons_append, ← ih hsplit]
    . cases hsplit : splitSlashes text with
      | nil => exact absurd hsplit (splitSlashes_ne_nil text)
      | cons piece pieces =>
        rw [hsplit] at h
        cases h
        rw [List.cons_append, ← ih hsplit]

theorem toList_slashed (names : List String) :
    (slashed names).toList = (names.map String.toList).flatMap ('/' :: ·) := by
  induction names with
  | nil => simp [slashed]
  | cons name rest ih => simp [slashed, ih]

theorem append_slashed_of_pieces {text first : String} {rest : List String}
    (h : pieces text = first :: rest) : text = first ++ slashed rest := by
  unfold pieces at h
  rw [List.map_eq_cons_iff] at h
  obtain ⟨characters, others, hsplit, rfl, rfl⟩ := h
  rw [← String.toList_inj, append_slashed_of_splitSlashes hsplit]
  simp [toList_slashed, Function.comp_def]

theorem pieces_ne_nil (text : String) : pieces text ≠ [] := by
  simp [pieces, splitSlashes_ne_nil]

namespace HostPath

variable {base name : String} {path : StorePath}

theorem exists_of_endsInSlash (h : endsInSlash base) : ∃ before, base = before ++ "/" := by
  unfold endsInSlash at h
  rw [decide_eq_true_eq, List.getLast?_eq_some_iff] at h
  obtain ⟨before, h⟩ := h
  refine ⟨String.ofList before, ?_⟩
  rw [← String.toList_inj, h]
  simp

theorem isAbsolute_of_isName (h : IsName name) : isAbsolute name = false := by
  unfold isAbsolute
  rw [decide_eq_false_iff_not]
  intro hhead
  exact h.noSlash (List.mem_of_mem_head? hhead)

theorem join_of_isName (hbase : base ≠ "") (h : IsName name) :
    join base name = if endsInSlash base then base ++ name else base ++ "/" ++ name := by
  unfold join
  rw [isAbsolute_of_isName h, if_neg (by simp [hbase])]

theorem exists_join_eq (hbase : base ≠ "") (h : IsName name) :
    ∃ before, join base name = before ++ "/" ++ name ∧
      (base = before ++ "/" ∨ base = before ∧ endsInSlash base = false) := by
  rw [join_of_isName hbase h]
  split
  . next hslash =>
    obtain ⟨before, rfl⟩ := exists_of_endsInSlash hslash
    exact ⟨before, rfl, .inl rfl⟩
  . next hslash => exact ⟨base, rfl, .inr ⟨rfl, by simpa using hslash⟩⟩

theorem names_join (hbase : base ≠ "") (h : IsName name) :
    names (join base name) = names base ++ [name] := by
  obtain ⟨before, heq, hbefore⟩ := exists_join_eq hbase h
  rw [heq, names_append_slash, names_of_isName h]
  cases hbefore with
  | inl hslash =>
    have hempty : names (before ++ "/" ++ "") = names before ++ names "" :=
      names_append_slash before ""
    rw [String.append_empty] at hempty
    have hnone : names "" = [] := rfl
    rw [hslash, hempty, hnone, List.append_nil]
  | inr hsame => rw [hsame.1]

theorem join_ne_empty (hbase : base ≠ "") (h : IsName name) : join base name ≠ "" := by
  obtain ⟨before, heq, _⟩ := exists_join_eq hbase h
  rw [heq]
  simp

theorem isAbsolute_join (hbase : base ≠ "") (h : IsName name) :
    isAbsolute (join base name) = isAbsolute base := by
  rw [join_of_isName hbase h]
  have hne : base.toList ≠ [] := by simpa using hbase
  obtain ⟨first, rest, hcons⟩ := List.exists_cons_of_ne_nil hne
  unfold isAbsolute
  split
  all_goals simp [hcons]

theorem endsInSlash_join (hbase : base ≠ "") (h : IsName name) :
    endsInSlash (join base name) = false := by
  obtain ⟨before, heq, _⟩ := exists_join_eq hbase h
  have hne : name.toList ≠ [] := by simpa using h.nonempty
  have hlast : name.toList.getLast? = some (name.toList.getLast hne) :=
    List.getLast?_eq_some_getLast hne
  unfold endsInSlash
  rw [decide_eq_false_iff_not, heq, String.toList_append, List.getLast?_append, hlast]
  intro hslash
  rw [Option.some_or, Option.some_inj] at hslash
  apply h.noSlash
  rw [← hslash]
  exact List.getLast_mem hne

theorem below_concat (base : String) (path : StorePath) (name : String) :
    below base (path ++ [name]) = join (below base path) name := by
  unfold below
  rw [List.foldl_append]
  rfl

theorem below_below (base : String) (path rest : StorePath) :
    below (below base path) rest = below base (path ++ rest) := by
  unfold below
  rw [List.foldl_append]

theorem below_ne_empty (hbase : base ≠ "") (h : path.Canonical) : below base path ≠ "" := by
  induction path using List.reverseRecOn with
  | nil => exact hbase
  | append_singleton path name ih =>
    rw [StorePath.canonical_append, StorePath.canonical_singleton] at h
    rw [below_concat]
    exact join_ne_empty (ih h.1) h.2

theorem names_below (hbase : base ≠ "") (h : path.Canonical) :
    names (below base path) = names base ++ path := by
  induction path using List.reverseRecOn with
  | nil => simp [below]
  | append_singleton path name ih =>
    rw [StorePath.canonical_append, StorePath.canonical_singleton] at h
    rw [below_concat, names_join (below_ne_empty hbase h.1) h.2, ih h.1, List.append_assoc]

theorem isAbsolute_below (hbase : base ≠ "") (h : path.Canonical) :
    isAbsolute (below base path) = isAbsolute base := by
  induction path using List.reverseRecOn with
  | nil => rfl
  | append_singleton path name ih =>
    rw [StorePath.canonical_append, StorePath.canonical_singleton] at h
    rw [below_concat, isAbsolute_join (below_ne_empty hbase h.1) h.2, ih h.1]

theorem endsInSlash_below (hbase : base ≠ "") (h : path.Canonical) (hne : path ≠ []) :
    endsInSlash (below base path) = false := by
  cases path using List.reverseRecOn with
  | nil => exact absurd rfl hne
  | append_singleton path name =>
    rw [StorePath.canonical_append, StorePath.canonical_singleton] at h
    rw [below_concat, endsInSlash_join (below_ne_empty hbase h.1) h.2]

end HostPath

end LakeStore
