import LakeStore.Path.Basic

/-!
This module contains the laws of texts that are taken apart at their slashes, and the texts that can
be the name of an entry. Putting names behind a text and taking it apart again gives the names back.
-/

namespace LakeStore

/-- The texts that can be the name of an entry: one piece of a path, and no dot segment. -/
structure IsName (name : String) : Prop where
  nonempty : name ≠ ""
  noSlash : '/' ∉ name.toList
  notDot : name ≠ "."
  notDotDot : name ≠ ".."

theorem isName_iff (name : String) :
    IsName name ↔ name ≠ "" ∧ '/' ∉ name.toList ∧ name ≠ "." ∧ name ≠ ".." := by
  constructor
  . intro h
    exact ⟨h.nonempty, h.noSlash, h.notDot, h.notDotDot⟩
  . rintro ⟨h1, h2, h3, h4⟩
    exact ⟨h1, h2, h3, h4⟩

instance (name : String) : Decidable (IsName name) :=
  decidable_of_iff _ (isName_iff name).symm

namespace StorePath

/-- The paths that a store keeps entries under. -/
def Canonical (path : StorePath) : Prop :=
  ∀ name ∈ path, IsName name

instance (path : StorePath) : Decidable path.Canonical :=
  inferInstanceAs (Decidable (∀ name ∈ path, IsName name))

theorem canonical_nil : Canonical [] := by
  intro name h
  cases h

theorem canonical_append {path rest : StorePath} :
    Canonical (path ++ rest) ↔ Canonical path ∧ Canonical rest := by
  simp only [Canonical, List.mem_append]
  constructor
  . intro h
    exact ⟨fun name hname => h name (.inl hname), fun name hname => h name (.inr hname)⟩
  . rintro ⟨hpath, hrest⟩ name (hname | hname)
    . exact hpath name hname
    . exact hrest name hname

theorem canonical_singleton {name : String} : Canonical [name] ↔ IsName name := by
  simp [Canonical]

theorem canonical_cons {name : String} {path : StorePath} :
    Canonical (name :: path) ↔ IsName name ∧ Canonical path := by
  simp [Canonical]

theorem Canonical.of_prefix {above path : StorePath} (h : Canonical path) (hpre : above <+: path) :
    Canonical above := by
  intro name hname
  exact h name (hpre.subset hname)

end StorePath

theorem splitSlashes_ne_nil (text : List Char) : splitSlashes text ≠ [] := by
  fun_cases splitSlashes text
  all_goals simp_all

theorem splitSlashes_append_slash (before after : List Char) :
    splitSlashes (before ++ '/' :: after) = splitSlashes before ++ splitSlashes after := by
  induction before with
  | nil => simp [splitSlashes]
  | cons c rest ih =>
    simp only [List.cons_append, splitSlashes]
    split
    . rw [ih, List.cons_append]
    . rw [ih]
      -- The text before the slash has a first piece, which takes the character `c`.
      cases h : splitSlashes rest with
      | nil => exact absurd h (splitSlashes_ne_nil rest)
      | cons piece pieces => rw [List.cons_append, List.cons_append]

theorem splitSlashes_of_notMem {text : List Char} (h : '/' ∉ text) :
    splitSlashes text = [text] := by
  induction text with
  | nil => rfl
  | cons c rest ih =>
    rw [List.mem_cons, not_or] at h
    unfold splitSlashes
    rw [if_neg (Ne.symm h.1), ih h.2]

theorem slash_notMem_of_mem_splitSlashes {text piece : List Char} (h : piece ∈ splitSlashes text) :
    '/' ∉ piece := by
  induction text generalizing piece with
  | nil =>
    have : piece = [] := by simpa [splitSlashes] using h
    simp [this]
  | cons c rest ih =>
    unfold splitSlashes at h
    split at h
    . cases h with
      | head => exact List.not_mem_nil
      | tail _ h => exact ih h
    . next hc =>
      split at h
      . next hnil => exact absurd hnil (splitSlashes_ne_nil rest)
      . next first pieces heq =>
        rw [heq] at ih
        cases h with
        | head =>
          rw [List.mem_cons, not_or]
          exact ⟨Ne.symm hc, ih (.head _)⟩
        | tail _ h => exact ih (.tail _ h)

theorem pieces_append_slash (before after : String) :
    pieces (before ++ "/" ++ after) = pieces before ++ pieces after := by
  unfold pieces
  rw [← List.map_append, ← splitSlashes_append_slash]
  simp

theorem pieces_of_notMem {text : String} (h : '/' ∉ text.toList) : pieces text = [text] := by
  unfold pieces
  rw [splitSlashes_of_notMem h]
  simp

theorem slash_notMem_of_mem_pieces {text piece : String} (h : piece ∈ pieces text) :
    '/' ∉ piece.toList := by
  obtain ⟨characters, hmem, rfl⟩ := List.mem_map.mp h
  rw [String.toList_ofList]
  exact slash_notMem_of_mem_splitSlashes hmem

theorem pieces_append_slashed (text : String) {names : List String}
    (h : ∀ name ∈ names, '/' ∉ name.toList) :
    pieces (text ++ slashed names) = pieces text ++ names := by
  induction names generalizing text with
  | nil => simp [slashed]
  | cons name rest ih =>
    rw [List.forall_mem_cons] at h
    unfold slashed
    rw [← String.append_assoc, ← String.append_assoc, ih _ h.2, pieces_append_slash,
      pieces_of_notMem h.1, List.append_assoc]
    rfl

theorem names_append_slash (before after : String) :
    names (before ++ "/" ++ after) = names before ++ names after := by
  unfold names
  rw [pieces_append_slash, List.filter_append]

theorem names_append_slashed (text : String) {path : StorePath} (h : path.Canonical) :
    names (text ++ slashed path) = names text ++ path := by
  unfold names
  rw [pieces_append_slashed text fun name hname => (h name hname).noSlash, List.filter_append]
  congr 1
  rw [List.filter_eq_self]
  intro name hname
  simpa using (h name hname).nonempty

theorem names_of_isName {name : String} (h : IsName name) : names name = [name] := by
  unfold names
  rw [pieces_of_notMem h.noSlash]
  simp [h.nonempty]

theorem slashed_append (path rest : List String) :
    slashed (path ++ rest) = slashed path ++ slashed rest := by
  induction path with
  | nil => simp [slashed]
  | cons name path ih => simp [slashed, ih, String.append_assoc]

theorem rooted_of_ne_nil {path : List String} (h : path ≠ []) : rooted path = slashed path := by
  unfold rooted
  rw [if_neg h]

theorem names_slashed {path : List String} (h : ∀ name ∈ path, '/' ∉ name.toList) :
    names (slashed path) = path.filter (· ≠ "") := by
  have hpieces := pieces_append_slashed "" h
  rw [String.empty_append] at hpieces
  unfold names
  rw [hpieces]
  rfl

theorem names_rooted {path : List String} (h : ∀ name ∈ path, '/' ∉ name.toList) :
    names (rooted path) = path.filter (· ≠ "") := by
  cases path with
  | nil => rfl
  | cons first rest => exact names_slashed h

theorem StorePath.names_text {path : StorePath} (h : path.Canonical) : names path.text = path := by
  unfold StorePath.text
  rw [names_rooted fun name hname => (h name hname).noSlash, List.filter_eq_self]
  intro name hname
  simpa using (h name hname).nonempty

theorem rooted_append_cons (path : List String) (name : String) (rest : List String) :
    rooted (path ++ name :: rest) = slashed path ++ "/" ++ (name ++ slashed rest) := by
  rw [rooted_of_ne_nil (by simp), slashed_append]
  simp [slashed, String.append_assoc]

theorem rooted_concat (path : List String) (name : String) :
    rooted (path ++ [name]) = slashed path ++ "/" ++ name := by
  rw [rooted_append_cons]
  simp [slashed]

end LakeStore
