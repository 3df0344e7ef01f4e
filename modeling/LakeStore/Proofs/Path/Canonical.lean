import LakeStore.Proofs.Path.Text

/-!
Laws of reading a path. A path without dot segments reads as itself, so that reading a second time
changes nothing, and a canonical path is told by its text.
-/

namespace LakeStore

/-- The paths that resolving dot segments leads to: only the first name cannot be empty. -/
structure Resolved (path : List String) : Prop where
  noSlash : ∀ name ∈ path, '/' ∉ name.toList
  notDot : ∀ name ∈ path, name ≠ "."
  notDotDot : ∀ name ∈ path, name ≠ ".."
  head : path.head? ≠ some ""

theorem resolved_nil : Resolved [] := by
  constructor <;> simp

theorem Resolved.dropLast {path : List String} (h : Resolved path) : Resolved path.dropLast := by
  have hsubset := List.dropLast_subset path
  refine ⟨?_, ?_, ?_, ?_⟩
  . exact fun name hname => h.noSlash name (hsubset hname)
  . exact fun name hname => h.notDot name (hsubset hname)
  . exact fun name hname => h.notDotDot name (hsubset hname)
  . intro hhead
    apply h.head
    rw [List.head?_dropLast] at hhead
    split at hhead
    . exact hhead
    . cases hhead

theorem Resolved.concat {path : List String} {piece : String} (h : Resolved path)
    (hslash : '/' ∉ piece.toList) (hdot : piece ≠ ".") (hdots : piece ≠ "..")
    (hempty : ¬ (piece = "" ∧ path = [])) : Resolved (path ++ [piece]) := by
  refine ⟨?_, ?_, ?_, ?_⟩
  . simpa [or_imp, forall_and] using ⟨h.noSlash, hslash⟩
  . simpa [or_imp, forall_and] using ⟨h.notDot, hdot⟩
  . simpa [or_imp, forall_and] using ⟨h.notDotDot, hdots⟩
  . cases path with
    | nil => simpa using hempty
    | cons first rest => simpa using h.head

theorem Resolved.enter {path : List String} {piece : String} (h : Resolved path)
    (hslash : '/' ∉ piece.toList) : Resolved (enter path piece) := by
  unfold LakeStore.enter
  split
  . exact h
  . split
    . exact h.dropLast
    . split
      . exact h
      . next hdot hdots hempty => exact h.concat hslash hdot hdots hempty

theorem Resolved.foldl_enter {path : List String} (h : Resolved path) {pieces : List String}
    (hpieces : ∀ piece ∈ pieces, '/' ∉ piece.toList) :
    Resolved (pieces.foldl LakeStore.enter path) := by
  induction pieces generalizing path with
  | nil => exact h
  | cons piece rest ih =>
    rw [List.forall_mem_cons] at hpieces
    rw [List.foldl_cons]
    apply ih
    . exact h.enter hpieces.1
    . exact hpieces.2

theorem resolveDots_resolved (text : String) : Resolved (resolveDots text) := by
  unfold resolveDots
  apply resolved_nil.foldl_enter
  intro piece hpiece
  exact slash_notMem_of_mem_pieces hpiece

theorem foldl_enter_of_resolved {path rest : List String} (h : Resolved (path ++ rest)) :
    rest.foldl enter path = path ++ rest := by
  induction rest generalizing path with
  | nil => simp
  | cons name rest ih =>
    have hmem : name ∈ path ++ name :: rest := by simp
    have hempty : ¬ (name = "" ∧ path = []) := by
      rintro ⟨rfl, rfl⟩
      exact h.head rfl
    have henter : enter path name = path ++ [name] := by
      unfold enter
      rw [if_neg (h.notDot name hmem), if_neg (h.notDotDot name hmem), if_neg hempty]
    rw [List.foldl_cons, henter, ih]
    . simp
    . simpa using h

theorem resolveDots_rooted {path : List String} (h : Resolved path) :
    resolveDots (rooted path) = path := by
  by_cases hnil : path = []
  . subst hnil
    rfl
  . have hpieces : pieces (rooted path) = "" :: path := by
      rw [rooted_of_ne_nil hnil, ← String.empty_append (s := slashed path)]
      rw [pieces_append_slashed "" h.noSlash]
      rfl
    unfold resolveDots
    rw [hpieces, List.foldl_cons]
    exact foldl_enter_of_resolved h

theorem absolutePath_absolutePath (text : String) :
    absolutePath (absolutePath text) = absolutePath text := by
  unfold absolutePath
  rw [resolveDots_rooted (resolveDots_resolved text)]

namespace StorePath

theorem ofString_canonical (text : String) : (ofString text).Canonical := by
  intro name hname
  unfold ofString at hname
  rw [List.mem_filter] at hname
  have hresolved := resolveDots_resolved text
  refine ⟨?_, ?_, ?_, ?_⟩
  . simpa using hname.2
  . exact hresolved.noSlash name hname.1
  . exact hresolved.notDot name hname.1
  . exact hresolved.notDotDot name hname.1

theorem Canonical.filter_dots {path : StorePath} (h : path.Canonical) :
    path.filter (· ≠ ".") = path := by
  rw [List.filter_eq_self]
  intro name hname
  simpa using (h name hname).notDot

theorem Canonical.resolved {path : StorePath} (h : path.Canonical) : Resolved path := by
  refine ⟨?_, ?_, ?_, ?_⟩
  . exact fun name hname => (h name hname).noSlash
  . exact fun name hname => (h name hname).notDot
  . exact fun name hname => (h name hname).notDotDot
  . intro hhead
    exact (h "" (List.mem_of_mem_head? hhead)).nonempty rfl

theorem ofString_text {path : StorePath} (h : path.Canonical) : ofString path.text = path := by
  unfold ofString text
  rw [resolveDots_rooted h.resolved, List.filter_eq_self]
  intro name hname
  simpa using (h name hname).nonempty

theorem eq_of_text_eq {path other : StorePath} (hpath : path.Canonical) (hother : other.Canonical)
    (h : path.text = other.text) : path = other := by
  rw [← ofString_text hpath, h, ofString_text hother]

theorem normalize_text {path : StorePath} (h : path.Canonical) :
    normalize path.text = path.text := by
  unfold normalize
  rw [ofString_text h]

theorem absolutePath_text {path : StorePath} (h : path.Canonical) :
    absolutePath path.text = path.text := by
  unfold absolutePath text
  rw [resolveDots_rooted h.resolved]

theorem ofString_eq_iff (text other : String) :
    ofString text = ofString other ↔ normalize text = normalize other := by
  constructor
  . exact congrArg StorePath.text
  . exact eq_of_text_eq (ofString_canonical text) (ofString_canonical other)

theorem ofString_eq_nil_iff (text : String) : ofString text = [] ↔ normalize text = "/" := by
  constructor
  . exact congrArg StorePath.text
  . exact eq_of_text_eq (ofString_canonical text) canonical_nil

theorem ofString_normalize (text : String) : ofString (normalize text) = ofString text :=
  ofString_text (ofString_canonical text)

end StorePath

end LakeStore
