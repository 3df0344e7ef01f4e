import LakeStore.Proofs.Path.Host

/-!
Laws of the paths above a host path, and of its components. A name put behind a base adds the base
to the paths above. The base itself has a path above all of its names, which is the base up to
slashes and inner `.` at its end.
-/

namespace LakeStore.HostPath

variable {base name : String} {path : StorePath}

theorem starts_of_pieces {first : String} {rest : List String} (h : pieces base = first :: rest) :
    starts base =
      if first ≠ "" then first :: starts.go first rest
      else if rest = [] then [] else "/" :: starts.go "" rest := by
  unfold starts
  rw [h]

theorem go_concat (before : String) (parts : List String) (part : String) :
    starts.go before (parts ++ [part]) =
      if part = "" ∨ part = "." then starts.go before parts
      else starts.go before parts ++ [before ++ slashed parts ++ "/" ++ part] := by
  induction parts generalizing before with
  | nil => simp [starts.go, slashed]
  | cons first rest ih =>
    rw [List.cons_append]
    unfold starts.go
    have htext : before ++ "/" ++ first ++ slashed rest = before ++ slashed (first :: rest) := by
      simp [slashed, String.append_assoc]
    dsimp only
    rw [ih, htext]
    by_cases hfirst : first = "" ∨ first = "."
    . rw [if_pos hfirst, if_pos hfirst]
    . rw [if_neg hfirst, if_neg hfirst]
      split
      . rfl
      . rw [List.cons_append]

theorem starts_join (hbase : base ≠ "") (h : IsName name) :
    starts (join base name) = starts base ++ [join base name] := by
  obtain ⟨before, heq, hbefore⟩ := exists_join_eq hbase h
  obtain ⟨first, rest, hpieces⟩ := List.exists_cons_of_ne_nil (pieces_ne_nil before)
  have hname : ¬ (name = "" ∨ name = ".") := by simp [h.nonempty, h.notDot]
  have hjoin : pieces (join base name) = first :: (rest ++ [name]) := by
    rw [heq, pieces_append_slash, hpieces, pieces_of_notMem h.noSlash]
    rfl
  have htext : first ++ slashed rest ++ "/" ++ name = join base name := by
    rw [heq, append_slashed_of_pieces hpieces]
  rw [starts_of_pieces hjoin]
  -- A slash at the end of the base is a last piece that is empty, which starts nothing.
  have hstarts : starts base = if first ≠ "" then first :: starts.go first rest
      else "/" :: starts.go "" rest := by
    cases hbefore with
    | inl hslash =>
      have hempty : pieces base = first :: (rest ++ [""]) := by
        have := pieces_append_slash before ""
        rw [String.append_empty] at this
        rw [hslash, this, hpieces]
        rfl
      rw [starts_of_pieces hempty, go_concat, go_concat]
      simp
    | inr hsame =>
      rw [← hsame.1] at hpieces
      have hrest : first = "" → rest ≠ [] := by
        rintro rfl rfl
        exact hbase (append_slashed_of_pieces hpieces)
      rw [starts_of_pieces hpieces]
      split
      . rfl
      . next hfirst => rw [if_neg (hrest (by simpa using hfirst))]
  rw [hstarts, if_neg (by simp : rest ++ [name] ≠ []), go_concat, go_concat, if_neg hname]
  split
  . rw [htext]
    rfl
  . next hfirst =>
    rw [not_not] at hfirst
    rw [hfirst] at htext
    rw [htext]
    rfl

theorem starts_below_concat (hbase : base ≠ "") (h : (path ++ [name]).Canonical) :
    starts (below base (path ++ [name])) = starts (below base path) ++
      [below base (path ++ [name])] := by
  rw [StorePath.canonical_append, StorePath.canonical_singleton] at h
  rw [below_concat, starts_join (below_ne_empty hbase h.1) h.2]

theorem exists_starts_below (hbase : base ≠ "") (h : path.Canonical) (hne : path ≠ []) :
    ∃ above, starts (below base path) = above ++ [below base path] := by
  cases path using List.reverseRecOn with
  | nil => exact absurd rfl hne
  | append_singleton path name => exact ⟨_, starts_below_concat hbase h⟩

theorem parents_of_starts {above : List String} {text : String}
    (h : starts text = above ++ [text]) :
    parents text = above.reverse ++ if isAbsolute text then [] else [""] := by
  unfold parents
  have hne : starts text ≠ [] := by simp [h]
  dsimp only
  rw [h, List.dropLast_concat]
  by_cases habsolute : isAbsolute text
  . rw [if_pos (.inl habsolute), if_pos habsolute, List.append_nil]
  . rw [if_neg (by simp [habsolute]), if_neg habsolute]

theorem exists_getLast_go (before : String) (parts : List String) :
    ∃ kept skipped, parts = kept ++ skipped ∧ (∀ part ∈ skipped, part = "" ∨ part = ".") ∧
      (starts.go before parts).getLast?.getD before = before ++ slashed kept ∧
      (starts.go before parts = [] ↔ kept = []) := by
  induction parts using List.reverseRecOn with
  | nil => exact ⟨[], [], rfl, by simp, by simp [starts.go, slashed], by simp [starts.go]⟩
  | append_singleton parts part ih =>
    rw [go_concat]
    by_cases hpart : part = "" ∨ part = "."
    . obtain ⟨kept, skipped, hparts, hskipped, hlast, hnil⟩ := ih
      rw [if_pos hpart]
      refine ⟨kept, skipped ++ [part], ?_, ?_, hlast, hnil⟩
      . rw [hparts, List.append_assoc]
      . intro other hother
        rw [List.mem_append, List.mem_singleton] at hother
        cases hother with
        | inl h => exact hskipped other h
        | inr h => rw [h]; exact hpart
    . rw [if_neg hpart]
      refine ⟨parts ++ [part], [], by simp, by simp, ?_, by simp⟩
      simp [slashed_append, slashed, String.append_assoc]

theorem exists_top (hbase : base ≠ "") :
    ∃ top rest dots, (starts base).getLast? = some top ∧ base = top ++ rest ∧ top ≠ "" ∧
      isAbsolute top = isAbsolute base ∧ names base = names top ++ dots ∧ ∀ part ∈ dots,
        part = "." := by
  obtain ⟨first, parts, hpieces⟩ := List.exists_cons_of_ne_nil (pieces_ne_nil base)
  obtain ⟨kept, skipped, hparts, hskipped, hlast, hnil⟩ := exists_getLast_go first parts
  have hslash : ∀ part ∈ first :: parts, '/' ∉ part.toList := by
    intro part hpart
    rw [← hpieces] at hpart
    exact slash_notMem_of_mem_pieces hpart
  have htext : base = first ++ slashed kept ++ slashed skipped := by
    rw [append_slashed_of_pieces hpieces, hparts, slashed_append, String.append_assoc]
  have hkept : ∀ part ∈ kept, '/' ∉ part.toList := by
    intro part hpart
    exact hslash part (by simp [hparts, hpart])
  have hfirst : pieces first = [first] := pieces_of_notMem (hslash first (.head _))
  have hnames : names base = names (first ++ slashed kept) ++ skipped.filter (· ≠ "") := by
    unfold names
    rw [pieces_append_slashed first hkept, hpieces, hparts, hfirst, ← List.filter_append]
    rfl
  have hdots : ∀ part ∈ skipped.filter (· ≠ ""), part = "." := by
    intro part hpart
    rw [List.mem_filter] at hpart
    exact (hskipped part hpart.1).resolve_left (by simpa using hpart.2)
  rw [starts_of_pieces hpieces]
  by_cases hempty : first = ""
  . subst hempty
    rw [if_neg (by simp)]
    have hne : parts ≠ [] := by
      rintro rfl
      exact hbase (append_slashed_of_pieces hpieces)
    have habsolute : isAbsolute base = true := by
      obtain ⟨part, others, rfl⟩ := List.exists_cons_of_ne_nil hne
      rw [append_slashed_of_pieces hpieces]
      simp [isAbsolute, slashed]
    rw [if_neg hne, habsolute]
    by_cases hkeptNil : kept = []
    . obtain ⟨part, others, rfl⟩ := List.exists_cons_of_ne_nil hne
      refine ⟨"/", part ++ slashed others, skipped.filter (· ≠ ""), ?_, ?_, by simp, rfl, ?_, hdots⟩
      . rw [hnil.mpr hkeptNil]
        rfl
      . rw [append_slashed_of_pieces hpieces]
        simp [slashed, String.append_assoc]
      . rw [hnames, hkeptNil]
        rfl
    . refine ⟨"" ++ slashed kept, slashed skipped, skipped.filter (· ≠ ""), ?_, htext, ?_, ?_,
        hnames, hdots⟩
      . have hgo : starts.go "" parts ≠ [] := fun h => hkeptNil (hnil.mp h)
        rw [← hlast, List.getLast?_cons_of_ne_nil hgo, List.getLast?_eq_some_getLast hgo]
        rfl
      . obtain ⟨part, others, rfl⟩ := List.exists_cons_of_ne_nil hkeptNil
        simp [slashed]
      . obtain ⟨part, others, rfl⟩ := List.exists_cons_of_ne_nil hkeptNil
        simp [isAbsolute, slashed]
  . rw [if_pos hempty]
    refine ⟨first ++ slashed kept, slashed skipped, skipped.filter (· ≠ ""), ?_, htext, ?_, ?_,
      hnames, hdots⟩
    . rw [← hlast, List.getLast?_cons]
    . simp [hempty]
    . have hne : first.toList ≠ [] := by simpa using hempty
      obtain ⟨c, others, hcons⟩ := List.exists_cons_of_ne_nil hne
      rw [htext]
      simp [isAbsolute, hcons]

theorem components_below (hbase : base ≠ "") (h : path.Canonical) :
    components (below base path) = components base ++ path := by
  have hfilter := h.filter_dots
  unfold components
  rw [isAbsolute_below hbase h, names_below hbase h]
  split
  . rw [List.filter_append, hfilter, List.cons_append]
  . next hrelative =>
    have hnames : names base ≠ [] := by
      intro hnil
      obtain ⟨first, parts, hpieces⟩ := List.exists_cons_of_ne_nil (pieces_ne_nil base)
      have htext := append_slashed_of_pieces hpieces
      have hfirst : first = "" := by
        have hmem : first ∉ names base := by simp [hnil]
        unfold names at hmem
        rw [hpieces] at hmem
        simpa using hmem
      subst hfirst
      cases parts with
      | nil => exact hbase htext
      | cons part others =>
        apply hrelative
        rw [htext]
        simp [isAbsolute, slashed]
    obtain ⟨first, rest, hcons⟩ := List.exists_cons_of_ne_nil hnames
    rw [hcons, List.cons_append]
    by_cases hdot : first = "."
    . subst hdot
      change "." :: (rest ++ path).filter (· ≠ ".") = "." :: rest.filter (· ≠ ".") ++ path
      rw [List.filter_append, hfilter, List.cons_append]
    . simpa [hdot] using fun name hname => (h name hname).notDot

theorem components_below_append (base : String) (h : path.Canonical) :
    components (below base path) = components base ++ path := by
  by_cases hbase : base = ""
  . subst hbase
    cases path with
    | nil => rfl
    | cons name rest =>
      rw [StorePath.canonical_cons] at h
      have hfront : components name = [name] := by
        unfold components
        rw [isAbsolute_of_isName h.1, names_of_isName h.1]
        simp [h.1.notDot]
      have hjoin : join "" name = name := by simp [join]
      change components (below (join "" name) rest) = [] ++ name :: rest
      rw [hjoin, components_below h.1.nonempty h.2, hfront]
      rfl
  . exact components_below hbase h

end LakeStore.HostPath
