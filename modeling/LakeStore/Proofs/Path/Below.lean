import LakeStore.Proofs.Path.Canonical

/-!
Laws of paths below one another, and of the directories above a path.
-/

namespace LakeStore.StorePath

theorem Below.canonical {above path : StorePath} (h : Below above path) (hpath : path.Canonical) :
    above.Canonical :=
  hpath.of_prefix h.1

theorem not_below_nil (path : StorePath) : ¬ Below path [] := by
  rintro ⟨hpre, hne⟩
  exact hne (List.prefix_nil.mp hpre)

theorem nil_below {path : StorePath} (h : path ≠ []) : Below [] path :=
  ⟨List.nil_prefix, h.symm⟩

theorem below_concat_iff {above path : StorePath} {name : String} :
    Below above (path ++ [name]) ↔ above <+: path := by
  unfold Below
  rw [List.prefix_concat_iff]
  constructor
  . rintro ⟨heq | hpre, hne⟩
    . exact absurd heq hne
    . exact hpre
  . intro hpre
    refine ⟨.inr hpre, ?_⟩
    rintro rfl
    have hle := hpre.length_le
    rw [List.length_append, List.length_singleton] at hle
    omega

theorem below_dropLast {path : StorePath} (h : path ≠ []) : Below path.dropLast path := by
  refine ⟨List.dropLast_prefix path, ?_⟩
  intro heq
  have hlength := congrArg List.length heq
  have hpos := List.length_pos_iff.mpr h
  rw [List.length_dropLast] at hlength
  omega

theorem prefix_iff_eq_or_below {above path : StorePath} :
    above <+: path ↔ above = path ∨ Below above path := by
  constructor
  . intro h
    by_cases heq : above = path
    . exact .inl heq
    . exact .inr ⟨h, heq⟩
  . rintro (rfl | h)
    . exact List.prefix_rfl
    . exact h.1

theorem prefix_or_prefix_of_append {key above path : StorePath} (h : key <+: above ++ path) :
    key <+: above ∨ above <+: key :=
  List.prefix_or_prefix_of_prefix h (List.prefix_append above path)

theorem Below.trans {a b c : StorePath} (hab : Below a b) (hbc : b <+: c) : Below a c := by
  refine ⟨hab.1.trans hbc, ?_⟩
  rintro rfl
  exact hab.2 (hab.1.eq_of_length_le hbc.length_le)

theorem Below.length_lt {above path : StorePath} (h : Below above path) :
    above.length < path.length := by
  have hle := h.1.length_le
  have hne : above.length ≠ path.length := fun heq => h.2 (h.1.eq_of_length heq)
  omega

theorem Below.not_prefix {above path : StorePath} (h : Below above path) : ¬ path <+: above := by
  intro hpre
  have hlt := h.length_lt
  have hle := hpre.length_le
  omega

theorem below_append_iff {base above path : StorePath} :
    Below (base ++ above) (base ++ path) ↔ Below above path := by
  unfold Below
  rw [List.prefix_append_right_inj, ne_eq, List.append_cancel_left_eq]

theorem below_append {base path : StorePath} (h : path ≠ []) : Below base (base ++ path) := by
  refine ⟨List.prefix_append _ _, ?_⟩
  intro heq
  exact h (by simpa using heq)

theorem mem_ancestors {path above : StorePath} :
    above ∈ path.ancestors ↔ above ≠ [] ∧ Below above path := by
  have hrange : ∀ count, count ∈ (List.range path.length).tail ↔
      0 < count ∧ count < path.length := by
    intro count
    cases path.length with
    | zero => simp
    | succ n =>
      rw [List.range_succ_eq_map, List.tail_cons, List.mem_map]
      constructor
      . rintro ⟨i, hi, rfl⟩
        rw [List.mem_range] at hi
        omega
      . rintro ⟨hpos, hlt⟩
        refine ⟨count - 1, ?_, by omega⟩
        rw [List.mem_range]
        omega
  unfold ancestors
  rw [List.mem_map]
  constructor
  . rintro ⟨count, hcount, rfl⟩
    rw [hrange] at hcount
    refine ⟨?_, List.take_prefix _ _, ?_⟩
    . rw [ne_eq, List.take_eq_nil_iff]
      rintro (h | h)
      . omega
      . simp [h] at hcount
    . intro h
      have := congrArg List.length h
      rw [List.length_take] at this
      omega
  . rintro ⟨hne, hbelow⟩
    refine ⟨above.length, ?_, ?_⟩
    . rw [hrange]
      exact ⟨List.length_pos_iff.mpr hne, hbelow.length_lt⟩
    . exact (List.prefix_iff_eq_take.mp hbelow.1).symm

end LakeStore.StorePath
