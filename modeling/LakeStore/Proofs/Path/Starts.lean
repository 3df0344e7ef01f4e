import LakeStore.Proofs.Path.Parents
import Mathlib.Data.List.Chain

/-!
The paths above a host path lead to one another, whatever slashes and `.` are in its text: each is
the one above it and one more name, and is a path of its own.
-/

namespace LakeStore.HostPath

structure Leads (above text : String) : Prop where
  nonempty : above ≠ ""
  longer : ∃ rest, text = above ++ rest
  nextName : ∃ dots name,
    names text = names above ++ (dots ++ [name]) ∧ (∀ part ∈ dots, part = ".") ∧ name ≠ "."

theorem go_leads {before above : String} {parts dots : List String}
    (hparts : ∀ part ∈ parts, '/' ∉ part.toList) (habove : above ≠ "")
    (htext : ∃ rest, before ++ "/" = above ++ rest) (hnames : names before = names above ++ dots)
    (hdots : ∀ part ∈ dots, part = ".") :
    List.IsChain Leads (above :: starts.go before parts) := by
  induction parts generalizing before above dots with
  | nil => exact .singleton above
  | cons part parts ih =>
    rw [List.forall_mem_cons] at hparts
    obtain ⟨rest, hrest⟩ := htext
    have hmore : before ++ "/" ++ part =
        above ++ (rest ++ part) := by rw [hrest, String.append_assoc]
    have hslash : names (before ++ "/" ++ part) = names above ++ (dots ++ names part) := by
      rw [names_append_slash, hnames, List.append_assoc]
    unfold starts.go
    dsimp only
    split
    . next hskip =>
      refine ih hparts.2 habove ⟨rest ++ part ++ "/", ?_⟩ hslash ?_
      . rw [hmore, String.append_assoc]
      . intro other hother
        rw [List.mem_append] at hother
        cases hother with
        | inl h => exact hdots other h
        | inr h =>
          rcases hskip with rfl | rfl
          . cases h
          . exact List.mem_singleton.mp h
    . next hname =>
      rw [not_or] at hname
      have hone : names part = [part] := by
        unfold names
        rw [pieces_of_notMem hparts.1]
        simp [hname.1]
      rw [List.isChain_cons_cons]
      refine ⟨⟨habove, ⟨_, hmore⟩, dots, part, ?_, hdots, hname.2⟩, ?_⟩
      . rw [hslash, hone]
      . refine ih hparts.2 ?_ ⟨"/", rfl⟩ (List.append_nil _).symm ?_
        . simp
        . simp

theorem starts_leads (text : String) : (starts text).IsChain Leads := by
  obtain ⟨first, rest, hpieces⟩ := List.exists_cons_of_ne_nil (pieces_ne_nil text)
  have hrest : ∀ part ∈ rest, '/' ∉ part.toList := by
    intro part hpart
    have hmem : part ∈ pieces text := by simp [hpieces, hpart]
    exact slash_notMem_of_mem_pieces hmem
  rw [starts_of_pieces hpieces]
  split
  . next hfirst => exact go_leads hrest hfirst ⟨"/", rfl⟩ (List.append_nil _).symm (by simp)
  . split
    . exact .nil
    . exact go_leads hrest (by simp) ⟨"", rfl⟩ (List.append_nil _).symm (by simp)

theorem exists_go_of_mem {before text : String} {parts above rest : List String}
    (h : starts.go before parts = above ++ text :: rest) :
    ∃ kept, kept <+: parts ∧ text = before ++ slashed kept ∧ kept ≠ [] ∧
      starts.go before kept = above ++ [text] := by
  induction parts generalizing before above with
  | nil => simp [starts.go] at h
  | cons part parts ih =>
    have hslashed : ∀ kept,
        before ++ "/" ++ part ++ slashed kept = before ++ slashed (part :: kept) := by
      intro kept
      simp [slashed, String.append_assoc]
    unfold starts.go at h
    dsimp only at h
    split at h
    . next hskip =>
      obtain ⟨kept, hpre, htext, _, hgo⟩ := ih h
      refine ⟨part :: kept, List.prefix_cons_inj part |>.mpr hpre, ?_, by simp, ?_⟩
      . rw [htext, hslashed]
      . unfold starts.go
        dsimp only
        rw [if_pos hskip, hgo]
    . next hname =>
      cases above with
      | nil =>
        rw [List.nil_append, List.cons.injEq] at h
        refine ⟨[part], by simp, ?_, by simp, ?_⟩
        . rw [← hslashed, ← h.1]
          simp [slashed]
        . unfold starts.go
          dsimp only
          rw [if_neg hname, h.1]
          rfl
      | cons first above =>
        rw [List.cons_append, List.cons.injEq] at h
        obtain ⟨kept, hpre, htext, _, hgo⟩ := ih h.2
        refine ⟨part :: kept, List.prefix_cons_inj part |>.mpr hpre, ?_, by simp, ?_⟩
        . rw [htext, hslashed]
        . unfold starts.go
          dsimp only
          rw [if_neg hname, hgo, h.1]
          rfl

theorem starts_of_mem {text start : String} {above rest : List String}
    (h : starts text = above ++ start :: rest) : starts start = above ++ [start] := by
  obtain ⟨first, parts, hpieces⟩ := List.exists_cons_of_ne_nil (pieces_ne_nil text)
  have hslash : ∀ part ∈ first :: parts, '/' ∉ part.toList := by
    rw [← hpieces]
    exact fun part => slash_notMem_of_mem_pieces
  rw [List.forall_mem_cons] at hslash
  have hkept : ∀ {kept : List String},
      kept <+: parts → pieces (first ++ slashed kept) = first :: kept := by
    intro kept hpre
    rw [pieces_append_slashed first fun part hpart => hslash.2 part (hpre.subset hpart),
      pieces_of_notMem hslash.1, List.singleton_append]
  rw [starts_of_pieces hpieces] at h
  split at h
  . next hfirst =>
    cases above with
    | nil =>
      rw [List.nil_append, List.cons.injEq] at h
      rw [← h.1, starts_of_pieces (pieces_of_notMem hslash.1), if_pos hfirst]
      rfl
    | cons top above =>
      rw [List.cons_append, List.cons.injEq] at h
      obtain ⟨kept, hpre, htext, _, hgo⟩ := exists_go_of_mem h.2
      rw [htext, starts_of_pieces (hkept hpre), if_pos hfirst, hgo, htext, h.1]
      rfl
  . next hfirst =>
    rw [not_not] at hfirst
    split at h
    . simp at h
    . cases above with
      | nil =>
        rw [List.nil_append, List.cons.injEq] at h
        rw [← h.1]
        rfl
      | cons top above =>
        rw [List.cons_append, List.cons.injEq] at h
        obtain ⟨kept, hpre, htext, hne, hgo⟩ := exists_go_of_mem h.2
        rw [hfirst] at hkept
        rw [htext, starts_of_pieces (hkept hpre), if_neg (by simp), if_neg hne, hgo, htext, h.1]
        rfl

theorem exists_starts_concat {text name : String} {front : List String}
    (hslash : endsInSlash text = false) (hnames : names text = front ++ [name])
    (hname : name ≠ ".") : ∃ above, starts text = above ++ [text] := by
  obtain ⟨first, parts, hpieces⟩ := List.exists_cons_of_ne_nil (pieces_ne_nil text)
  have htext := append_slashed_of_pieces hpieces
  rw [starts_of_pieces hpieces]
  unfold names at hnames
  rw [hpieces] at hnames
  cases parts using List.reverseRecOn with
  | nil =>
    have hfirst : first ≠ "" := by
      rintro rfl
      simp at hnames
    refine ⟨[], ?_⟩
    rw [if_pos hfirst, htext]
    simp [starts.go, slashed]
  | append_singleton parts last =>
    have hlast : last ≠ "" := by
      rintro rfl
      have hend : text = first ++ slashed parts ++ "/" := by
        rw [htext, slashed_append, ← String.append_assoc]
        simp [slashed]
      rw [hend] at hslash
      simp [endsInSlash] at hslash
    have hdot : last ≠ "." := by
      have hone : [last].filter (· ≠ "") = [last] := List.filter_cons_of_pos (by simpa using hlast)
      rw [← List.cons_append, List.filter_append, hone] at hnames
      have heq := List.append_inj_right' hnames rfl
      rw [List.singleton_inj] at heq
      rw [heq]
      exact hname
    have hskip : ¬ (last = "" ∨ last = ".") := by simp [hlast, hdot]
    have hwhole : first ++ slashed parts ++ "/" ++ last = text := by
      rw [htext, slashed_append]
      simp [slashed, String.append_assoc]
    rw [go_concat, go_concat, if_neg hskip, if_neg hskip, hwhole]
    split
    . exact ⟨first :: starts.go first parts, rfl⟩
    . next hfirst =>
      rw [not_not] at hfirst
      rw [hfirst] at hwhole
      rw [if_neg (by simp), hwhole]
      exact ⟨"/" :: starts.go "" parts, rfl⟩

section

variable {text top : String} {above : List String}

theorem leads_of_starts (h : starts text = above ++ [top, text]) : Leads top text := by
  have hleads := starts_leads text
  rw [h, List.isChain_append_cons_cons] at hleads
  exact hleads.2.1

theorem Leads.isAbsolute_eq (h : Leads top text) : isAbsolute text = isAbsolute top := by
  obtain ⟨rest, htext⟩ := h.longer
  have hne : top.toList ≠ [] := by simpa using h.nonempty
  obtain ⟨first, others, hcons⟩ := List.exists_cons_of_ne_nil hne
  unfold isAbsolute
  rw [htext, String.toList_append, hcons]
  rfl

theorem length_names_of_starts (h : starts text = [text]) : (names text).length ≤ 1 := by
  obtain ⟨first, parts, hpieces⟩ := List.exists_cons_of_ne_nil (pieces_ne_nil text)
  have hfirst : first ∈ pieces text := by simp [hpieces]
  have hslash := slash_notMem_of_mem_pieces hfirst
  rw [starts_of_pieces hpieces] at h
  split at h
  . rw [List.cons.injEq] at h
    rw [← h.1]
    unfold names
    rw [pieces_of_notMem hslash]
    exact List.length_filter_le _ _
  . split at h
    . cases h
    . rw [List.cons.injEq] at h
      rw [← h.1]
      exact Nat.zero_le 1

theorem names_of_single (h : starts text = [text]) (habsolute : isAbsolute text) :
    names text = [] := by
  obtain ⟨first, parts, hpieces⟩ := List.exists_cons_of_ne_nil (pieces_ne_nil text)
  rw [starts_of_pieces hpieces] at h
  split at h
  . next hfirst =>
    -- An absolute text has nothing before its first slash.
    have hmem : first ∈ pieces text := by simp [hpieces]
    have hslash := slash_notMem_of_mem_pieces hmem
    have hne : first.toList ≠ [] := by simpa using hfirst
    obtain ⟨c, others, hcons⟩ := List.exists_cons_of_ne_nil hne
    unfold isAbsolute at habsolute
    rw [append_slashed_of_pieces hpieces, String.toList_append, hcons] at habsolute
    rw [hcons] at hslash
    simp at habsolute
    simp [habsolute] at hslash
  . split at h
    . cases h
    . rw [List.cons.injEq] at h
      rw [← h.1]
      rfl

theorem exists_concat_of_starts {front parts : List String} (h : starts text = above ++ [text])
    (hnames : names text = front ++ parts) (hparts : parts.filter (· ≠ ".") ≠ []) :
    ∃ init name, parts = init ++ [name] ∧ name ≠ "." := by
  cases parts using List.reverseRecOn with
  | nil => exact absurd rfl hparts
  | append_singleton init name =>
    refine ⟨init, name, rfl, ?_⟩
    rintro rfl
    cases above using List.reverseRecOn with
    | nil =>
      have hlength := length_names_of_starts h
      rw [hnames, List.length_append, List.length_append, List.length_singleton] at hlength
      have hinit : init = [] := by
        apply List.eq_nil_of_length_eq_zero
        omega
      rw [hinit] at hparts
      exact hparts rfl
    | append_singleton above top =>
      rw [List.append_assoc] at h
      obtain ⟨dots, last, hlast, _, hname⟩ := (leads_of_starts h).nextName
      rw [hnames, ← List.append_assoc, ← List.append_assoc] at hlast
      have heq := List.append_inj_right' hlast rfl
      rw [List.singleton_inj] at heq
      exact hname heq.symm

theorem parents_of_single (h : starts text = [text]) (hnames : names text ≠ []) :
    parents text = [""] := by
  have hstart : starts text = [] ++ [text] := h
  have hrelative : ¬ isAbsolute text := fun habsolute => hnames (names_of_single h habsolute)
  rw [parents_of_starts hstart, if_neg hrelative]
  rfl

theorem parents_of_leads (h : starts text = above ++ [top, text]) :
    parents text = top :: parents top := by
  have htop : starts top = above ++ [top] := starts_of_mem h
  have htext : starts text = (above ++ [top]) ++ [text] := by rw [h, List.append_assoc]; rfl
  rw [parents_of_starts htext, parents_of_starts htop, (leads_of_starts h).isAbsolute_eq,
    List.reverse_concat]
  rfl

end

end LakeStore.HostPath
