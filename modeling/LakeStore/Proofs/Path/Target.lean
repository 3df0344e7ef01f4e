import LakeStore.Path.Target
import LakeStore.Proofs.Path.Host

/-!
Laws of store paths that a name is carried to: behind the text of a path it makes the text of the
path with one more name.
-/

namespace LakeStore

open StorePath

variable {path : StorePath} {name : String}

theorem HostPath.ofComponents_cons (h : IsName name) (rest : List String) :
    ofComponents (name :: rest) = name ++ slashed rest := by
  unfold ofComponents
  split
  . next heq => cases heq
  . next heq =>
    cases heq
    exact absurd (by simp) h.noSlash
  . next heq =>
    cases heq
    rfl

theorem HostPath.components_ofComponents (h : path.Canonical) :
    components (ofComponents path) = path := by
  cases path with
  | nil => rfl
  | cons first rest =>
    rw [canonical_cons] at h
    have habsolute : isAbsolute (first ++ slashed rest) = false := by
      have hne : first.toList ≠ [] := by simpa using h.1.nonempty
      obtain ⟨c, others, hcons⟩ := List.exists_cons_of_ne_nil hne
      have hfirst := isAbsolute_of_isName h.1
      unfold isAbsolute at hfirst ⊢
      rw [hcons] at hfirst
      rw [String.toList_append, hcons, List.cons_append]
      exact hfirst
    have hnames : names (first ++ slashed rest) = first :: rest := by
      rw [names_append_slashed first h.2, names_of_isName h.1, List.singleton_append]
    rw [ofComponents_cons h.1]
    unfold components
    rw [habsolute, hnames, if_neg (by simp)]
    split
    . next heq =>
      cases heq
      exact absurd rfl h.1.notDot
    . rw [List.filter_cons_of_pos (by simpa using h.1.notDot), StorePath.Canonical.filter_dots h.2]

theorem trimmed_append_name (before : String) (h : IsName name) :
    joinRemote.trimmed (before ++ name) = before ++ name := by
  have hne : name.toList ≠ [] := by simpa using h.nonempty
  have hlast : name.toList.getLast hne ≠ '/' := by
    intro heq
    apply h.noSlash
    rw [← heq]
    exact List.getLast_mem hne
  have hsplit : name.toList.reverse = name.toList.getLast hne :: name.toList.dropLast.reverse := by
    rw [← List.reverse_concat, List.dropLast_concat_getLast hne]
  unfold joinRemote.trimmed
  rw [String.toList_append, List.reverse_append, hsplit, List.cons_append,
    List.dropWhile_cons_of_neg]
  . rw [← List.cons_append, ← hsplit, ← List.reverse_append, List.reverse_reverse]
    simp
  . simpa using hlast

theorem trimmed_text (h : path.Canonical) : joinRemote.trimmed path.text = slashed path := by
  cases path using List.reverseRecOn with
  | nil => rfl
  | append_singleton path name =>
    rw [canonical_append, canonical_singleton] at h
    unfold text
    rw [rooted_concat, trimmed_append_name _ h.2, slashed_append]
    simp [slashed, String.append_assoc]

theorem joinRemote_ofComponents (h : path.Canonical) {names : StorePath}
    (hnames : names.Canonical) :
    joinRemote path.text (HostPath.ofComponents names) = (path ++ names).text := by
  unfold joinRemote
  rw [HostPath.components_ofComponents hnames, trimmed_text h, ← slashed_append]
  unfold text rooted
  by_cases hnil : path ++ names = []
  . rw [hnil]
    rfl
  . obtain ⟨first, rest, hcons⟩ := List.exists_cons_of_ne_nil hnil
    rw [hcons]
    simp [slashed]

theorem joinRemote_text (h : path.Canonical) (hname : IsName name) :
    joinRemote path.text name = (path ++ [name]).text := by
  have hone := HostPath.ofComponents_cons hname []
  unfold slashed at hone
  rw [String.append_empty] at hone
  rw [← joinRemote_ofComponents h (canonical_singleton.mpr hname), hone]

theorem HostPath.join_append (base : String) {relative : String} (hne : relative ≠ "")
    (rest : String) :
    join base (relative ++ rest) = join base relative ++ rest := by
  have habsolute : isAbsolute (relative ++ rest) = isAbsolute relative := by
    have htoList : relative.toList ≠ [] := by simpa using hne
    obtain ⟨first, others, hcons⟩ := List.exists_cons_of_ne_nil htoList
    unfold isAbsolute
    rw [String.toList_append, hcons]
    rfl
  unfold join
  rw [habsolute]
  split
  . rfl
  . split
    all_goals simp only [String.append_assoc]

theorem HostPath.below_cons {base : String} (hbase : base ≠ "") (h : IsName name) {rest : StorePath}
    (hrest : rest.Canonical) : below base (name :: rest) = join base (name ++ slashed rest) := by
  have hne : name ≠ "" := h.nonempty
  induction rest using List.reverseRecOn with
  | nil =>
    unfold slashed
    rw [String.append_empty]
    rfl
  | append_singleton rest last ih =>
    rw [canonical_append, canonical_singleton] at hrest
    have hfront : Canonical (name :: rest) := canonical_cons.mpr ⟨h, hrest.1⟩
    have hslash := endsInSlash_below hbase hfront (by simp)
    have hlast : slashed [last] = "/" ++ last := by
      unfold slashed slashed
      rw [String.append_empty]
    rw [← List.cons_append, below_concat, join_of_isName (below_ne_empty hbase hfront) hrest.2,
      hslash, ih hrest.1, slashed_append, hlast, join_append base hne, join_append base hne]
    simp only [String.append_assoc]
    rfl

theorem HostPath.below_eq_text_iff {base : String} (h : path.Canonical) :
    below base path = path.text ↔ base = "/" := by
  cases path with
  | nil => rfl
  | cons name rest =>
    have hnames := canonical_cons.mp h
    have htext : StorePath.text (name :: rest) = "/" ++ name ++ slashed rest := by
      rw [StorePath.text, rooted_of_ne_nil (by simp), slashed]
    by_cases hbase : base = ""
    . have hjoin : below base (name :: rest) = below name rest := by
        rw [hbase]
        exact congrArg (below · rest) (if_pos (.inr rfl))
      constructor
      . intro heq
        have habsolute := isAbsolute_below hnames.1.nonempty hnames.2
        rw [← hjoin, heq, htext, isAbsolute_of_isName hnames.1] at habsolute
        simp [isAbsolute] at habsolute
      . intro hroot
        rw [hbase] at hroot
        exact absurd hroot (by decide)
    . rw [htext, below_cons hbase hnames.1 hnames.2, join_append base hnames.1.nonempty,
        join_of_isName hbase hnames.1]
      rw [String.append_left_inj]
      split
      . rw [String.append_left_inj]
      . next hslash =>
        rw [String.append_left_inj]
        constructor
        . intro heq
          exact absurd ((String.append_left_inj "/").mp (heq.trans String.empty_append.symm)) hbase
        . rintro rfl
          exact absurd (by decide) hslash

theorem dropWhile_slashed (h : path.Canonical) :
    String.ofList ((slashed path).toList.dropWhile (· = '/')) = HostPath.ofComponents path := by
  cases path with
  | nil => rfl
  | cons name rest =>
    rw [canonical_cons] at h
    have hne : name.toList ≠ [] := by simpa using h.1.nonempty
    obtain ⟨first, others, hcons⟩ := List.exists_cons_of_ne_nil hne
    have hfirst : first ≠ '/' := by
      rintro rfl
      apply h.1.noSlash
      rw [hcons]
      exact .head _
    have hslash : "/".toList = ['/'] := rfl
    have hslashed : slashed (name :: rest) = "/" ++ name ++ slashed rest := rfl
    rw [HostPath.ofComponents_cons h.1, hslashed, ← String.toList_inj, String.toList_ofList]
    simp only [String.toList_append]
    rw [hslash, hcons, List.singleton_append, List.cons_append,
      List.dropWhile_cons_of_pos (by simp),
      List.cons_append, List.dropWhile_cons_of_neg (by simpa using hfirst)]

theorem HostPath.ofComponents_eq_intercalate (h : path.Canonical) :
    ofComponents path = "/".intercalate path := by
  induction path with
  | nil => rfl
  | cons name rest ih =>
    rw [canonical_cons] at h
    rw [ofComponents_cons h.1]
    cases rest with
    | nil =>
      unfold slashed
      rw [String.append_empty, String.intercalate_singleton]
    | cons next others =>
      rw [String.intercalate_cons_cons, ← ih h.2, ofComponents_cons (canonical_cons.mp h.2).1]
      simp only [slashed, String.append_assoc]

theorem HostPath.ofComponents_eq_empty_iff (h : path.Canonical) :
    ofComponents path = "" ↔ path = [] := by
  constructor
  . intro hempty
    rw [← components_ofComponents h, hempty]
    rfl
  . rintro rfl
    rfl

theorem localTarget_eq (target : String) (h : path.Canonical) {rest : StorePath}
    (hrest : rest.Canonical) :
    localTarget target path.text (path ++ rest).text =
      if HostPath.ofComponents rest = "" then target
      else HostPath.join target (HostPath.ofComponents rest) := by
  unfold localTarget
  rw [trimmed_text h]
  by_cases hnil : path ++ rest = []
  . rw [List.append_eq_nil_iff] at hnil
    obtain ⟨rfl, rfl⟩ := hnil
    rfl
  . have htext : (path ++ rest).text = slashed path ++ slashed rest := by
      unfold text
      rw [rooted_of_ne_nil hnil, slashed_append]
    dsimp only
    rw [htext, String.toList_append, if_pos (List.prefix_append _ _), List.drop_left,
      dropWhile_slashed hrest]

theorem localTarget_append {target : String} (htarget : target ≠ "") (h : path.Canonical)
    {rest : StorePath} (hrest : rest.Canonical) :
    localTarget target path.text (path ++ rest).text = HostPath.below target rest := by
  rw [localTarget_eq target h hrest]
  cases rest with
  | nil => rfl
  | cons name rest =>
    rw [if_neg (by simp [HostPath.ofComponents_eq_empty_iff hrest])]
    rw [canonical_cons] at hrest
    rw [HostPath.ofComponents_cons hrest.1, HostPath.below_cons htarget hrest.1 hrest.2]

end LakeStore
