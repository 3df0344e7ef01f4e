import LakeStore.Proofs.Path.Host

/-!
Dot segments are removed from the text of a path by a loop that rewrites the text. `absolutePath`
resolves them in the same way: both lead to the same path, up to slashes in front of it and the
slash that the loop leaves behind a dot segment at the end.
-/

namespace LakeStore

def firstSegment : List Char → List Char
  | [] => []
  | c :: rest => c :: rest.takeWhile (· ≠ '/')

def withoutLastSegment (path : List Char) : List Char :=
  ((path.reverse.dropWhile (· ≠ '/')).drop 1).reverse

theorem length_firstSegment_pos {path : List Char} (h : path ≠ []) :
    0 < (firstSegment path).length := by
  unfold firstSegment
  split
  . exact absurd rfl h
  . simp

/--
The loop of RFC 3986, section 5.2.4: each turn takes something from the front of the input, and may
put the first segment behind the output or take the last one from there.
-/
def removeDotSegments (path : String) : String :=
  String.ofList (go path.toList [])
where
  go (input output : List Char) : List Char :=
    if input = [] then
      output
    else if "../".toList <+: input then
      go (input.drop 3) output
    else if "./".toList <+: input then
      go (input.drop 2) output
    else if "/./".toList <+: input then
      go ('/' :: input.drop 3) output
    else if input = "/.".toList then
      go ['/'] output
    else if "/../".toList <+: input then
      go ('/' :: input.drop 4) (withoutLastSegment output)
    else if input = "/..".toList then
      go ['/'] (withoutLastSegment output)
    else if input = ".".toList ∨ input = "..".toList then
      go [] output
    else
      go (input.drop (firstSegment input).length) (output ++ firstSegment input)
  termination_by input.length
  decreasing_by
    all_goals simp only [List.length_cons, List.length_drop, List.length_nil]
    . next h =>
      have hle : 3 ≤ input.length := h.length_le
      omega
    . next h =>
      have hle : 2 ≤ input.length := h.length_le
      omega
    . next h =>
      have hle : 3 ≤ input.length := h.length_le
      omega
    . next h =>
      rw [h]
      decide
    . next h =>
      have hle : 4 ≤ input.length := h.length_le
      omega
    . next h =>
      rw [h]
      decide
    . next hne _ _ _ _ _ _ _ => exact List.length_pos_iff.mpr hne
    . next hne _ _ _ _ _ _ _ =>
      have hfirst := length_firstSegment_pos hne
      have hinput := List.length_pos_iff.mpr hne
      omega

namespace removeDotSegments

def push (output : List String) (segment : String) : List String :=
  if segment = "." then
    output
  else if segment = ".." then
    output.dropLast
  else
    output ++ [segment]

def EndsInDots (segments : List String) : Prop :=
  segments.getLast? = some "." ∨ segments.getLast? = some ".."

instance (segments : List String) : Decidable (EndsInDots segments) :=
  inferInstanceAs (Decidable (_ ∨ _))

variable {segment : String} {segments : List String}

theorem ne_slash_of_notMem {text : List Char} (h : '/' ∉ text) :
    ∀ c ∈ text, decide (c ≠ '/') = true := by
  intro c hc
  rw [decide_eq_true_eq]
  rintro rfl
  exact h hc

theorem toList_slashed_cons (segment : String) (segments : List String) :
    (slashed (segment :: segments)).toList =
      '/' :: (segment.toList ++ (slashed segments).toList) := by
  simp [slashed]

theorem toList_slashed_concat (output : List String) (segment : String) :
    (slashed (output ++ [segment])).toList = (slashed output).toList ++ '/' :: segment.toList := by
  rw [slashed_append]
  simp [slashed]

theorem exists_toList_slashed (h : segments ≠ []) :
    ∃ rest, (slashed segments).toList = '/' :: rest := by
  obtain ⟨first, others, rfl⟩ := List.exists_cons_of_ne_nil h
  exact ⟨_, toList_slashed_cons first others⟩

theorem withoutLastSegment_slashed (h : ∀ name ∈ segments, '/' ∉ name.toList) :
    withoutLastSegment (slashed segments).toList = (slashed segments.dropLast).toList := by
  cases segments using List.reverseRecOn with
  | nil => rfl
  | append_singleton front last =>
    have hlast : '/' ∉ last.toList.reverse := by simpa using h last (by simp)
    unfold withoutLastSegment
    rw [toList_slashed_concat, List.reverse_append, List.reverse_cons, List.append_assoc,
      List.dropWhile_append_of_pos (ne_slash_of_notMem hlast)]
    simp

theorem takeWhile_append_slashed (h : '/' ∉ segment.toList) (segments : List String) :
    (segment.toList ++ (slashed segments).toList).takeWhile (· ≠ '/') = segment.toList := by
  rw [List.takeWhile_append_of_pos (ne_slash_of_notMem h)]
  cases segments with
  | nil => simp [slashed]
  | cons first others => simp [toList_slashed_cons]

theorem prefix_slashed_iff (h : '/' ∉ segment.toList) (segments : List String) {mark : List Char}
    (hmark : '/' ∉ mark) :
    '/' :: (mark ++ ['/']) <+: (slashed (segment :: segments)).toList ↔
      segment.toList = mark ∧ segments ≠ [] := by
  rw [toList_slashed_cons, List.cons_prefix_cons]
  constructor
  . rintro ⟨_, rest, hrest⟩
    have htake := takeWhile_append_slashed h segments
    rw [← hrest, List.append_assoc,
      List.takeWhile_append_of_pos (ne_slash_of_notMem hmark)] at htake
    have hsegment : segment.toList = mark := by simpa using htake.symm
    refine ⟨hsegment, ?_⟩
    rintro rfl
    simp [hsegment, slashed] at hrest
  . rintro ⟨rfl, hne⟩
    obtain ⟨rest, hrest⟩ := exists_toList_slashed hne
    refine ⟨rfl, rest, ?_⟩
    rw [hrest, List.append_assoc]
    rfl

theorem slashed_eq_iff (segments : List String) {mark : List Char}
    (hmark : '/' ∉ mark) :
    (slashed (segment :: segments)).toList = '/' :: mark ↔
      segment.toList = mark ∧ segments = [] := by
  rw [toList_slashed_cons, List.cons.injEq]
  constructor
  . rintro ⟨_, heq⟩
    have hnil : segments = [] := by
      by_contra hne
      obtain ⟨rest, hrest⟩ := exists_toList_slashed hne
      apply hmark
      rw [← heq, hrest]
      simp
    subst hnil
    refine ⟨?_, rfl⟩
    simpa [slashed] using heq
  . rintro ⟨rfl, rfl⟩
    simp [slashed]

theorem firstSegment_slashed (h : '/' ∉ segment.toList) (segments : List String) :
    firstSegment (slashed (segment :: segments)).toList = '/' :: segment.toList := by
  rw [toList_slashed_cons, firstSegment, takeWhile_append_slashed h segments]

theorem go_slashed_cons (h : '/' ∉ segment.toList) (segments : List String) (output : List Char) :
    go (slashed (segment :: segments)).toList output =
      if segment = "." then
        go (if segments = [] then ['/'] else (slashed segments).toList) output
      else if segment = ".." then
        go (if segments = [] then ['/'] else (slashed segments).toList) (withoutLastSegment output)
      else
        go (slashed segments).toList (output ++ '/' :: segment.toList) := by
  have hone : segment.toList = ['.'] ↔ segment = "." := by
    rw [← String.toList_inj]
    rfl
  have htwo : segment.toList = ['.', '.'] ↔ segment = ".." := by
    rw [← String.toList_inj]
    rfl
  have hdot : "/./".toList <+: (slashed (segment :: segments)).toList ↔
      segment = "." ∧ segments ≠ [] := by
    rw [← hone]
    exact prefix_slashed_iff h segments (by decide : '/' ∉ ['.'])
  have hdots : "/../".toList <+: (slashed (segment :: segments)).toList ↔
      segment = ".." ∧ segments ≠ [] := by
    rw [← htwo]
    exact prefix_slashed_iff h segments (by decide : '/' ∉ ['.', '.'])
  have hdotEnd : (slashed (segment :: segments)).toList = "/.".toList ↔
      segment = "." ∧ segments = [] := by
    rw [← hone]
    exact slashed_eq_iff segments (by decide : '/' ∉ ['.'])
  have hdotsEnd : (slashed (segment :: segments)).toList = "/..".toList ↔
      segment = ".." ∧ segments = [] := by
    rw [← htwo]
    exact slashed_eq_iff segments (by decide : '/' ∉ ['.', '.'])
  have hfirst := firstSegment_slashed h segments
  have hinput := toList_slashed_cons segment segments
  rw [go]
  simp only [hdot, hdots, hdotEnd, hdotsEnd, hfirst]
  rw [hinput, if_neg (by simp), if_neg (by simp), if_neg (by simp)]
  by_cases hsegment : segment = "."
  . by_cases hnil : segments = []
    . simp [hsegment, hnil]
    . obtain ⟨rest, hrest⟩ := exists_toList_slashed hnil
      simp [hsegment, hnil, hrest]
  . by_cases hsegments : segment = ".."
    . by_cases hnil : segments = []
      . simp [hsegments, hnil]
      . obtain ⟨rest, hrest⟩ := exists_toList_slashed hnil
        simp [hsegments, hnil, hrest]
    . simp [hsegment, hsegments]

theorem go_nil (output : List Char) : go [] output = output := by
  rw [go, if_pos rfl]

theorem go_slash (output : List Char) : go ['/'] output = output ++ ['/'] := by
  have h := go_slashed_cons (by decide : '/' ∉ "".toList) [] output
  rw [if_neg (by decide), if_neg (by decide)] at h
  exact h.trans (go_nil _)

theorem slash_notMem_push {output : List String} (houtput : ∀ name ∈ output, '/' ∉ name.toList)
    (h : '/' ∉ segment.toList) : ∀ name ∈ push output segment, '/' ∉ name.toList := by
  unfold push
  split
  . exact houtput
  . split
    . exact fun name hname => houtput name (List.dropLast_subset output hname)
    . simpa [or_imp, forall_and] using ⟨houtput, h⟩

theorem go_slashed (hsegments : ∀ name ∈ segments, '/' ∉ name.toList) {output : List String}
    (houtput : ∀ name ∈ output, '/' ∉ name.toList) :
    go (slashed segments).toList (slashed output).toList =
      (slashed (segments.foldl push output ++ if EndsInDots segments then [""] else
        [])).toList := by
  induction segments generalizing output with
  | nil =>
    rw [if_neg (by simp [EndsInDots]), List.append_nil]
    exact go_nil _
  | cons segment rest ih =>
    rw [List.forall_mem_cons] at hsegments
    have hrest := ih hsegments.2 (slash_notMem_push houtput hsegments.1)
    have hwithout := withoutLastSegment_slashed houtput
    have hconcat := toList_slashed_concat output segment
    rw [go_slashed_cons hsegments.1, List.foldl_cons]
    by_cases hnil : rest = []
    . subst hnil
      simp only [if_true, List.foldl_nil, go_slash, EndsInDots, List.getLast?_singleton,
        Option.some_inj]
      unfold push
      by_cases hdot : segment = "."
      . simp [hdot, toList_slashed_concat]
      . by_cases hdots : segment = ".."
        . simp [hdots, toList_slashed_concat, hwithout]
        . simp [hdot, hdots, toList_slashed_concat, slashed, go_nil]
    . have hends : EndsInDots (segment :: rest) ↔ EndsInDots rest := by
        unfold EndsInDots
        rw [List.getLast?_cons_of_ne_nil hnil]
      simp only [hends, hnil, if_false]
      rw [← hrest]
      unfold push
      by_cases hdot : segment = "."
      . rw [if_pos hdot, if_pos hdot]
      . by_cases hdots : segment = ".."
        . rw [if_neg hdot, if_neg hdot, if_pos hdots, if_pos hdots, hwithout]
        . rw [if_neg hdot, if_neg hdot, if_neg hdots, if_neg hdots, hconcat]

theorem slashed_pieces (text : String) : "/" ++ text = slashed (pieces text) := by
  obtain ⟨first, rest, hpieces⟩ := List.exists_cons_of_ne_nil (pieces_ne_nil text)
  have htext := append_slashed_of_pieces hpieces
  rw [hpieces, slashed, htext, String.append_assoc]

def segmentsLeft (path : String) : List String :=
  (pieces path).foldl push [] ++ if EndsInDots (pieces path) then [""] else []

theorem removeDotSegments_slash (path : String) :
    removeDotSegments ("/" ++ path) = slashed (segmentsLeft path) := by
  have hpieces : ∀ piece ∈ pieces path, '/' ∉ piece.toList := fun piece =>
    slash_notMem_of_mem_pieces
  have hnone : ∀ name ∈ ([] : List String), '/' ∉ name.toList := by simp
  have hgo := go_slashed hpieces hnone
  unfold removeDotSegments
  rw [slashed_pieces, ← String.toList_inj, String.toList_ofList]
  exact hgo

example : removeDotSegments "/a/b/c/./../../g" = "/a/g" := by cbv

theorem pieces_above (path : String) : pieces ("../" ++ path) = ".." :: pieces path :=
  pieces_append_slash ".." path

theorem segmentsLeft_above (path : String) : segmentsLeft ("../" ++ path) = segmentsLeft path := by
  have hends : EndsInDots (".." :: pieces path) ↔ EndsInDots (pieces path) := by
    unfold EndsInDots
    rw [List.getLast?_cons_of_ne_nil (pieces_ne_nil path)]
  unfold segmentsLeft
  rw [pieces_above, List.foldl_cons]
  simp only [hends]
  rfl

theorem exists_push_eq (count : Nat) (path : List String) (segment : String) :
    ∃ after, push (List.replicate count "" ++ path) segment = List.replicate after "" ++
      enter path segment := by
  unfold push enter
  split
  . exact ⟨count, rfl⟩
  . split
    . cases path with
      | nil => exact ⟨count - 1, by simp⟩
      | cons first rest =>
        refine ⟨count, ?_⟩
        rw [List.dropLast_append_of_ne_nil (by simp)]
    . split
      . next hempty =>
        refine ⟨count + 1, ?_⟩
        rw [hempty.1, hempty.2, List.replicate_succ']
        simp
      . exact ⟨count, by simp⟩

theorem exists_foldl_push_eq (count : Nat) (path segments : List String) :
    ∃ after, segments.foldl push (List.replicate count "" ++ path) =
      List.replicate after "" ++ segments.foldl enter path := by
  induction segments generalizing path count with
  | nil => exact ⟨count, rfl⟩
  | cons segment rest ih =>
    obtain ⟨after, hpush⟩ := exists_push_eq count path segment
    rw [List.foldl_cons, List.foldl_cons, hpush]
    exact ih after (enter path segment)

theorem exists_segmentsLeft (path : String) :
    ∃ count, segmentsLeft path =
      List.replicate count "" ++ resolveDots path ++ if EndsInDots (pieces path) then [""] else
      [] := by
  obtain ⟨count, hcount⟩ := exists_foldl_push_eq 0 [] (pieces path)
  refine ⟨count, ?_⟩
  unfold segmentsLeft resolveDots
  rw [← hcount]
  rfl

theorem slash_notMem_segmentsLeft (path : String) :
    ∀ name ∈ segmentsLeft path, '/' ∉ name.toList := by
  obtain ⟨count, hleft⟩ := exists_segmentsLeft path
  rw [hleft]
  intro name hname
  rw [List.mem_append, List.mem_append] at hname
  rcases hname with (hempty | hresolved) | hend
  . rw [List.eq_of_mem_replicate hempty]
    decide
  . exact (resolveDots_resolved path).noSlash name hresolved
  . split at hend
    . rw [List.mem_singleton.mp hend]
      decide
    . cases hend

end removeDotSegments

open removeDotSegments

def withoutLeadingSlashes (text : String) : String :=
  String.ofList (text.toList.dropWhile (· = '/'))

def withoutFinalSlash (text : String) : String :=
  if text.toList.getLast? = some '/' then String.ofList text.toList.dropLast else text

theorem withoutLeadingSlashes_rooted (path : List String) :
    withoutLeadingSlashes (rooted path) = withoutLeadingSlashes (slashed path) := by
  unfold rooted
  split
  . next hnil =>
    rw [hnil]
    rfl
  . rfl

theorem withoutLeadingSlashes_replicate (count : Nat) (path : List String) :
    withoutLeadingSlashes (slashed (List.replicate count "" ++ path)) =
      withoutLeadingSlashes (slashed path) := by
  have hall : ∀ c ∈ (slashed (List.replicate count "")).toList, decide (c = '/') = true := by
    rw [toList_slashed]
    simp
  unfold withoutLeadingSlashes
  rw [slashed_append, String.toList_append, List.dropWhile_append_of_pos hall]

theorem withoutFinalSlash_slashed {path : List String} (h : Resolved path) :
    withoutFinalSlash (withoutLeadingSlashes (slashed (path ++ [""]))) =
      withoutLeadingSlashes (slashed path) := by
  cases path with
  | nil => decide
  | cons first rest =>
    have hne : first.toList ≠ [] := by simpa using h.head
    obtain ⟨c, others, hfirst⟩ := List.exists_cons_of_ne_nil hne
    have hc : c ≠ '/' := by
      rintro rfl
      apply h.noSlash first (by simp)
      rw [hfirst]
      simp
    have hdrop : (slashed (first :: rest)).toList.dropWhile (· = '/') =
        first.toList ++ (slashed rest).toList := by
      rw [toList_slashed_cons, hfirst]
      simp [hc]
    have hdropEnd : (slashed (first :: rest ++ [""])).toList.dropWhile (· = '/') =
        first.toList ++ (slashed rest).toList ++ ['/'] := by
      rw [toList_slashed_concat, List.dropWhile_append, hdrop, if_neg (by simp [hfirst])]
      rfl
    unfold withoutLeadingSlashes withoutFinalSlash
    rw [hdropEnd, hdrop, String.toList_ofList, if_pos (by simp), List.dropLast_concat]

/--
Resolving the dot segments of a path gives what the loop gives, up to the slashes in front and the
slash that the loop leaves behind a dot segment at the end. Both have the same names, and stay at
the root where `..` leads above it.
-/
theorem absolutePath_removes_dot_segments (path : String) :
    let removed := removeDotSegments ("/" ++ path)
    (withoutLeadingSlashes (absolutePath path) =
      if EndsInDots (pieces path) then withoutFinalSlash (withoutLeadingSlashes removed)
      else withoutLeadingSlashes removed) ∧
    names (absolutePath path) = names removed ∧
    ".." ∉ names removed ∧
    absolutePath ("../" ++ path) = absolutePath path ∧
    removeDotSegments ("/../" ++ path) = removed := by
  intro removed
  have hremoved : removed = slashed (segmentsLeft path) := removeDotSegments_slash path
  obtain ⟨count, hleft⟩ := exists_segmentsLeft path
  have hresolved := resolveDots_resolved path
  have hnames : names (absolutePath path) = names removed := by
    rw [hremoved, names_slashed (slash_notMem_segmentsLeft path), hleft]
    unfold absolutePath
    rw [names_rooted hresolved.noSlash, List.filter_append, List.filter_append]
    split
    all_goals simp
  refine ⟨?_, hnames, ?_, ?_, ?_⟩
  . rw [hremoved, hleft]
    unfold absolutePath
    rw [withoutLeadingSlashes_rooted, List.append_assoc, withoutLeadingSlashes_replicate]
    split
    . rw [withoutFinalSlash_slashed hresolved]
    . rw [List.append_nil]
  . rw [← hnames]
    unfold absolutePath
    rw [names_rooted hresolved.noSlash]
    intro hmem
    exact hresolved.notDotDot ".." (List.mem_filter.mp hmem).1 rfl
  . unfold absolutePath resolveDots
    rw [pieces_above, List.foldl_cons]
    rfl
  . rw [hremoved, ← segmentsLeft_above, ← removeDotSegments_slash, ← String.append_assoc]
    rfl

end LakeStore
