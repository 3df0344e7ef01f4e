import LakeStore.Proofs.Host.Arrival
import LakeStore.Proofs.Host.Vacant

/-!
The directories of a path are made, whatever is on the disk. The missing ones are made from the top
down, and those that were made stay when the host refuses a name further down. It refuses a text
that is too long, or has U+0000 in it, before anything is made; a name that is too long it does not
look at as long as a directory above it is missing.
-/

namespace LakeStore.Disk

open StorePath

def addDirectories (disk : Disk) (place : Location) : StorePath → Disk
  | [] => disk
  | name :: rest =>
    (disk.addNode (place ++ [name]) (.directory disk.clock)).addDirectories (place ++ [name]) rest

structure Makeable (disk : Disk) (text : String) (place : Location) (names : StorePath) : Prop where
  found : ∃ modified, disk.find text = .ok (.taken place (.directory modified))
  nonempty : names ≠ []
  absent : ∀ name ∈ names.head?, disk.nodes.get? (place ++ [name]) = none
  short : Short names

structure Strands (disk : Disk) (base : String) (directories path front made : StorePath)
    (place : Location) :
    Prop where
  makeable : disk.Makeable (HostPath.below base front) place made
  checked : checkText (HostPath.below base directories) = .ok ()
  refused : ∃ name rest, path = front ++ made ++ name :: rest ∧
    (maxName < name.utf8ByteSize ∨ rest = [] ∧ checkText (HostPath.below base path) ≠ .ok ())

inductive Makes (disk : Disk) (base : String) (path : StorePath) :
    Except HostError Unit × Disk → Prop where
  | there (h : disk.isDirectory (HostPath.below base path)) : Makes disk base path (.ok (), disk)
  | made {front names : StorePath} {place : Location} (hpath : path = front ++ names)
    (h : disk.Makeable (HostPath.below base front) place names)
    (hchecked : checkText (HostPath.below base path) = .ok ()) :
    Makes disk base path (.ok (), disk.addDirectories place names)
  | refused {error : HostError} (h : ∀ front made place,
    ¬ disk.Strands base path path front made place) :
    Makes disk base path (.error error, disk)
  | stranded {error : HostError} {front made : StorePath} {place : Location}
    (h : disk.Strands base path path front made place) :
    Makes disk base path (.error error, disk.addDirectories place made)

variable {disk changed : Disk} {base text : String} {place : Location}
  {path front made rest : StorePath} {name : String}

section addDirectories

theorem addDirectories_concat (disk : Disk) (place : Location) (names : StorePath) (name : String) :
    disk.addDirectories place (names ++ [name]) =
      (disk.addDirectories place names).addNode (place ++ names ++ [name])
        (.directory disk.clock) := by
  induction names generalizing disk place with
  | nil => simp [addDirectories]
  | cons first rest ih =>
    rw [List.cons_append, addDirectories, ih, addDirectories]
    simp [addNode]

structure HasDirectories (old new : Disk) (place : Location) (names : StorePath) : Prop where
  grows : old.Grows new
  clock : new.clock = old.clock
  directory : new.IsDirectoryAt (place ++ names)
  empty : ∀ name, new.nodes.get? (place ++ names ++ [name]) = none

theorem hasDirectories_addDirectories (h : disk.WellFormed) (hplace : disk.IsDirectoryAt place)
    {names : StorePath} (hnames : names.Canonical) (hne : names ≠ [])
    (habsent : ∀ name ∈ names.head?, disk.nodes.get? (place ++ [name]) = none) :
    HasDirectories disk (disk.addDirectories place names) place names := by
  induction names generalizing disk place with
  | nil => exact absurd rfl hne
  | cons first rest ih =>
    rw [canonical_cons] at hnames
    have hnone := habsent first rfl
    have hgrows : disk.Grows (disk.addNode (place ++ [first]) (.directory disk.clock)) :=
      grows_addDirectory h ⟨hplace, hnames.1, hnone⟩ disk.clock
    have hdirectory : (disk.addNode (place ++ [first]) (.directory disk.clock)).IsDirectoryAt
        (place ++ [first]) :=
      ⟨disk.clock, PathMap.get?_insert_self _ _ _⟩
    -- Nothing was below the first name, and the new directory is empty.
    have hempty : ∀ name, (disk.addNode (place ++ [first]) (.directory disk.clock)).nodes.get?
        (place ++ [first] ++ [name]) = none := by
      intro name
      have hnode :=
        get?_addNode_place disk disk.files (place ++ [first]) (place ++ [first] ++ [name])
        (.directory disk.clock)
      rw [if_neg (by simp)] at hnode
      exact hnode.trans (h.get?_below_none hnone [name])
    rw [addDirectories]
    by_cases hnil : rest = []
    . subst hnil
      exact ⟨hgrows, rfl, hdirectory, hempty⟩
    . have hrest := ih hgrows.wellFormed hdirectory hnames.2 hnil fun name _ => hempty name
      have hsplit : place ++ first :: rest = place ++ [first] ++ rest :=
        List.append_cons place first rest
      refine ⟨hgrows.trans hrest.grows, hrest.clock, ?_, ?_⟩
      . rw [hsplit]
        exact hrest.directory
      . rw [hsplit]
        exact hrest.empty

end addDirectories

section lookup

theorem ne_empty_of_find {spot : Spot} (hfind : disk.find text = .ok spot) : text ≠ "" :=
  (checkText_eq_ok_iff.mp (checkText_of_findWith hfind)).2.1

theorem Makeable.findWith (h : disk.Makeable text place made) (hpath : (made ++ rest).Canonical)
    (hchecked : checkText (HostPath.below text (made ++ rest)) = .ok ()) (last : LastName)
    (hlast : last.directory = false) :
    ∃ first others, made ++ rest = first :: others ∧
      disk.findWith last (HostPath.below text (made ++ rest)) =
        if others = [] then .ok (.free place first) else .error .notFound := by
  obtain ⟨modified, hfind⟩ := h.found
  obtain ⟨first, others, rfl⟩ := List.exists_cons_of_ne_nil h.nonempty
  obtain ⟨expand, hfollow⟩ := findWith_below hfind hpath (by simp) hchecked last
  refine ⟨first, others ++ rest, rfl, ?_⟩
  rw [List.cons_append] at hpath hfollow ⊢
  rw [hfollow, follow_isName (canonical_cons.mp hpath).1 (h.short first (.head _)) hlast,
    h.absent first rfl]

theorem Makeable.not_isDirectory (h : disk.Makeable text place made)
    (hpath : (made ++ rest).Canonical) :
    disk.isDirectory (HostPath.below text (made ++ rest)) = false := by
  rw [← Bool.not_eq_true, isDirectory_iff_findWith]
  rintro ⟨found, modified, hfind⟩
  obtain ⟨first, others, _, hmissing⟩ :=
    h.findWith hpath (checkText_of_findWith hfind) ⟨true, false, false⟩ rfl
  rw [hmissing] at hfind
  split at hfind
  all_goals cases hfind

theorem Makeable.find_addDirectories (h : disk.Makeable (HostPath.below base front) place made)
    (hdisk : disk.WellFormed) (hpath : (front ++ made).Canonical)
    (hchecked : checkText (HostPath.below base (front ++ made)) = .ok ()) :
    HasDirectories disk (disk.addDirectories place made) place made ∧ ∃ modified,
      (disk.addDirectories place made).find (HostPath.below base (front ++ made)) =
        .ok (.taken (place ++ made) (.directory modified)) := by
  obtain ⟨time, hfind⟩ := h.found
  have hcanonical := (canonical_append.mp hpath).2
  have hmade :=
    hasDirectories_addDirectories hdisk ⟨time, findWith_holds hdisk hfind⟩ hcanonical
    h.nonempty h.absent
  refine ⟨hmade, ?_⟩
  have hkept := findWith_keeps hmade.grows.keeps hmade.grows.here hfind
  obtain ⟨modified, hnode⟩ := hmade.directory
  rw [← HostPath.below_below] at hchecked ⊢
  obtain ⟨expand, hfollow⟩ := findWith_below hkept hcanonical h.nonempty hchecked
    ⟨true, HostPath.endsInSlash (HostPath.below (HostPath.below base front) made), false⟩
  refine ⟨modified, hfollow.trans ?_⟩
  apply follow_of_get? hmade.grows.wellFormed hcanonical h.short _ (by simp) hnode
  exact HostPath.endsInSlash_below (ne_empty_of_find hfind) hcanonical h.nonempty

theorem checkText_below_of_concat (hbase : base ≠ "") (hpath : (path ++ [name]).Canonical)
    (h : checkText (HostPath.below base (path ++ [name])) = .ok ()) :
    checkText (HostPath.below base path) = .ok () := by
  rw [canonical_append, canonical_singleton] at hpath
  have hne := HostPath.below_ne_empty hbase hpath.1
  rw [HostPath.below_concat, HostPath.join_of_isName hne hpath.2] at h
  split at h
  . exact checkText_of_append h hne
  . rw [String.append_assoc] at h
    exact checkText_of_append h hne

theorem exists_find_above (hdisk : disk.WellFormed) (hbase : base ≠ "")
    (hpath : (path ++ [name]).Canonical) {last : LastName} {spot : Spot}
    (hfind : disk.findWith last (HostPath.below base (path ++ [name])) = .ok spot) :
    ∃ place modified,
      disk.find (HostPath.below base path) = .ok (.taken place (.directory modified)) := by
  have hchecked := checkText_of_findWith hfind
  have habove := (canonical_append.mp hpath).1
  unfold findWith at hfind
  rw [hchecked, start_below hbase hpath, HostPath.names_below hbase hpath,
    ← List.append_assoc] at hfind
  obtain ⟨place, modified, hfollow⟩ := followLinks_front hdisk (by simp) (hdisk.start base)
    (HostPath.endsInSlash (HostPath.below base path)) hfind
  refine ⟨place, modified, ?_⟩
  unfold find findWith
  rw [checkText_below_of_concat hbase hpath hchecked, start_below hbase habove,
    HostPath.names_below hbase habove]
  exact hfollow

theorem findWith_name {modified : Time}
    (hfind : disk.find text = .ok (.taken place (.directory modified))) (hname : IsName name)
    (hchecked : checkText (HostPath.below text [name]) = .ok ()) (last : LastName)
    (hlast : last.directory = false) (hnone : disk.nodes.get? (place ++ [name]) = none) :
    disk.findWith last (HostPath.below text [name]) =
      if maxName < name.utf8ByteSize then .error .nameTooLong else .ok (.free place name) := by
  obtain ⟨expand, hfollow⟩ :=
    findWith_below hfind (canonical_singleton.mpr hname) (by simp) hchecked last
  rw [hfollow, follow_name hname.notDot hname.notDotDot, if_neg (by simp [hlast]), hnone]
  rfl

theorem findPlace_name {modified : Time}
    (hfind : disk.find text = .ok (.taken place (.directory modified))) (hname : IsName name)
    (hchecked : checkText (HostPath.below text [name]) = .ok ()) :
    disk.findPlace (HostPath.below text [name]) =
      if maxName < name.utf8ByteSize then .error .nameTooLong
      else match disk.nodes.get? (place ++ [name]) with
        | none => .ok (.free place name)
        | some node => .ok (.taken (place ++ [name]) node) := by
  obtain ⟨expand, hfollow⟩ :=
    findWith_below hfind (canonical_singleton.mpr hname) (by simp) hchecked ⟨false, false, false⟩
  unfold findPlace
  rw [hfollow, follow_name hname.notDot hname.notDotDot, if_neg (by simp)]
  split
  . rfl
  . cases hnode : disk.nodes.get? (place ++ [name]) with
    | none => rfl
    | some node =>
      cases node with
      | directory time => exact follow_nil_of_get? hnode
      | file id => rfl
      | link target time => rfl

theorem makeable_of_findPlace (hdisk : disk.WellFormed) (hbase : base ≠ "")
    (hpath : (path ++ [name]).Canonical) {location : Location} {found : String}
    (hplace : disk.findPlace (HostPath.below base (path ++ [name])) = .ok (.free location found)) :
    found = name ∧ disk.Makeable (HostPath.below base path) location [name] := by
  obtain ⟨place, modified, hfind⟩ := exists_find_above hdisk hbase hpath hplace
  have hname := canonical_singleton.mp (canonical_append.mp hpath).2
  have hchecked := checkText_of_findWith hplace
  rw [← HostPath.below_below] at hplace hchecked
  rw [findPlace_name hfind hname hchecked] at hplace
  split at hplace
  . cases hplace
  . next hshort =>
    split at hplace
    . next hnone =>
      cases hplace
      refine ⟨rfl, ⟨modified, hfind⟩, by simp, ?_, ?_⟩
      . simpa using hnone
      . simpa [Short] using hshort
    . cases hplace

theorem checkText_of_findPlace_notFound (hne : text ≠ "")
    (hplace : disk.findPlace text = .error .notFound) :
    checkText text = .ok () := by
  cases hchecked : checkText text with
  | ok => rfl
  | error error =>
    unfold findPlace findWith at hplace
    rw [hchecked] at hplace
    cases hplace
    unfold checkText at hchecked
    rw [if_neg hne] at hchecked
    split at hchecked
    . cases hchecked
    . split at hchecked
      all_goals cases hchecked

theorem find_of_isDirectory (h : disk.isDirectory text) :
    (∃ place modified, disk.find text = .ok (.taken place (.directory modified))) ∧
      ∃ entry node, disk.findPlace text = .ok (.taken entry node) := by
  rw [isDirectory_iff_findWith] at h
  obtain ⟨found, modified, hfind⟩ := h
  have hchecked := checkText_of_findWith hfind
  unfold findWith at hfind
  rw [hchecked, ← List.append_nil (names text)] at hfind
  obtain ⟨hfound, hplace⟩ := find_of_followLinks hchecked (by simp) hfind
  exact ⟨⟨found, modified, hfound⟩, hplace⟩

theorem isDirectory_of_findPlace_error {error : HostError}
    (h : disk.findPlace text = .error error) :
    disk.isDirectory text = false := by
  rw [← Bool.not_eq_true]
  intro hdirectory
  obtain ⟨_, location, node, hplace⟩ := find_of_isDirectory hdirectory
  rw [h] at hplace
  cases hplace

end lookup

theorem createParents_name {modified : Time}
    (hfind : disk.find base = .ok (.taken place (.directory modified))) (hname : IsName name) :
    (createParents (HostPath.below base [name])).outcome disk = (.ok (), disk) ∧
      ∃ top, HostPath.parents (HostPath.below base [name]) = top :: HostPath.parents top := by
  have hbase := ne_empty_of_find hfind
  obtain ⟨top, behind, dots, hlast, htext, hne, habsolute, hnames, hdots⟩ :=
    HostPath.exists_top hbase
  obtain ⟨above, habove⟩ := List.getLast?_eq_some_iff.mp hlast
  have hleads : HostPath.starts (HostPath.below base [name]) =
      above ++ [top, HostPath.below base [name]] := by
    have hstarts : HostPath.starts (HostPath.join base name) = _ := HostPath.starts_join hbase hname
    rw [habove, List.append_assoc] at hstarts
    exact hstarts
  have hparents := HostPath.parents_of_leads hleads
  have hchecked := checkText_of_findWith hfind
  rw [htext] at hchecked
  obtain ⟨hfound, entry, node, hplace⟩ :=
    find_start hfind (checkText_of_append hchecked hne) habsolute hnames hdots
  refine ⟨?_, top, hparents⟩
  rw [createParents_of_parents hparents]
  exact (go_of_taken hne hplace).trans (if_pos (isDirectory_of_find hfound))

theorem createParents_concat (hbase : base ≠ "") (hpath : (path ++ [name]).Canonical)
    (hne : path ≠ []) :
    HostPath.parents (HostPath.below base (path ++ [name])) =
        HostPath.below base path :: HostPath.parents (HostPath.below base path) ∧
      createParents (HostPath.below base (path ++ [name])) =
        createDirectories (HostPath.below base path) := by
  obtain ⟨above, habove⟩ := HostPath.exists_starts_below hbase (canonical_append.mp hpath).1 hne
  have hstarts := HostPath.starts_below_concat hbase hpath
  rw [habove, List.append_assoc] at hstarts
  have hparents := HostPath.parents_of_leads hstarts
  exact ⟨hparents, createParents_of_parents hparents⟩

theorem createDirectories_of_missing {top : String} (hne : text ≠ "")
    (hplace : disk.findPlace text = .error .notFound)
    (hparents : HostPath.parents text = top :: HostPath.parents top) :
    (createDirectories text).outcome disk =
      (createParents text >>= fun _ =>
        tryCatch (createDirectory text) (createDirectories.unlessThere text)).outcome disk := by
  have hgo : createParents text = createDirectories.go (HostPath.parents text) := by
    rw [createParents_of_parents hparents, hparents]
    rfl
  rw [hgo, createDirectories, createDirectories.go]
  rw [if_neg hne, Step.outcome_tryCatch, createDirectory_outcome, hplace]
  dsimp only
  rw [if_pos rfl]

theorem Makeable.vacant (h : disk.Makeable text place made) (hpath : made.Canonical)
    (hchecked : checkText (HostPath.below text made) = .ok ()) :
    disk.Vacant (HostPath.below text made) place made := by
  obtain ⟨modified, hfind⟩ := h.found
  have hne := ne_empty_of_find hfind
  have hfollow := followLinks_of_find hfind
  rw [← List.append_nil (names text)] at hfollow
  obtain ⟨init, last, rfl⟩ := List.eq_nil_or_concat' made |>.resolve_left h.nonempty
  refine ⟨hchecked, HostPath.endsInSlash_below hne hpath h.nonempty,
    ⟨names text, init, last, modified, ?_, ?_, ?_⟩, hpath, h.short, h.absent⟩
  . exact HostPath.names_below hne hpath
  . rw [(canonical_append.mp hpath).1.filter_dots]
  . rw [start_below hne hpath]
    exact followLinks_without_dots false (by simp) hfollow

theorem Makeable.createDirectories (h : disk.Makeable text place made) (hdisk : disk.WellFormed)
    (hpath : made.Canonical) (hchecked : checkText (HostPath.below text made) = .ok ()) :
    ∃ new, (createDirectories (HostPath.below text made)).outcome disk = (.ok (), new) := by
  have hvacant := h.vacant hpath hchecked
  have hput := (hvacant.takes hdisk fun _ => none).canPutDirectory (isTree_contentsAt hdisk [])
  obtain ⟨new, hnew, _⟩ := (hvacant.reaches hdisk).exists_createDirectories hdisk hput
  exact ⟨new, hnew⟩

section Strands

variable {directories : StorePath}

theorem Strands.concat (h : disk.Strands base path path front made place) (directories : StorePath)
    (hchecked : checkText (HostPath.below base directories) = .ok ()) (name : String) :
    disk.Strands base directories (path ++ [name]) front made place := by
  obtain ⟨refusedName, rest, hpath, hrefused⟩ := h.refused
  refine ⟨h.makeable, hchecked, refusedName, rest ++ [name], ?_, ?_⟩
  . rw [hpath]
    simp
  . exact .inl (hrefused.resolve_right fun hboth => hboth.2 h.checked)

theorem Strands.above (h : disk.Strands base directories (path ++ [name]) front made place)
    (hchecked : checkText (HostPath.below base path) = .ok ()) :
    path = front ++ made ∨ disk.Strands base path path front made place := by
  obtain ⟨refusedName, rest, hpath, hrefused⟩ := h.refused
  cases rest using List.reverseRecOn with
  | nil =>
    left
    exact List.append_inj_left' hpath rfl
  | append_singleton rest last =>
    right
    refine ⟨h.makeable, hchecked, refusedName, rest, ?_, ?_⟩
    . have hsplit : path ++ [name] = (front ++ made ++ refusedName :: rest) ++
          [last] := by simpa using hpath
      exact List.append_inj_left' hsplit rfl
    . exact hrefused.imp_right fun hboth => absurd hboth.1 (by simp)

theorem Strands.not_isDirectory (h : disk.Strands base directories path front made place)
    (hpath : path.Canonical) :
    disk.isDirectory (HostPath.below base path) = false := by
  obtain ⟨name, rest, rfl, _⟩ := h.refused
  rw [List.append_assoc] at hpath ⊢
  rw [← HostPath.below_below]
  exact h.makeable.not_isDirectory (canonical_append.mp hpath).2

theorem Strands.not_isDirectory_above
    (h : disk.Strands base directories (path ++ [name]) front made place) (hpath : path.Canonical)
    (hchecked : checkText (HostPath.below base path) = .ok ()) :
    disk.isDirectory (HostPath.below base path) = false := by
  obtain rfl | habove := h.above hchecked
  . have hmade := (canonical_append.mp hpath).2
    rw [← List.append_nil made] at hmade
    have hnot := h.makeable.not_isDirectory hmade
    rw [List.append_nil, HostPath.below_below] at hnot
    exact hnot
  . exact habove.not_isDirectory hpath

theorem Strands.findPlace (h : disk.Strands base path path front made place)
    (hpath : path.Canonical) :
    disk.findPlace (HostPath.below base path) = .error .notFound := by
  obtain ⟨name, rest, rfl, _⟩ := h.refused
  have hchecked := h.checked
  rw [List.append_assoc] at hpath hchecked ⊢
  rw [← HostPath.below_below] at hchecked ⊢
  obtain ⟨first, others, heq, hfind⟩ :=
    h.makeable.findWith (canonical_append.mp hpath).2 hchecked ⟨false, false, false⟩ rfl
  have hothers : others ≠ [] := by
    rintro rfl
    have hlength := congrArg List.length heq
    have hpos := List.length_pos_iff.mpr h.makeable.nonempty
    rw [List.length_append, List.length_cons, List.length_singleton] at hlength
    omega
  rw [if_neg hothers] at hfind
  exact hfind

end Strands

theorem Makeable.makes_name (h : disk.Makeable (HostPath.below base front) place made)
    (hdisk : disk.WellFormed) (hpath : (front ++ made ++ [name]).Canonical)
    (hchecked : checkText (HostPath.below base (front ++ made ++ [name])) = .ok ())
    (habove : checkText (HostPath.below base (front ++ made)) = .ok ()) :
    Makes disk base (front ++ made ++ [name])
      ((tryCatch (createDirectory (HostPath.below base (front ++ made ++ [name])))
        (createDirectories.unlessThere (HostPath.below base (front ++ made ++ [name])))).outcome
          (disk.addDirectories place made)) := by
  rw [canonical_append, canonical_singleton] at hpath
  obtain ⟨hmade, modified, hfind⟩ := h.find_addDirectories hdisk hpath.1 habove
  have hplace :
      (disk.addDirectories place made).findPlace (HostPath.below base (front ++ made ++ [name])) =
        if maxName < name.utf8ByteSize then .error .nameTooLong else
        .ok (.free (place ++ made) name) := by
    have hname := hchecked
    rw [← HostPath.below_below] at hname ⊢
    exact findWith_name hfind hpath.2 hname ⟨false, false, false⟩ rfl (hmade.empty name)
  rw [Step.outcome_tryCatch, createDirectory_outcome, hplace]
  by_cases hlong : maxName < name.utf8ByteSize
  . rw [if_pos hlong] at hplace ⊢
    dsimp only
    rw [unlessThere_outcome, isDirectory_of_findPlace_error hplace, if_neg (by simp)]
    exact .stranded ⟨h, hchecked, name, [], rfl, .inl hlong⟩
  . rw [if_neg hlong]
    dsimp only
    rw [hmade.clock, ← addDirectories_concat]
    refine .made (List.append_assoc _ _ _) ⟨h.found, by simp, ?_, ?_⟩ hchecked
    . rw [List.head?_append_of_ne_nil _ h.nonempty]
      exact h.absent
    . intro other hother
      rw [List.mem_append, List.mem_singleton] at hother
      cases hother with
      | inl hmem => exact h.short other hmem
      | inr heq => rw [heq]; omega

structure MakesAbove (disk : Disk) (base : String) (path : StorePath) (name : String) : Prop where
  parents : ∃ top,
    HostPath.parents (HostPath.below base (path ++ [name])) = top :: HostPath.parents top
  makes : Makes disk base path ((createParents (HostPath.below base (path ++ [name]))).outcome disk)
  whole : ∀ front made place,
    path = front ++ made → disk.Makeable (HostPath.below base front) place made →
    checkText (HostPath.below base path) = .ok () →
      ∃ new, (createParents (HostPath.below base (path ++ [name]))).outcome disk = (.ok (), new)

theorem makes_concat (hdisk : disk.WellFormed) (hbase : base ≠ "")
    (hpath : (path ++ [name]).Canonical) (h : disk.MakesAbove base path name) :
    Makes disk base (path ++ [name])
      ((createDirectories (HostPath.below base (path ++ [name]))).outcome disk) := by
  have hne := HostPath.below_ne_empty hbase hpath
  have hname := canonical_singleton.mp (canonical_append.mp hpath).2
  cases hplace : disk.findPlace (HostPath.below base (path ++ [name])) with
  | ok spot =>
    cases spot with
    | free location found =>
      obtain ⟨rfl, hmakeable⟩ := makeable_of_findPlace hdisk hbase hpath hplace
      unfold createDirectories
      rw [go_of_free hne hplace]
      exact .made rfl hmakeable (checkText_of_findWith hplace)
    | taken location node =>
      unfold createDirectories
      rw [go_of_taken hne hplace]
      split
      . next hdirectory => exact .there hdirectory
      . refine .refused ?_
        intro front made place hstrands
        rw [hstrands.findPlace hpath] at hplace
        cases hplace
  | error error =>
    have hdirectory := isDirectory_of_findPlace_error hplace
    by_cases hmissing : error = .notFound
    . subst hmissing
      obtain ⟨top, hparents⟩ := h.parents
      have hchecked := checkText_of_findPlace_notFound hne hplace
      have habove := checkText_below_of_concat hbase hpath hchecked
      have hmakes := h.makes
      have hwhole := h.whole
      rw [createDirectories_of_missing hne hplace hparents]
      cases houtcome : (createParents (HostPath.below base (path ++ [name]))).outcome disk with
      | mk result changed =>
        rw [houtcome] at hmakes hwhole
        cases hmakes with
        | there hthere =>
          obtain ⟨⟨place, modified, hfind⟩, _⟩ := find_of_isDirectory hthere
          rw [← HostPath.below_below] at hplace hchecked
          rw [findPlace_name hfind hname hchecked] at hplace
          split at hplace
          . cases hplace
          . split at hplace
            all_goals cases hplace
        | made hsplit hmakeable _ =>
          subst hsplit
          rw [Step.outcome_bind_ok houtcome]
          exact hmakeable.makes_name hdisk hpath hchecked habove
        | refused hnot =>
          rw [Step.outcome_bind_error houtcome]
          refine .refused ?_
          intro front made place hstrands
          obtain hsplit | hstrands := hstrands.above habove
          . obtain ⟨new, hnew⟩ := hwhole front made place hsplit hstrands.makeable habove
            cases hnew
          . exact hnot front made place hstrands
        | stranded hstrands =>
          rw [Step.outcome_bind_error houtcome]
          exact .stranded (hstrands.concat _ hchecked name)
    . unfold createDirectories
      rw [go_of_error hne hplace hmissing hdirectory]
      refine .refused ?_
      intro front made place hstrands
      rw [hstrands.findPlace hpath, Except.error.injEq] at hplace
      exact hmissing hplace.symm

theorem makesAbove (hdisk : disk.WellFormed) {modified : Time}
    (hfind : disk.find base = .ok (.taken place (.directory modified)))
    (hpath : (path ++ [name]).Canonical)
    (h : Makes disk base path ((createDirectories (HostPath.below base path)).outcome disk)) :
    disk.MakesAbove base path name := by
  have hbase := ne_empty_of_find hfind
  by_cases hnil : path = []
  . subst hnil
    rw [List.nil_append] at hpath
    obtain ⟨houtcome, hparents⟩ := createParents_name hfind (canonical_singleton.mp hpath)
    refine ⟨hparents, ?_, fun _ _ _ _ _ _ => ⟨disk, houtcome⟩⟩
    rw [List.nil_append, houtcome]
    exact .there (isDirectory_of_find hfind)
  . obtain ⟨hparents, hsame⟩ := createParents_concat hbase hpath hnil
    refine ⟨⟨_, hparents⟩, ?_, ?_⟩
    . rw [hsame]
      exact h
    . rintro front made found rfl hmakeable hchecked
      rw [hsame]
      rw [← HostPath.below_below] at hchecked ⊢
      exact hmakeable.createDirectories hdisk (canonical_append.mp (canonical_append.mp hpath).1).2
        hchecked

theorem makes_createDirectories (hdisk : disk.WellFormed) {modified : Time}
    (hfind : disk.find base = .ok (.taken place (.directory modified))) (hpath : path.Canonical) :
    Makes disk base path ((createDirectories (HostPath.below base path)).outcome disk) := by
  have hbase := ne_empty_of_find hfind
  -- Induction along the path: what is above a name is made first.
  induction path using List.reverseRecOn with
  | nil =>
    have hdirectory : disk.isDirectory base = true := isDirectory_of_find hfind
    obtain ⟨_, entry, node, hplace⟩ := find_of_isDirectory hdirectory
    unfold createDirectories
    rw [HostPath.below, List.foldl_nil, go_of_taken hbase hplace, if_pos hdirectory]
    exact .there hdirectory
  | append_singleton path name ih =>
    apply makes_concat hdisk hbase hpath
    exact makesAbove hdisk hfind hpath (ih (canonical_append.mp hpath).1)

end LakeStore.Disk
