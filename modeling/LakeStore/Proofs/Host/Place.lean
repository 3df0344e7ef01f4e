import LakeStore.Proofs.Host.Approach
import LakeStore.Proofs.Host.Effect

/-!
Entries are made at a host path that names a place, whatever is there and above it, as long as no
link is on the way. Directories and files are made as they are put into what the whole disk holds.
What is in the way of them is told before anything is made.
-/

namespace LakeStore

theorem HostPath.endsInSlash_of_starts {text : String} {above : List String}
    (h : starts text = above ++ [text]) (hnames : names text ≠ []) : endsInSlash text = false := by
  by_contra hslash
  rw [Bool.not_eq_false] at hslash
  obtain ⟨before, rfl⟩ := exists_of_endsInSlash hslash
  obtain ⟨first, rest, hpieces⟩ := List.exists_cons_of_ne_nil (pieces_ne_nil before)
  have hempty := pieces_append_slash before ""
  rw [String.append_empty, hpieces] at hempty
  have hbefore : before ≠ "" := by
    rintro rfl
    exact hnames rfl
  -- The slash at the end starts nothing, so that the text would be a start of what is before it.
  have hsame : starts (before ++ "/") = starts before := by
    have hboth : pieces (before ++ "/") = first :: (rest ++ [""]) := hempty
    have hrest : first = "" → rest ≠ [] := by
      rintro rfl rfl
      exact hbefore (append_slashed_of_pieces hpieces)
    rw [starts_of_pieces hboth, starts_of_pieces hpieces, go_concat, go_concat]
    split
    . rfl
    . next hfirst => rw [if_neg (hrest (by simpa using hfirst)), if_neg (by simp)]; rfl
  obtain ⟨top, behind, _, htop, htext, _⟩ := exists_top hbefore
  rw [← hsame, h, List.getLast?_concat, Option.some_inj] at htop
  have hlength := congrArg (fun text => text.toList.length) htext
  rw [← htop] at hlength
  simp at hlength

namespace Disk

open StorePath

variable {disk made : Disk} {text : String} {directory place : Location}
  {path front rest : StorePath} {name : String} {contents : Contents}

theorem createParents_of_find (h : disk.WellFormed) {modified : Time}
    (hfind : disk.find text = .ok (.taken place (.directory modified))) :
    (createParents text).outcome disk = (.ok (), disk) := by
  have hchecked := checkText_of_findWith hfind
  obtain ⟨last, behind, dots, hlast, htext, hne, habsolute, hnames, hdots⟩ :=
    HostPath.exists_top (checkText_eq_ok_iff.mp hchecked).2.1
  obtain ⟨above, hstarts⟩ := List.getLast?_eq_some_iff.mp hlast
  unfold createParents HostPath.parent? HostPath.parents
  rw [hstarts, List.dropLast_concat]
  cases above using List.reverseRecOn with
  | nil =>
    split
    . next parent hparent =>
      have hempty : parent = "" := by
        split at hparent
        . cases hparent
        . simpa using hparent.symm
      rw [hempty]
      unfold createDirectories createDirectories.go
      rfl
    . rfl
  | append_singleton above top =>
    have hlastStarts := HostPath.starts_of_mem hstarts
    rw [List.append_assoc] at hlastStarts
    have hleads := HostPath.leads_of_starts hlastStarts
    obtain ⟨between, name, hnext, _, _⟩ := hleads.nextName
    obtain ⟨longer, hlonger⟩ := hleads.longer
    have htop : checkText top = .ok () := by
      rw [htext, hlonger, String.append_assoc] at hchecked
      exact checkText_of_append hchecked hleads.nonempty
    have hstart : disk.start top = disk.start text := by
      rw [start_of_leads hleads]
      unfold Disk.start
      rw [habsolute]
    -- The path goes on behind its start, and so it leads through a directory there.
    have hfollow := followLinks_of_find hfind
    rw [hnames, hnext, List.append_assoc, ← hstart] at hfollow
    obtain ⟨found, time, hfound⟩ :=
      followLinks_front h (by simp) (h.start top) (HostPath.endsInSlash top) hfollow
    rw [← List.append_nil (names top)] at hfound
    obtain ⟨hdirectory, entry, node, hplace⟩ := find_of_followLinks htop (by simp) hfound
    have hgo : (createDirectories top).outcome disk = (.ok (), disk) :=
      (go_of_taken hleads.nonempty hplace).trans (if_pos (isDirectory_of_find hdirectory))
    split
    . next parent hparent =>
      have heq : parent = top := by
        split at hparent
        all_goals simpa using hparent.symm
      rw [heq]
      exact hgo
    . rfl

def Plain (disk : Disk) (place : Location) : Prop :=
  ∀ above target modified, above <+: place → disk.nodes.get? above ≠ some (.link target modified)

theorem Plain.of_prefix (h : disk.Plain place) {above : Location} (hpre : above <+: place) :
    disk.Plain above :=
  fun other target modified hother => h other target modified (hother.trans hpre)

theorem Plain.of_grows (h : disk.Plain place) (hgrows : disk.Grows made) : made.Plain place :=
  fun above target modified hpre hlink =>
    h above target modified hpre (hgrows.noNewLink above target modified hlink)

theorem plain_of_isDirectoryAt (hdisk : disk.WellFormed) (hdirectory : disk.IsDirectoryAt directory)
    (hlink : ∀ front target modified, front ≠ [] → front <+: path →
      disk.nodes.get? (directory ++ front) ≠ some (.link target modified)) :
      disk.Plain (directory ++ path) := by
  have habove : ∀ above target modified, above <+: directory →
      disk.nodes.get? above ≠ some (.link target modified) := by
    intro above target modified hpre
    obtain ⟨time, hnode⟩ := hdisk.directory_of_prefix hdirectory hpre
    rw [hnode]
    simp
  intro above target modified hpre
  rcases prefix_or_prefix_of_append hpre with hpre | ⟨front, rfl⟩
  . exact habove above target modified hpre
  . by_cases hnil : front = []
    . rw [hnil, List.append_nil]
      exact habove directory target modified List.prefix_rfl
    . exact hlink front target modified hnil ((List.prefix_append_right_inj directory).mp hpre)

/--
Whether a host path names a place, whatever is there: some names lead to a directory, and the others
are names that entries can have, with no link among them. A `.` between them is left out.
-/
structure Reaches (disk : Disk) (text : String) (directory : Location) (path : StorePath) :
    Prop where
  approaches : Approaches disk text directory path
  nonempty : path ≠ []
  canonical : path.Canonical
  short : Short path
  plain : disk.Plain (directory ++ path)

theorem reaches_of_names (hdisk : disk.WellFormed) (hchecked : checkText text = .ok ())
    (hslash : HostPath.endsInSlash text = false) (hne : names text ≠ [])
    (hcanonical : Canonical (names text)) (hshort : Short (names text))
    (hplain : disk.Plain (disk.start text ++ names text)) :
    Reaches disk text (disk.start text) (names text) := by
  obtain ⟨modified, hnode⟩ := hdisk.start text
  obtain ⟨above, last, hnames⟩ := List.eq_nil_or_concat' (names text) |>.resolve_left hne
  have hlast : last ≠ "." := (hcanonical last (by simp [hnames])).notDot
  refine ⟨⟨hchecked, HostPath.exists_starts_concat hslash hnames hlast, [], names text, modified,
    rfl, ?_, ?_⟩, hne, hcanonical, hshort, hplain⟩
  . exact hcanonical.filter_dots
  . exact follow_nil_of_get? hnode

theorem Reaches.of_grows (h : Reaches disk text directory path) (hgrows : disk.Grows made) :
    Reaches made text directory path :=
  ⟨h.approaches.of_keeps hgrows.keeps hgrows.here, h.nonempty, h.canonical, h.short,
    h.plain.of_grows hgrows⟩

theorem Reaches.noSlash (h : Reaches disk text directory path) :
    HostPath.endsInSlash text = false := by
  obtain ⟨above, hstart⟩ := h.approaches.start
  obtain ⟨front, parts, modified, hnames, hparts, _⟩ := h.approaches.leads
  apply HostPath.endsInSlash_of_starts hstart
  intro hnil
  rw [hnames, List.append_eq_nil_iff] at hnil
  rw [hnil.2] at hparts
  exact h.nonempty hparts.symm

theorem Reaches.init (h : Reaches disk text directory (path ++ [name])) (hne : path ≠ []) :
    ∃ above top, HostPath.starts text = above ++ [top, text] ∧ Reaches disk top directory path := by
  obtain ⟨above, top, hstart, htop⟩ := h.approaches.init hne
  refine ⟨above, top, hstart, htop, hne, (canonical_append.mp h.canonical).1, ?_, ?_⟩
  . exact fun other hother => h.short other (List.mem_append_left _ hother)
  . apply h.plain.of_prefix
    rw [List.prefix_append_right_inj]
    exact List.prefix_append path [name]

theorem Reaches.text_ne_empty (h : Reaches disk text directory path) : text ≠ "" :=
  (checkText_eq_ok_iff.mp h.approaches.checked).2.1

theorem Reaches.isDirectoryAt (h : Reaches disk text directory path) (hdisk : disk.WellFormed) :
    disk.IsDirectoryAt directory :=
  h.approaches.isDirectoryAt hdisk

section lookup

variable {last : LastName}

theorem Reaches.findWith_through (h : Reaches disk text directory (front ++ name :: rest))
    (hdisk : disk.WellFormed) (hlast : last.directory = false)
    (hdirectory : disk.IsDirectoryAt (directory ++ front)) :
    ∃ expand more, (more = [] ↔ rest = []) ∧
      disk.findWith last text = disk.follow expand last (directory ++ front) (name :: more) := by
  obtain ⟨expand, parts, final, hparts, hfind⟩ := h.approaches.findWith (by simp) last
  have hfinal : final ≠ "." := (h.canonical final (by simp [← hparts])).notDot
  have hall : (parts ++ [final]).filter (· ≠ ".") = front ++ name :: rest := by
    rw [List.filter_append, List.filter_cons_of_pos (by simpa using hfinal)]
    exact hparts
  rw [List.filter_eq_append_iff] at hall
  obtain ⟨before, behind, hsplit, hbefore, hbehind⟩ := hall
  rw [List.filter_eq_cons_iff] at hbehind
  obtain ⟨dots, more, rfl, hdots, _, hmore⟩ := hbehind
  refine ⟨expand, more, ?_, ?_⟩
  . constructor
    . rintro rfl
      exact hmore.symm
    . rintro rfl
      by_contra hne
      obtain ⟨init, found, rfl⟩ := List.eq_nil_or_concat' more |>.resolve_left hne
      have hsame : final = found := by
        have hends : parts ++ [final] = (before ++ dots ++ name :: init) ++
            [found] := by simpa using hsplit
        simpa using List.append_inj_right' hends rfl
      rw [List.filter_append, ← hsame, List.filter_cons_of_pos (by simpa using hfinal)] at hmore
      simp at hmore
  . have hcanonical := h.canonical
    rw [← hbefore] at hcanonical hdirectory ⊢
    have hshort : Short (before.filter (· ≠ ".")) := by
      intro other hother
      rw [hbefore] at hother
      exact h.short other (List.mem_append_left _ hother)
    have honlyDots : ∀ part ∈ dots, part = "." := fun part hpart => by simpa using hdots part hpart
    rw [hfind, hsplit,
      follow_directories hdisk (canonical_append.mp hcanonical).1 hshort hlast hdirectory,
      follow_skip_dots honlyDots]

theorem Reaches.findWith_of_get? (h : Reaches disk text directory path) (hdisk : disk.WellFormed)
    (hlast : last.directory = false) {node : Node}
    (hnode : disk.nodes.get? (directory ++ path) = some node) :
    disk.findWith last text = .ok (.taken (directory ++ path) node) := by
  obtain ⟨init, name, rfl⟩ := List.eq_nil_or_concat' path |>.resolve_left h.nonempty
  rw [← List.append_assoc] at hnode ⊢
  apply h.approaches.findWith_of_get? hdisk h.canonical h.short hlast _ hnode
  rintro target modified rfl
  apply h.plain _ target modified List.prefix_rfl
  rw [← List.append_assoc]
  exact hnode

theorem Reaches.findWith_missing (h : Reaches disk text directory (front ++ name :: rest))
    (hdisk : disk.WellFormed) (hlast : last.directory = false)
    (hdirectory : disk.IsDirectoryAt (directory ++ front))
    (hnone : disk.nodes.get? (directory ++ front ++ [name]) = none) :
    disk.findWith last text =
      if rest = [] then .ok (.free (directory ++ front) name) else .error .notFound := by
  obtain ⟨expand, more, hmore, hfind⟩ := h.findWith_through hdisk hlast hdirectory
  have hname : IsName name := h.canonical name (by simp)
  rw [hfind, follow_isName hname (h.short name (by simp)) hlast, hnone]
  simp only [hmore]

theorem Reaches.findWith_file (h : Reaches disk text directory (front ++ name :: rest))
    (hdisk : disk.WellFormed) (hlast : last.directory = false) (hrest : rest ≠ []) {id : Nat}
    (hnode : disk.nodes.get? (directory ++ front ++ [name]) = some (.file id)) :
    disk.findWith last text = .error .notDirectory := by
  obtain ⟨expand, more, hmore, hfind⟩ := h.findWith_through hdisk hlast (hdisk.parent _ _ _ hnode)
  have hname : IsName name := h.canonical name (by simp)
  rw [hfind, follow_isName hname (h.short name (by simp)) hlast, hnode]
  simp [hmore, hrest]

theorem Reaches.findWith_below_file (h : Reaches disk text directory path) (hdisk : disk.WellFormed)
    (hlast : last.directory = false) (hfile : (disk.contentsAt []).FileAbove (directory ++ path)) :
    disk.findWith last text = .error .notDirectory := by
  obtain ⟨above, data, hbelow, hcontent⟩ := hfile
  obtain ⟨id, hnode, _⟩ := contentsAt_eq_file_iff.mp hcontent
  rw [List.nil_append] at hnode
  have hnot : ¬ above <+: directory := by
    intro hpre
    obtain ⟨modified, hdirectory⟩ := hdisk.directory_of_prefix (h.isDirectoryAt hdisk) hpre
    rw [hdirectory] at hnode
    cases hnode
  rcases prefix_or_prefix_of_append hbelow.1 with hpre | ⟨between, rfl⟩
  . exact absurd hpre hnot
  . have hne : between ≠ [] := by
      rintro rfl
      rw [List.append_nil] at hnot
      exact hnot List.prefix_rfl
    obtain ⟨front, name, rfl⟩ := List.eq_nil_or_concat' between |>.resolve_left hne
    rw [below_append_iff] at hbelow
    obtain ⟨rest, rfl⟩ := hbelow.1
    have hrest : rest ≠ [] := by
      rintro rfl
      exact hbelow.2 (List.append_nil _).symm
    rw [List.append_assoc, List.singleton_append] at h
    rw [← List.append_assoc] at hnode
    exact h.findWith_file hdisk hlast hrest hnode

end lookup

theorem isDirectory_iff_findWith :
    disk.isDirectory text ↔
      ∃ found modified,
        disk.findWith ⟨true, false, false⟩ text = .ok (.taken found (.directory modified)) := by
  have hslash : ∀ slash slash' found modified,
      disk.findWith ⟨true, slash, false⟩ text = .ok (.taken found (.directory modified)) →
        disk.findWith ⟨true, slash', false⟩ text = .ok (.taken found (.directory modified)) := by
    intro slash slash' found modified hfind
    have hcheck := checkText_of_findWith hfind
    unfold findWith at hfind ⊢
    rw [hcheck] at hfind ⊢
    rw [← List.append_nil (names text)] at hfind
    exact followLinks_without_dots slash' (by simp) hfind
  constructor
  . intro hdirectory
    unfold isDirectory metadata at hdirectory
    cases hfind : disk.find text with
    | error error =>
      rw [hfind] at hdirectory
      cases hdirectory
    | ok spot =>
      rw [hfind] at hdirectory
      cases spot with
      | free location name => cases hdirectory
      | taken location node =>
        have hsame := isDirectory_of_find hfind
        unfold isDirectory metadata at hsame
        rw [hfind] at hsame
        rw [hsame] at hdirectory
        cases node with
        | directory modified => exact ⟨location, modified, hslash _ _ location modified hfind⟩
        | file id => cases hdirectory
        | link target modified => cases hdirectory
  . rintro ⟨found, modified, hfind⟩
    have hfound : disk.find text = .ok (.taken found (.directory modified)) :=
      hslash _ _ found modified hfind
    exact isDirectory_of_find hfound

theorem exists_missing (hdirectory : disk.IsDirectoryAt directory)
    (hplain : disk.Plain (directory ++ path))
    (hfile : ¬ (disk.contentsAt []).FileAbove (directory ++ path))
    (hnone : disk.nodes.get? (directory ++ path) = none) :
    ∃ front name rest, path = front ++ name :: rest ∧ disk.IsDirectoryAt (directory ++ front) ∧
      disk.nodes.get? (directory ++ front ++ [name]) = none := by
  induction path using List.reverseRecOn with
  | nil =>
    obtain ⟨modified, hnode⟩ := hdirectory
    rw [List.append_nil, hnode] at hnone
    cases hnone
  | append_singleton path last ih =>
    have hbelow : Below (directory ++ path) (directory ++ (path ++ [last])) := by
      rw [← List.append_assoc]
      exact below_append (by simp)
    cases hnode : disk.nodes.get? (directory ++ path) with
    | none =>
      have habove : ¬ (disk.contentsAt []).FileAbove (directory ++ path) := by
        rintro ⟨above, data, habove, hcontent⟩
        exact hfile ⟨above, data, habove.trans hbelow.1, hcontent⟩
      obtain ⟨front, name, rest, rfl, hfound⟩ := ih (hplain.of_prefix hbelow.1) habove hnode
      exact ⟨front, name, rest ++ [last], by simp, hfound⟩
    | some node =>
      cases node with
      | directory modified =>
        rw [← List.append_assoc] at hnone
        exact ⟨path, last, [], rfl, ⟨modified, hnode⟩, hnone⟩
      | file id => exact absurd ⟨_, _, hbelow, contentsAt_eq_file_iff.mpr ⟨id, hnode, rfl⟩⟩ hfile
      | link target modified => exact absurd hnode (hplain _ target modified hbelow.1)

theorem Reaches.findWith_of_none (h : Reaches disk text directory path) (hdisk : disk.WellFormed)
    {last : LastName} (hlast : last.directory = false)
    (hnone : disk.nodes.get? (directory ++ path) = none) (found : Location) (node : Node) :
    disk.findWith last text ≠ .ok (.taken found node) := by
  by_cases hfile : (disk.contentsAt []).FileAbove (directory ++ path)
  . rw [h.findWith_below_file hdisk hlast hfile]
    simp
  . obtain ⟨front, name, rest, rfl, hdirectory, hmissing⟩ :=
      exists_missing (h.isDirectoryAt hdisk) h.plain hfile hnone
    rw [h.findWith_missing hdisk hlast hdirectory hmissing]
    split
    all_goals simp

theorem Reaches.isDirectory_iff (h : Reaches disk text directory path) (hdisk : disk.WellFormed) :
    disk.isDirectory text ↔ disk.contentsAt [] (directory ++ path) = some .directory := by
  rw [isDirectory_iff_findWith, contentsAt_eq_directory_iff]
  constructor
  . rintro ⟨found, modified, hfind⟩
    cases hnode : disk.nodes.get? (directory ++ path) with
    | none => exact absurd hfind (h.findWith_of_none hdisk rfl hnode found _)
    | some node =>
      rw [h.findWith_of_get? hdisk rfl hnode] at hfind
      cases hfind
      exact ⟨modified, hnode⟩
  . rintro ⟨modified, hnode⟩
    exact ⟨_, modified, h.findWith_of_get? hdisk rfl hnode⟩

structure GrowsTo (old : Disk) (contents : Contents) (new : Disk) : Prop where
  grows : old.Grows new
  contents : new.contentsAt [] = contents
  alone : ∀ place, old.Alone place → new.Alone place

theorem GrowsTo.refl (h : disk.WellFormed) : GrowsTo disk (disk.contentsAt []) disk :=
  ⟨.refl h, rfl, fun _ halone => halone⟩

theorem GrowsTo.contentsAt (h : GrowsTo disk contents made) (location : Location) :
    made.contentsAt location = contents.under location :=
  congrArg (Contents.under · location) h.contents

theorem growsTo_addDirectory (hmade : GrowsTo disk contents made)
    (hdirectory : made.IsDirectoryAt place)
    (hgrows : disk.Grows (made.addNode (place ++ [name]) (.directory made.clock))) :
    GrowsTo disk (contents.putDirectory (place ++ [name]))
      (made.addNode (place ++ [name]) (.directory made.clock)) := by
  refine ⟨hgrows, ?_, fun other halone =>
    (hmade.alone other halone).addDirectory (place ++ [name]) made.clock⟩
  have hcontent : made.contentsAt [] place = some .directory :=
    contentsAt_eq_directory_iff.mpr hdirectory
  rw [← hmade.contents]
  exact contentsAt_addDirectory (isTree_contentsAt hmade.grows.wellFormed []) hcontent
    name made.clock

theorem Reaches.createDirectories_there (h : Reaches disk text directory path)
    (hdisk : disk.WellFormed)
    (hdirectory : disk.contentsAt [] (directory ++ path) = some .directory) :
    (createDirectories text).outcome disk = (.ok (), disk) := by
  obtain ⟨modified, hnode⟩ := contentsAt_eq_directory_iff.mp hdirectory
  unfold createDirectories
  rw [go_of_taken h.text_ne_empty (h.findWith_of_get? hdisk rfl hnode)]
  exact if_pos ((h.isDirectory_iff hdisk).mpr hdirectory)

theorem Reaches.createDirectories_free (h : Reaches disk text directory (path ++ [name]))
    (hdisk : disk.WellFormed) (hdirectory : disk.IsDirectoryAt (directory ++ path))
    (hnone : disk.nodes.get? (directory ++ path ++ [name]) = none) :
    (createDirectories text).outcome disk =
      (.ok (), disk.addNode (directory ++ path ++ [name]) (.directory disk.clock)) := by
  have hplace : disk.findPlace text = .ok (.free (directory ++ path) name) :=
    h.findWith_missing hdisk rfl hdirectory hnone
  exact go_of_free h.text_ne_empty hplace

theorem Reaches.createDirectories_missing (h : Reaches disk text directory (path ++ [name]))
    (hdisk : disk.WellFormed) (hnone : disk.nodes.get? (directory ++ path) = none)
    (hfile : ¬ (disk.contentsAt []).FileAbove (directory ++ path)) {above : List String}
    {top : String} (hstarts : HostPath.starts text = above ++ [top, text])
    (htop : Reaches disk top directory path)
    (hmade : (createDirectories top).outcome disk = (.ok (), made)) (hgrows : disk.Grows made)
    (hdirectory : made.IsDirectoryAt (directory ++ path))
    (hmadeNone : made.nodes.get? (directory ++ path ++ [name]) = none) :
    (createDirectories text).outcome disk =
      (.ok (), made.addNode (directory ++ path ++ [name]) (.directory made.clock)) := by
  obtain ⟨front, first, rest, rfl, hfront, hmissing⟩ :=
    exists_missing (h.isDirectoryAt hdisk) htop.plain hfile hnone
  have hplace : disk.findPlace text = .error .notFound := by
    have hreaches := h
    rw [List.append_assoc, List.cons_append] at hreaches
    unfold findPlace
    rw [hreaches.findWith_missing hdisk rfl hfront hmissing, if_neg (by simp)]
  have hagain : made.findPlace text = .ok (.free (directory ++ (front ++ first :: rest)) name) :=
    (h.of_grows hgrows).findWith_missing hgrows.wellFormed rfl hdirectory hmadeNone
  unfold createDirectories at hmade ⊢
  rw [HostPath.parents_of_leads hstarts]
  exact go_of_missing h.text_ne_empty hplace hmade hagain

theorem Reaches.exists_createDirectories (h : Reaches disk text directory path)
    (hdisk : disk.WellFormed) (hput : (disk.contentsAt []).CanPutDirectory (directory ++ path)) :
    ∃ new, (createDirectories text).outcome disk = (.ok (), new) ∧
      GrowsTo disk ((disk.contentsAt []).putDirectory (directory ++ path)) new := by
  have htree := isTree_contentsAt hdisk []
  -- Induction along the path: the directory that holds the new one is made first, if it is missing.
  induction path using List.reverseRecOn generalizing text with
  | nil => exact absurd rfl h.nonempty
  | append_singleton path name ih =>
    have hgrows := createDirectories_grows hdisk text
    have hplain := h.plain
    rw [← List.append_assoc] at hput hplain ⊢
    have hputInit := Contents.not_fileAbove_concat_iff.mp hput.2
    cases hnode : disk.nodes.get? (directory ++ path ++ [name]) with
    | some node =>
      have hdirectory : disk.contentsAt [] (directory ++ path ++ [name]) = some .directory := by
        rw [contentsAt_eq_directory_iff]
        cases node with
        | directory modified => exact ⟨modified, hnode⟩
        | file id => exact absurd (contentsAt_eq_file_iff.mpr ⟨id, hnode, rfl⟩) (hput.1 _)
        | link target modified => exact absurd hnode (hplain _ target modified List.prefix_rfl)
      rw [htree.putDirectory_eq_self hdirectory]
      rw [List.append_assoc] at hdirectory
      exact ⟨disk, h.createDirectories_there hdisk hdirectory, .refl hdisk⟩
    | none =>
      cases habove : disk.nodes.get? (directory ++ path) with
      | some above =>
        have hdirectory : disk.IsDirectoryAt (directory ++ path) := by
          cases above with
          | directory modified => exact ⟨modified, habove⟩
          | file id => exact absurd (contentsAt_eq_file_iff.mpr ⟨id, habove, rfl⟩) (hputInit.1 _)
          | link target modified =>
            exact absurd habove (hplain _ target modified (List.prefix_append _ _))
        have hrun := h.createDirectories_free hdisk hdirectory hnode
        rw [hrun] at hgrows
        exact ⟨_, hrun, growsTo_addDirectory (.refl hdisk) hdirectory hgrows⟩
      | none =>
        have hnil : path ≠ [] := by
          rintro rfl
          obtain ⟨modified, hdirectory⟩ := h.isDirectoryAt hdisk
          rw [List.append_nil, hdirectory] at habove
          cases habove
        obtain ⟨above, top, hstarts, htop⟩ := h.init hnil
        obtain ⟨made, hmade, hmadeGrows⟩ := ih htop hputInit
        have hdirectory : made.contentsAt [] (directory ++ path) = some .directory := by
          rw [hmadeGrows.contents]
          exact if_pos List.prefix_rfl
        -- Making the directories above the new one does not make the new one itself.
        have hnone : made.contentsAt [] (directory ++ path ++ [name]) = none := by
          have hbelow : Below (directory ++ path) (directory ++ path ++ [name]) :=
            below_append (by simp)
          rw [hmadeGrows.contents]
          exact (if_neg hbelow.not_prefix).trans (contentsAt_eq_none_iff.mpr hnode)
        have hmadeDirectory : made.IsDirectoryAt (directory ++ path) :=
          contentsAt_eq_directory_iff.mp hdirectory
        have hrun :=
          h.createDirectories_missing hdisk habove hputInit.2 hstarts htop hmade hmadeGrows.grows
          hmadeDirectory (contentsAt_eq_none_iff.mp hnone)
        rw [hrun] at hgrows
        have hgrowsTo := growsTo_addDirectory hmadeGrows hmadeDirectory hgrows
        rw [Contents.putDirectory_putDirectory _ (List.prefix_append _ _)] at hgrowsTo
        exact ⟨_, hrun, hgrowsTo⟩

theorem Reaches.createDirectories_refused (h : Reaches disk text directory path)
    (hdisk : disk.WellFormed) (hput : ¬ (disk.contentsAt []).CanPutDirectory (directory ++ path)) :
    ∃ error, (createDirectories text).outcome disk = (.error error, disk) := by
  have hdirectory : disk.isDirectory text = false := by
    rw [← Bool.not_eq_true, h.isDirectory_iff hdisk]
    exact fun hdirectory => hput ((isTree_contentsAt hdisk []).canPutDirectory hdirectory)
  unfold createDirectories
  by_cases hfile : (disk.contentsAt []).FileAbove (directory ++ path)
  . have hplace : disk.findPlace text = .error .notDirectory :=
      h.findWith_below_file hdisk rfl hfile
    exact ⟨_, go_of_error h.text_ne_empty hplace (by simp) hdirectory⟩
  . have hthere : ∃ data, disk.contentsAt [] (directory ++ path) = some (.file data) := by
      by_contra hnot
      exact hput ⟨not_exists.mp hnot, hfile⟩
    obtain ⟨data, hcontent⟩ := hthere
    obtain ⟨id, hnode, _⟩ := contentsAt_eq_file_iff.mp hcontent
    refine ⟨.alreadyExists, ?_⟩
    rw [go_of_taken h.text_ne_empty (h.findWith_of_get? hdisk rfl hnode),
      if_neg (by simp [hdirectory])]

theorem Reaches.exists_createParents (h : Reaches disk text directory (path ++ [name]))
    (hdisk : disk.WellFormed) (hput : (disk.contentsAt []).CanPutDirectory (directory ++ path)) :
    ∃ made, (createParents text).outcome disk = (.ok (), made) ∧
      GrowsTo disk ((disk.contentsAt []).putDirectory (directory ++ path)) made := by
  by_cases hnil : path = []
  . subst hnil
    refine ⟨disk, h.approaches.createParents_there hdisk, ?_⟩
    rw [List.append_nil, (isTree_contentsAt hdisk []).putDirectory_eq_self]
    . exact .refl hdisk
    . exact contentsAt_eq_directory_iff.mpr (h.isDirectoryAt hdisk)
  . obtain ⟨above, top, hstarts, htop⟩ := h.init hnil
    rw [createParents_of_parents (HostPath.parents_of_leads hstarts)]
    exact htop.exists_createDirectories hdisk hput

theorem Reaches.createParents_refused (h : Reaches disk text directory (path ++ [name]))
    (hdisk : disk.WellFormed) (hput : ¬ (disk.contentsAt []).CanPutDirectory (directory ++ path)) :
    ∃ error, (createParents text).outcome disk = (.error error, disk) := by
  have hnil : path ≠ [] := by
    rintro rfl
    apply hput
    rw [List.append_nil]
    apply (isTree_contentsAt hdisk []).canPutDirectory
    exact contentsAt_eq_directory_iff.mpr (h.isDirectoryAt hdisk)
  obtain ⟨above, top, hstarts, htop⟩ := h.init hnil
  rw [createParents_of_parents (HostPath.parents_of_leads hstarts)]
  exact htop.createDirectories_refused hdisk hput

end Disk

end LakeStore
