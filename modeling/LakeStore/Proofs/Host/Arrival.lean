import LakeStore.Proofs.Host.Place

/-!
Entries come to their host paths in calls and in transfers: each is put into what the disk holds, or
left out with an error when something is in its way, and then nothing is changed.
-/

namespace LakeStore

open StorePath

namespace Disk

variable {disk made new : Disk} {text source : String} {directory place : Location}
  {path : StorePath} {name : String} {contents other : Contents}

theorem GrowsTo.trans (h : GrowsTo disk contents made) (hnew : GrowsTo made other new) :
    GrowsTo disk other new :=
  ⟨h.grows.trans hnew.grows, hnew.contents, fun place halone =>
    hnew.alone place (h.alone place halone)⟩

theorem Reaches.createParents_there (h : Reaches disk text directory (path ++ [name]))
    (hdisk : disk.WellFormed)
    (hdirectory : disk.contentsAt [] (directory ++ path) = some .directory) :
    (createParents text).outcome disk = (.ok (), disk) := by
  by_cases hnil : path = []
  . subst hnil
    exact h.approaches.createParents_there hdisk
  . obtain ⟨above, top, hstarts, htop⟩ := h.init hnil
    rw [createParents_of_parents (HostPath.parents_of_leads hstarts)]
    exact htop.createDirectories_there hdisk hdirectory

theorem Reaches.exists_openForWriting (h : Reaches disk text directory (path ++ [name]))
    (hdisk : disk.WellFormed) (halone : disk.Alone (directory ++ path ++ [name]))
    (hdirectory : disk.IsDirectoryAt (directory ++ path))
    (hnot : disk.contentsAt [] (directory ++ path ++ [name]) ≠ some .directory) :
    ∃ id opened, (openForWriting text).outcome disk = (.ok id, opened) ∧
      opened.nodes.get? (directory ++ path ++ [name]) = some (.file id) ∧
      GrowsTo disk (fun key =>
        if key = directory ++ path ++ [name] then some (.file ByteArray.empty)
        else disk.contentsAt [] key) opened := by
  have hgrows := openForWriting_grows hdisk text
  have hplain := h.plain
  rw [← List.append_assoc] at hplain
  rw [openForWriting_outcome] at hgrows ⊢
  unfold findForFile at hgrows ⊢
  rw [h.noSlash] at hgrows ⊢
  cases hnode : disk.nodes.get? (directory ++ path ++ [name]) with
  | none =>
    rw [h.findWith_missing hdisk rfl hdirectory hnode, if_pos rfl] at hgrows ⊢
    refine ⟨disk.files.size, _, rfl, PathMap.get?_insert_self _ _ _, hgrows, ?_, ?_⟩
    . exact contentsAt_addFile hdisk [] (directory ++ path ++ [name]) ⟨ByteArray.empty, disk.clock⟩
    . exact fun other hother =>
        hother.addFile hdisk (directory ++ path ++ [name]) ⟨ByteArray.empty, disk.clock⟩
  | some node =>
    have hfind : disk.findWith ⟨true, false, true⟩ text =
        .ok (.taken (directory ++ path ++ [name]) node) := by
      rw [List.append_assoc] at hnode ⊢
      exact h.findWith_of_get? hdisk rfl hnode
    rw [hfind] at hgrows ⊢
    cases node with
    | directory modified => exact absurd (contentsAt_eq_directory_iff.mpr ⟨modified, hnode⟩) hnot
    | link target modified => exact absurd hnode (hplain _ target modified List.prefix_rfl)
    | file id =>
      refine ⟨id, _, rfl, hnode, hgrows, ?_, fun _ hother => hother⟩
      exact contentsAt_modifyFile hdisk halone hnode _ fun _ _ => rfl

structure Opens (disk : Disk) (full : String) (made : Disk) (id : Nat) (opened : Disk) : Prop where
  parents : (createParents full).outcome disk = (.ok (), made)
  notDirectory : made.isDirectory full = false
  opening : (openForWriting full).outcome made = (.ok id, opened)

structure OpensAt (disk : Disk) (text : String) (place : Location) (made : Disk) (id : Nat)
    (opened : Disk) : Prop where
  opens : disk.Opens text made id opened
  parents : disk.Grows made
  empty : GrowsTo disk ((disk.contentsAt []).put place ByteArray.empty) opened
  written : ∀ data,
    GrowsTo disk ((disk.contentsAt []).put place data) ((writeAt id 0 data).run opened).2

theorem Reaches.exists_opened (h : Reaches disk text directory path) (hdisk : disk.WellFormed)
    (halone : disk.Alone (directory ++ path))
    (hput : (disk.contentsAt []).CanPut (directory ++ path)) :
    ∃ made id opened, OpensAt disk text (directory ++ path) made id opened := by
  obtain ⟨path, name, rfl⟩ := List.eq_nil_or_concat' path |>.resolve_left h.nonempty
  rw [← List.append_assoc] at hput halone ⊢
  obtain ⟨made, hparents, hmade⟩ :=
    h.exists_createParents hdisk (Contents.not_fileAbove_concat_iff.mp hput.2)
  have hreaches := h.of_grows hmade.grows
  have hdirectory : made.contentsAt [] (directory ++ path) = some .directory := by
    rw [hmade.contents]
    exact if_pos List.prefix_rfl
  have hnot : made.contentsAt [] (directory ++ path ++ [name]) ≠ some .directory := by
    have hbelow : Below (directory ++ path) (directory ++ path ++ [name]) := below_append (by simp)
    rw [hmade.contents]
    exact (if_neg hbelow.not_prefix).trans_ne hput.1
  have hmadeAlone := hmade.alone _ halone
  obtain ⟨id, opened, hopen, hnode, hopened⟩ :=
    hreaches.exists_openForWriting hmade.grows.wellFormed hmadeAlone
    (contentsAt_eq_directory_iff.mp hdirectory) hnot
  have hfile : made.isDirectory text = false := by
    rw [← Bool.not_eq_true, hreaches.isDirectory_iff hmade.grows.wellFormed, ← List.append_assoc]
    exact hnot
  have hput : GrowsTo disk ((disk.contentsAt []).put (directory ++ path ++ [name]) ByteArray.empty)
      opened := by
    have htrans := hmade.trans hopened
    rw [hmade.contents, Contents.putDirectory_put] at htrans
    exact htrans
  refine ⟨made, id, opened, ⟨hparents, hfile, hopen⟩, hmade.grows, hput, ?_⟩
  intro data
  have hempty : opened.contentsAt [] (directory ++ path ++ [name]) =
      some (.file ByteArray.empty) := by
    rw [hput.contents]
    exact if_pos rfl
  have hopenedAlone := hput.alone _ halone
  refine ⟨hput.grows.trans (writeAt_grows hput.grows.wellFormed id 0 data), ?_, hput.alone⟩
  rw [contentsAt_writeAt hput.grows.wellFormed hopenedAlone hnode hempty, hput.contents]
  exact Contents.put_again _ _ ByteArray.empty data

theorem Reaches.openForWriting_refused (h : Reaches disk text directory path)
    (hdisk : disk.WellFormed)
    (hdirectory : disk.contentsAt [] (directory ++ path) = some .directory) :
    (openForWriting text).outcome disk = (.error .isDirectory, disk) := by
  obtain ⟨modified, hnode⟩ := contentsAt_eq_directory_iff.mp hdirectory
  rw [openForWriting_outcome]
  unfold findForFile
  rw [h.noSlash, h.findWith_of_get? hdisk rfl hnode]

theorem Reaches.not_canPut (h : Reaches disk text directory path) (hdisk : disk.WellFormed)
    (hput : ¬ (disk.contentsAt []).CanPut (directory ++ path)) :
    (∃ error, (createParents text).outcome disk = (.error error, disk)) ∨
      (createParents text).outcome disk = (.ok (), disk) ∧
        disk.contentsAt [] (directory ++ path) = some .directory := by
  obtain ⟨path, name, rfl⟩ := List.eq_nil_or_concat' path |>.resolve_left h.nonempty
  have htree := isTree_contentsAt hdisk []
  by_cases hdirectory : disk.contentsAt [] (directory ++ (path ++ [name])) = some .directory
  . have habove : Below (directory ++ path) (directory ++ (path ++ [name])) := by
      rw [← List.append_assoc]
      exact below_append (by simp)
    have hparent := htree.closed _ _ (by simp [hdirectory]) habove
    exact .inr ⟨h.createParents_there hdisk hparent, hdirectory⟩
  . apply Or.inl
    apply h.createParents_refused hdisk
    intro hparent
    apply hput
    refine ⟨hdirectory, ?_⟩
    rw [← List.append_assoc]
    exact Contents.not_fileAbove_concat_iff.mpr hparent

theorem Reaches.below (h : Reaches disk text directory path) {rest : StorePath}
    (hrest : rest.Canonical) (hshort : Short rest)
    (hchecked : checkText (HostPath.below text rest) = .ok ())
    (hplain : disk.Plain (directory ++ (path ++ rest))) :
    Reaches disk (HostPath.below text rest) directory (path ++ rest) := by
  by_cases hnil : rest = []
  . rw [hnil, List.append_nil]
    exact h
  . have hne := h.text_ne_empty
    obtain ⟨front, parts, modified, hnames, hparts, hfollow⟩ := h.approaches.leads
    refine ⟨⟨hchecked, HostPath.exists_starts_below hne hrest hnil, front, parts ++ rest, modified,
      ?_, ?_, ?_⟩, by simp [h.nonempty], canonical_append.mpr ⟨h.canonical, hrest⟩, ?_, hplain⟩
    . rw [HostPath.names_below hne hrest, hnames, List.append_assoc]
    . rw [List.filter_append, hparts, hrest.filter_dots]
    . rw [start_below hne hrest]
      exact hfollow
    . intro name hname
      rw [List.mem_append] at hname
      exact hname.elim (h.short name) (hshort name)

theorem reaches_below {modified : Time}
    (hfind : disk.find text = .ok (.taken place (.directory modified))) {rest : StorePath}
    (hrest : rest.Canonical) (hne : rest ≠ []) (hshort : Short rest)
    (hchecked : checkText (HostPath.below text rest) = .ok ())
    (hplain : disk.Plain (place ++ rest)) :
    Reaches disk (HostPath.below text rest) place rest := by
  have htext : text ≠ "" := (checkText_eq_ok_iff.mp (checkText_of_findWith hfind)).2.1
  have hfollow := followLinks_of_find hfind
  rw [← List.append_nil (names text)] at hfollow
  refine ⟨⟨hchecked, HostPath.exists_starts_below htext hrest hne, names text, rest, modified,
    ?_, ?_, ?_⟩, hne, hrest, hshort, hplain⟩
  . exact HostPath.names_below htext hrest
  . exact hrest.filter_dots
  . rw [start_below htext hrest]
    exact followLinks_without_dots false (by simp) hfollow

inductive Arrives (disk : Disk) (text : String) : Location → Prop where
  | here {place : Location} {modified : Time} (hfind : disk.find text =
    .ok (.taken place (.directory modified))) :
    Arrives disk text place
  | named {directory : Location} {path : StorePath} (h : Reaches disk text directory path) :
    Arrives disk text (directory ++ path)

theorem Arrives.of_grows (h : Arrives disk text place) (hgrows : disk.Grows made) :
    Arrives made text place := by
  cases h with
  | here hfind => exact .here (findWith_keeps hgrows.keeps hgrows.here hfind)
  | named h => exact .named (h.of_grows hgrows)

theorem Arrives.below (h : Arrives disk text place) {rest : StorePath} (hrest : rest.Canonical)
    (hshort : Short rest) (hchecked : checkText (HostPath.below text rest) = .ok ())
    (hplain : disk.Plain (place ++ rest)) :
    Arrives disk (HostPath.below text rest) (place ++ rest) := by
  cases h with
  | named h =>
    rw [List.append_assoc] at hplain ⊢
    exact .named (h.below hrest hshort hchecked hplain)
  | here hfind =>
    by_cases hnil : rest = []
    . rw [hnil, List.append_nil]
      exact .here hfind
    . exact .named (reaches_below hfind hrest hnil hshort hchecked hplain)

theorem directory_of_find (hdisk : disk.WellFormed) {modified : Time}
    (hfind : disk.find text = .ok (.taken place (.directory modified))) :
    disk.contentsAt [] place = some .directory :=
  contentsAt_eq_directory_iff.mpr ⟨modified, findWith_holds hdisk hfind⟩

theorem Arrives.exists_createDirectories (h : Arrives disk text place) (hdisk : disk.WellFormed)
    (hput : (disk.contentsAt []).CanPutDirectory place) :
    ∃ new, (createDirectories text).outcome disk = (.ok (), new) ∧
      GrowsTo disk ((disk.contentsAt []).putDirectory place) new := by
  cases h with
  | named h => exact h.exists_createDirectories hdisk hput
  | here hfind =>
    have hchecked := checkText_of_findWith hfind
    have hdirectory := directory_of_find hdisk hfind
    obtain ⟨_, entry, node, hplace⟩ :=
      find_start hfind hchecked rfl (List.append_nil _).symm (by simp)
    refine ⟨disk, ?_, ?_⟩
    . unfold createDirectories
      rw [go_of_taken (checkText_eq_ok_iff.mp hchecked).2.1 hplace]
      exact if_pos (isDirectory_of_find hfind)
    . rw [(isTree_contentsAt hdisk []).putDirectory_eq_self hdirectory]
      exact .refl hdisk

theorem Arrives.createDirectories_refused (h : Arrives disk text place) (hdisk : disk.WellFormed)
    (hput : ¬ (disk.contentsAt []).CanPutDirectory place) :
    ∃ error, (createDirectories text).outcome disk = (.error error, disk) := by
  cases h with
  | named h => exact h.createDirectories_refused hdisk hput
  | here hfind =>
    exact absurd ((isTree_contentsAt hdisk []).canPutDirectory (directory_of_find hdisk hfind)) hput

end Disk

end LakeStore
