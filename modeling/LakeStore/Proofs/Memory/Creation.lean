import LakeStore.Proofs.Memory.Listing

/-!
What the file system tells after a creation in memory. A file that was created is told of. A
directory above it is told of as well, unless it was there already and about to be deleted: the
store keeps such an entry as it is, and an entry without a time counts as absent.
-/

namespace LakeStore

open StorePath

namespace Memory

def Tree.pending (tree : Tree) (path : StorePath) : Bool :=
  (tree.get? path).any fun node => node.modified.isNone

def Tree.shown? (tree : Tree) (path : StorePath) : Option EntryType :=
  (Probe.ofEntry (tree.entryAt? path)).type?

def Tree.directoryShown? (tree : Tree) (path : StorePath) : Option EntryType :=
  if tree.pending path then none else some .directory

namespace Tree

variable {tree : Tree} {path : StorePath}

theorem shown?_of_directory (h : tree.contents path = some .directory) :
    tree.shown? path = tree.directoryShown? path := by
  obtain ⟨modified, hnode⟩ := contents_eq_directory_iff.mp h
  unfold shown? directoryShown? pending Tree.entryAt?
  rw [hnode]
  cases modified <;> rfl

theorem shown?_of_file {data : ByteArray} (h : tree.contents path = some (.file data))
    (hpending : tree.pending path = false) : tree.shown? path = some .file := by
  obtain ⟨modified, hnode⟩ := contents_eq_file_iff.mp h
  unfold pending at hpending
  unfold shown? Tree.entryAt?
  rw [hnode] at hpending ⊢
  cases modified with
  | none => cases hpending
  | some time => rfl

theorem pending_insert_addParents (tree : Tree) (now : Time) {path other : StorePath} (node : Node)
    (h : other ≠ path) :
    Tree.pending ((tree.addParents now path).insert path node) other = tree.pending other := by
  unfold pending
  rw [PathMap.get?_insert, if_neg h, get?_addParents]
  split
  . cases tree.get? other <;> rfl
  . rfl

theorem pending_createDirectory {now : Time} {after : Tree}
    (h : (createDirectory now path).run tree = (true, after)) (other : StorePath) :
    after.pending other = tree.pending other := by
  rw [createDirectory_run] at h
  split at h
  . cases h
    rfl
  . cases h
  . next hnone =>
    split at h
    . cases h
    . cases h
      by_cases hother : other = path
      . subst hother
        unfold pending
        rw [hnone, PathMap.get?_insert_self]
        rfl
      . exact pending_insert_addParents tree now _ hother

end Tree

end Memory

namespace MemoryClient

open Memory

/-- What is told about an address: the type of the entry there, and its status if there is one. -/
structure Tells (client : MemoryClient) (uri : RemoteUri) (type? : Option EntryType) : Prop where
  probe : (FileSystem.probe uri).outcome client = (.ok ⟨type?⟩, client)
  status : (∃ status, (FileSystem.status (some uri)).outcome client = (.ok status, client)) ↔
    type?.isSome

/-- What is told around an entry that was created, from what was about to be deleted before. -/
structure TellsAround (client : MemoryClient) (before : Tree) (path : StorePath) : Prop where
  above : ∀ above : RemoteUri, Below (ofString above.path) path →
    client.Tells above (before.directoryShown? (ofString above.path))
  listed : ∀ parent : RemoteUri, path ≠ [] → ofString parent.path = path.dropLast →
    before.pending path.dropLast = false →
      ∃ found, (FileSystem.children parent).outcome client = (.ok found, client) ∧
        (found.all.map RemoteUri.path).count path.text = 1
  unlisted : ∀ parent : RemoteUri, path ≠ [] → ofString parent.path = path.dropLast →
    before.pending path.dropLast →
      (FileSystem.children parent).outcome client =
        (.error (.storeIo "get_children" parent.text Refusal.noDirectory.message), client)

variable {client : MemoryClient} {account : String} {before : Tree} {path : StorePath}

theorem tells_shown? (client : MemoryClient) (uri : RemoteUri) :
    client.Tells uri (client.tree.shown? (ofString uri.path)) := by
  have hentry := entryAt?_outcome uri.path client
  have hstatus := FileSystem.status_of_ok hentry
  constructor
  . unfold FileSystem.probe
    rw [Step.outcome_bind_ok (FileSystem.call_of_ok hentry)]
    rfl
  . rw [hstatus]
    unfold Tree.shown?
    cases client.tree.entryAt? (ofString uri.path) with
    | none => simp [FileSystem.statusOf, Probe.ofEntry, Except.mapError]
    | some entry =>
      obtain ⟨fullName, type, modified, length⟩ := entry
      cases modified <;> simp [FileSystem.statusOf, Probe.ofEntry, Except.mapError]

theorem children_of_shown {uri : RemoteUri}
    (hdirectory : client.tree.contents (ofString uri.path) = some .directory)
    (hshown : client.tree.shown? (ofString uri.path) = some .directory) :
    (FileSystem.children uri).outcome client = (.ok ⟨client.account,
      (client.tree.children (ofString uri.path)).map fun (key, node) => node.entry key⟩,
      client) := by
  apply FileSystem.children_of_directory (entryAt?_outcome uri.path client)
  . unfold Tree.shown? at hshown
    simp [Probe.isDirectory, hshown]
  . exact list_outcome hdirectory

theorem children_of_not_shown {uri : RemoteUri}
    (hshown : client.tree.shown? (ofString uri.path) = none) :
    (FileSystem.children uri).outcome client =
      (.error (.storeIo "get_children" uri.text Refusal.noDirectory.message), client) := by
  unfold Tree.shown? at hshown
  rw [FileSystem.children_of_not_directory (entryAt?_outcome uri.path client)
    (by simp [Probe.isDirectory, hshown])]
  simp [FileSystem.notDirectory, Probe.found, hshown]

theorem paths_children (h : client.tree.contents.WellFormed) (account : String) (path : StorePath) :
    (Children.mk account ((client.tree.children path).map fun (key, node) =>
      node.entry key)).all.map RemoteUri.path =
        ((client.tree.children path).map fun (key, node) => node.entry key).map Entry.fullName := by
  unfold Children.all
  rw [List.map_map]
  apply List.map_congr_left
  intro entry hentry
  rw [List.mem_map] at hentry
  obtain ⟨⟨key, node⟩, hchild, rfl⟩ := hentry
  have hkey := PathMap.canonical_of_mem_children (Tree.canonical_of_mem_entries h) hchild
  show absolutePath (node.entry key).fullName = (node.entry key).fullName
  rw [Node.fullName_entry, absolutePath_text hkey]

theorem count_children (h : client.tree.contents.WellFormed) (account : String) {name : String}
    (hentry : client.tree.contents (path ++ [name]) ≠ none) :
    ((Children.mk account ((client.tree.children path).map fun (key, node) =>
      node.entry key)).all.map RemoteUri.path).count (path ++ [name]).text = 1 := by
  have hchild : (path ++ [name]).Canonical := h.canonical _ hentry
  rw [canonical_append] at hchild
  have hascending := (lists_children h hchild.1).ascending
  rw [paths_children h]
  apply List.count_eq_one_of_mem
  . refine hascending.imp ?_
    rintro key other hless rfl
    exact List.lt_irrefl _ hless
  . rw [ne_eq, Tree.contents_eq_none_iff] at hentry
    obtain ⟨node, hnode⟩ := Option.ne_none_iff_exists'.mp hentry
    rw [Node.map_fullName_entry, List.mem_map]
    exact ⟨(path ++ [name], node), (PathMap.mem_children_iff _ _ _ _).mpr ⟨name, rfl, hnode⟩, rfl⟩

structure Made (account : String) (client made : MemoryClient) (path : StorePath)
    (content : Content) : Prop where
  sound : made.Sound account
  content : made.tree.contents path = some content
  pending : ∀ other, other ≠ path → made.tree.pending other = client.tree.pending other

section Made

variable {made : MemoryClient} {content : Content} (h : Made account client made path content)

include h

theorem Made.above {above : StorePath} (hbelow : Below above path) :
    made.tree.contents above = some .directory ∧ made.tree.shown? above =
      client.tree.directoryShown? above := by
  have hdirectory := h.sound.tree.closed path above (by simp [h.content]) hbelow
  refine ⟨hdirectory, ?_⟩
  rw [Tree.shown?_of_directory hdirectory, Tree.directoryShown?, h.pending above hbelow.2]
  rfl

theorem Made.children {parent : RemoteUri} (hbelow : Below (ofString parent.path) path)
    (hpending : client.tree.pending (ofString parent.path) = false) :
    (FileSystem.children parent).outcome made = (.ok ⟨made.account,
      (made.tree.children (ofString parent.path)).map fun (key, node) => node.entry key⟩,
      made) := by
  obtain ⟨hdirectory, hshown⟩ := h.above hbelow
  rw [Tree.directoryShown?, hpending, if_neg (by simp)] at hshown
  exact children_of_shown hdirectory hshown

theorem Made.tellsAround : made.TellsAround client.tree path := by
  have hparent : ∀ parent : RemoteUri, path ≠ [] → ofString parent.path = path.dropLast →
      Below (ofString parent.path) path := by
    intro parent hne hpath
    rw [hpath]
    exact below_dropLast hne
  constructor
  . intro above hbelow
    rw [← (h.above hbelow).2]
    exact tells_shown? made above
  . intro parent hne hpath hnot
    rw [← hpath] at hnot
    refine ⟨_, h.children (hparent parent hne hpath) hnot, ?_⟩
    have hconcat := List.dropLast_append_getLast hne
    have hentry : made.tree.contents (path.dropLast ++ [path.getLast hne]) ≠ none := by
      rw [hconcat, h.content]
      simp
    have hcount := count_children h.sound.tree made.account hentry
    rw [hconcat] at hcount
    rw [hpath]
    exact hcount
  . intro parent hne hpath hparentPending
    obtain ⟨_, hshown⟩ := h.above (hparent parent hne hpath)
    rw [Tree.directoryShown?, hpath, if_pos hparentPending, ← hpath] at hshown
    exact children_of_not_shown hshown

end Made

theorem made_of_create (h : client.Sound account) {uri : RemoteUri} {writer : Writer}
    {made : MemoryClient} (hcreate : (FileSystem.create uri).outcome client = (.ok writer, made)) :
    Made account client made (ofString uri.path) (.file ByteArray.empty) ∧
      made.tree.pending (ofString uri.path) = false := by
  have houtcome := createFile_outcome uri.path .overwrite client
  have hsound := createFile_sound h uri.path .overwrite
  unfold FileSystem.create at hcreate
  cases hrefusal : client.tree.putRefusal? (ofString uri.path) .overwrite with
  | some error =>
    rw [hrefusal] at houtcome
    rw [FileSystem.call_of_error houtcome] at hcreate
    cases hcreate
  | none =>
    rw [hrefusal] at houtcome
    rw [FileSystem.call_of_ok houtcome] at hcreate
    rw [houtcome] at hsound
    cases hcreate
    have hnode :=
      PathMap.get?_insert_self (client.tree.addParents client.disk.clock (ofString uri.path))
      (ofString uri.path) (Node.file ByteArray.empty (some client.disk.clock))
    refine ⟨⟨hsound, ?_, ?_⟩, ?_⟩
    . exact Tree.contents_eq_file_iff.mpr ⟨_, hnode⟩
    . intro other hother
      exact Tree.pending_insert_addParents _ _ _ hother
    . rw [Tree.pending, hnode]
      rfl

theorem made_of_createDirectory (h : client.Sound account) {uri : RemoteUri} {made : MemoryClient}
    (hcreate : (FileSystem.createDirectory uri).outcome client = (.ok (), made)) :
    Made account client made (ofString uri.path) .directory ∧
      made.tree.pending (ofString uri.path) = client.tree.pending (ofString uri.path) := by
  have houtcome :
      (StoreClient.createDirectory uri.path : ClientM MemoryClient Bool).outcome client =
        (.ok ((Tree.createDirectory client.disk.clock (ofString uri.path)).run client.tree).1,
          { client with
          tree := ((Tree.createDirectory client.disk.clock (ofString uri.path)).run client.tree).2
          }) := rfl
  rw [FileSystem.createDirectory_of_ok houtcome] at hcreate
  have hput : client.tree.contents.CanPutDirectory (ofString uri.path) := by
    by_contra hput
    rw [Tree.createDirectory_of_not_canPut h.tree hput] at hcreate
    cases hcreate
  obtain ⟨tree, hrun, hcontents⟩ := Tree.createDirectory_of_canPut h.tree hput client.disk.clock
  have hpending := Tree.pending_createDirectory hrun
  rw [hrun] at hcreate
  cases hcreate
  refine ⟨⟨⟨h.account, ?_, h.disk⟩, ?_, fun other _ => hpending other⟩, hpending _⟩
  . rw [hcontents]
    exact h.tree.putDirectory (ofString_canonical uri.path)
  . rw [hcontents, Contents.putDirectory, if_pos List.prefix_rfl]

/--
What is told after a creation, in every state that a store reaches: the file that was created, and
the directory that was asked for and all that is above either of them, except where the directory
was there already and about to be deleted.
-/
theorem creation_told (account : String) {host : Disk} (h : host.WellFormed) (events : List Event)
    (uri : RemoteUri) :
    let client := (after account host events).client
    (∀ writer made, (FileSystem.create uri).outcome client = (.ok writer, made) →
      made.Tells uri (some .file) ∧ made.TellsAround client.tree (ofString uri.path)) ∧
    (∀ made, (FileSystem.createDirectory uri).outcome client = (.ok (), made) →
      made.Tells uri (client.tree.directoryShown? (ofString uri.path)) ∧
        made.TellsAround client.tree (ofString uri.path)) := by
  intro client
  have hsound : client.Sound account := after_sound account h events
  constructor
  . intro writer made hcreate
    obtain ⟨hmade, hpending⟩ := made_of_create hsound hcreate
    refine ⟨?_, hmade.tellsAround⟩
    rw [← Tree.shown?_of_file hmade.content hpending]
    exact tells_shown? made uri
  . intro made hcreate
    obtain ⟨hmade, hpending⟩ := made_of_createDirectory hsound hcreate
    refine ⟨?_, hmade.tellsAround⟩
    rw [Tree.directoryShown?, ← hpending, ← Tree.directoryShown?,
      ← Tree.shown?_of_directory hmade.content]
    exact tells_shown? made uri

theorem creation_told_in_pending_directory :
    let client :=
      (after "acct" (.empty default) [.called (.createDirectory "a/b"),
        .markedPendingDelete "a/b"]).client
    let made := ((FileSystem.create (.ofPath "acct" "a/b/f")).outcome client).2
    made.Tells (.ofPath "acct" "a/b/f") (some .file) ∧
    made.Tells (.ofPath "acct" "a") (some .directory) ∧
      made.Tells (.ofPath "acct" "a/b") none ∧
      (FileSystem.children (.ofPath "acct" "a/b")).outcome made =
        (.error (.storeIo "get_children" "adl://acct/a/b" "directory does not exist"), made) := by
  intro client made
  have hcreate : (FileSystem.create (.ofPath "acct" "a/b/f")).outcome client =
      (.ok ⟨["a", "b", "f"]⟩, made) := rfl
  obtain ⟨htold, haround⟩ :=
    (creation_told "acct" (Disk.empty_wellFormed default) _ _).1 _ _ hcreate
  refine ⟨htold, ?_, ?_, ?_⟩
  . exact haround.above (.ofPath "acct" "a") (by decide)
  . exact haround.above (.ofPath "acct" "a/b") (by decide)
  . exact haround.unlisted (.ofPath "acct" "a/b") (by decide) (by decide) (by decide)

end MemoryClient

end LakeStore
