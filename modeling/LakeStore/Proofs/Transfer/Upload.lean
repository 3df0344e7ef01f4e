import LakeStore.Proofs.Memory.Upload
import LakeStore.Proofs.Transfer.Reading

/-!
An upload carries from the disk to a store in memory each directory and each file of a local tree,
once. Which of them arrive is told by the tree of the store, whatever order they come in.
-/

namespace LakeStore.Memory

open StorePath

variable {entries : List LocalEntry} {entry : LocalEntry} {tree : Contents} {before : Tree}
  {root : StorePath}

def LocalEntry.ofCargo : Cargo → LocalEntry
  | (path, none) => .directory path
  | (path, some data) => .file path data

theorem LocalEntry.lists_map_ofCargo {cargoes : List Cargo} (h : tree.Lists cargoes) :
    Lists (cargoes.map ofCargo) tree := by
  have hnames : names ∘ ofCargo = Prod.fst := by
    funext ⟨path, data?⟩
    cases data? <;> rfl
  refine ⟨?_, ?_, ?_, ?_⟩
  . rw [List.map_map, hnames]
    exact h.nodup
  . intro path
    rw [← h.directory, List.mem_map]
    constructor
    . rintro ⟨⟨other, data?⟩, hmem, heq⟩
      cases data? with
      | none =>
        cases heq
        exact hmem
      | some data => cases heq
    . intro hmem
      exact ⟨_, hmem, rfl⟩
  . intro path data
    rw [← h.file, List.mem_map]
    constructor
    . rintro ⟨⟨other, data?⟩, hmem, heq⟩
      cases data? with
      | none => cases heq
      | some bytes =>
        cases heq
        exact hmem
    . intro hmem
      exact ⟨_, hmem, rfl⟩
  . intro path reason hmem
    rw [List.mem_map] at hmem
    obtain ⟨⟨other, data?⟩, _, heq⟩ := hmem
    cases data? <;> cases heq

end LakeStore.Memory

namespace LakeStore.MemoryClient

open Memory StorePath

variable {disk : Disk} {source : String} {location place : Location} {entry node : Disk.Node}

theorem localEntryOf?_eq_map (h : disk.Source source location) (hdisk : disk.WellFormed)
    (hentry : disk.findEntry source = .ok (.taken place entry)) {item : WalkItem}
    (hitem : item ∈ disk.itemsFrom entry location) :
    localEntryOf? disk source item = (item.cargo? disk).map LocalEntry.ofCargo := by
  obtain ⟨path, found, rfl⟩ : ∃ path found, item = .found path found := by
    rcases (h.mem_itemsFrom hdisk).mp hitem with rfl | ⟨path, found, _, rfl, _⟩
    . exact ⟨_, _, rfl⟩
    . exact ⟨_, _, rfl⟩
  cases found with
  | directory modified => rfl
  | link target modified => rfl
  | file id =>
    have hnode := h.get?_of_mem_itemsFrom hdisk hentry hitem (by simp)
    have hread := Disk.readFile_of_find (h.find_of_get? hdisk (by simp) hnode)
    unfold localEntryOf?
    dsimp only
    rw [hread]
    rfl

theorem localEntries_of_source (h : disk.Source source location) (hdisk : disk.WellFormed)
    (hfind : disk.find source = .ok (.taken location node))
    (hentry : disk.findEntry source = .ok (.taken place entry)) :
    (∀ id, node = .file id →
      localEntries disk source = .ok [.ofCargo ([], some (disk.contents id))]) ∧
    ((∀ id, node ≠ .file id) →
      localEntries disk source =
        .ok ((disk.cargoesFrom entry location).map LocalEntry.ofCargo)) := by
  unfold localEntries
  rw [hfind]
  constructor
  . rintro id rfl
    rfl
  . intro hnot
    have hwalk : (disk.walk source).filterMap (localEntryOf? disk source) =
        (disk.cargoesFrom entry location).map LocalEntry.ofCargo := by
      unfold Disk.cargoesFrom
      rw [h.walk_eq_itemsFrom hdisk hentry, List.map_filterMap]
      apply List.filterMap_congr
      intro item hitem
      exact localEntryOf?_eq_map h hdisk hentry hitem
    rw [← hwalk]
    cases node with
    | directory modified => rfl
    | link target modified => rfl
    | file id => exact absurd rfl (hnot id)

theorem exists_cargoes (h : disk.Readable source location) (hdisk : disk.WellFormed) :
    ∃ cargoes : List Cargo, localEntries disk source = .ok (cargoes.map .ofCargo) ∧
      (disk.contentsAt location).Lists cargoes := by
  obtain ⟨node, hentry, hlink⟩ := h.found
  have hnode : disk.nodes.get? location = some node := Disk.findWith_holds hdisk hentry
  have hentries :=
    localEntries_of_source h.toSource hdisk (Disk.find_of_findEntry hlink hentry) hentry
  refine ⟨disk.cargoesFrom node location, ?_, h.toSource.lists_cargoes hdisk hnode⟩
  cases node with
  | directory modified => exact hentries.2 (by simp)
  | link target modified => exact absurd rfl (hlink target modified)
  | file id =>
    rw [hentries.1 id rfl, Disk.cargoesFrom_file hnode]
    rfl

theorem exists_localEntries (h : disk.Readable source location) (hdisk : disk.WellFormed) :
    ∃ entries, localEntries disk source = .ok entries ∧
    LocalEntry.Lists entries (disk.contentsAt location) := by
  obtain ⟨cargoes, hentries, hlists⟩ := exists_cargoes h hdisk
  exact ⟨_, hentries, LocalEntry.lists_map_ofCargo hlists⟩

/--
How an upload of some entries goes and what it leaves in the tree, whichever local path leads to the
entries.
-/
structure Uploads (client : MemoryClient) (path : String) (entries : List LocalEntry)
    (transfer : Transfer) (stored : Tree) : Prop where
  run : (Tree.upload client.disk.clock (ofString path) entries).run client.tree = (transfer, stored)
  outcome : ∀ source, localEntries client.disk source = .ok entries →
    (upload source path).outcome client = (.ok transfer, { client with tree := stored })

theorem uploads_of_run {client : MemoryClient} {path : String} {entries : List LocalEntry}
    {transfer : Transfer} {stored : Tree}
    (hrun : (Tree.upload client.disk.clock (ofString path) entries).run client.tree =
      (transfer, stored)) :
    client.Uploads path entries transfer stored := by
  refine ⟨hrun, ?_⟩
  intro source hentries
  unfold upload
  rw [Step.outcome_bind_ok (Step.outcome_get client), hentries]
  dsimp only
  rw [onTree_outcome]
  change (Except.ok ((Tree.upload client.disk.clock (ofString path) entries).run client.tree).1,
    MemoryClient.mk client.account
    ((Tree.upload client.disk.clock (ofString path) entries).run client.tree).2 client.disk) = _
  rw [hrun]

/--
An upload of a local tree carries what nothing in the store holds back, whatever the order of its
entries. It tells of each entry that is held back, and so does the same upload once more, which
changes no contents. The tree is one that the host can read: its root is no link, and it takes the
host path of each entry. Names are texts here, so a local name that is not one is left aside.
-/
theorem upload_around_blocked (account : String) {host : Disk} (hhost : host.WellFormed)
    (events : List Event) {tree : Contents} (htree : tree.WellFormed) (path : String) :
    let client := (after account host events).client
    (∀ source location,
      client.disk.Readable source location → client.disk.contentsAt location = tree →
      ∃ entries, localEntries client.disk source = .ok entries ∧ LocalEntry.Lists entries tree) ∧
    ∀ entries, LocalEntry.Lists entries tree → ∃ transfer stored,
      client.Uploads path entries transfer stored ∧
      Tree.Uploaded (ofString path) entries client.tree transfer stored ∧
      ∀ disk others, LocalEntry.Lists others tree → ∃ again kept,
        Uploads { client with tree := stored, disk := disk } path others again kept ∧
        again.transferred = transfer.transferred ∧ again.failed.Perm transfer.failed ∧
        kept.contents = stored.contents := by
  intro client
  have hsound := after_sound account hhost events
  have hroot := ofString_canonical path
  constructor
  . rintro source location hreadable rfl
    exact exists_localEntries hreadable hsound.disk
  . intro entries hlists
    obtain ⟨stored, hrun, hcarried⟩ :=
      Tree.upload_run hsound.tree hlists htree.isTree hroot client.disk.clock
    refine ⟨_, stored, uploads_of_run hrun, hcarried.uploaded hlists htree.isTree hroot, ?_⟩
    intro disk others hothers
    obtain ⟨again, kept, hagain, hsame⟩ :=
      hcarried.upload_again hlists htree.isTree hroot hothers disk.clock
    exact ⟨again, kept, uploads_of_run hagain, hsame⟩

theorem upload_around_blocked_by_each_kind :
    let events := [Event.called (.createFile "r/d" .overwrite), .called (.createDirectory "r/f/k")]
    let client := (after "acct" (.empty default) events).client
    let data := ByteArray.mk #[1]
    let tree : Contents := fun names =>
      if names = [] ∨ names = ["d"] then some .directory
      else if names = ["d", "x"] ∨ names = ["f"] ∨ names = ["g"] then some (.file data)
      else none
    let entries := [.directory [], .file ["g"] data, .file ["f"] data, .directory ["d"],
      .file ["d", "x"] data]
    tree.WellFormed ∧ LocalEntry.Lists entries tree ∧ ∃ transfer stored,
      client.Uploads "//r/" entries transfer stored ∧ transfer.transferred = 1 ∧
      transfer.failed.map Failure.path = ["/r/f", "/r/d", "/r/d/x"] ∧
      stored.contents ["r", "g"] = some (.file data) := by
  intro events client data tree entries
  have htree : tree.WellFormed := by
    have hpaths : ∀ path, tree path ≠ none → path ∈ [[], ["d"], ["d", "x"], ["f"], ["g"]] := by
      intro path
      simp only [tree]
      grind
    have hcanonical : ∀ path ∈ [[], ["d"], ["d", "x"], ["f"], ["g"]], Canonical path := by
      simp [canonical_cons, canonical_nil, isName_iff]
    refine ⟨rfl, fun path hpath => hcanonical path (hpaths path hpath), ?_, ?_⟩
    . intro path above hpath hbelow
      have hmem := hpaths path hpath
      simp only [List.mem_cons, List.not_mem_nil, or_false] at hmem
      rcases hmem with rfl | rfl | rfl | rfl | rfl
      all_goals
        simp only [Below, List.prefix_cons_iff, List.prefix_nil] at hbelow
        grind
    . intro path target
      grind
  have hlists : LocalEntry.Lists entries tree := by
    refine ⟨by decide, ?_, ?_, by simp [entries]⟩
    . intro names
      simp [entries, tree]
      grind
    . intro names found
      simp [entries, tree]
      grind
  refine ⟨htree, hlists, ?_⟩
  obtain ⟨transfer, stored, huploads, huploaded, _⟩ :=
    (upload_around_blocked "acct" (Disk.empty_wellFormed default) events htree "//r/").2
    entries hlists
  refine ⟨transfer, stored, huploads, ?_, ?_, ?_⟩
  . rw [huploaded.transferred]
    decide
  . rw [huploaded.failed]
    decide
  . exact huploaded.file ["g"] data (by simp [entries]) (by decide)

end LakeStore.MemoryClient
