import LakeStore.Proofs.FileSystem.RoundTrip
import LakeStore.Proofs.Transfer.DownloadDelivery
import LakeStore.Proofs.Transfer.UploadDelivery

/-!
The transfers of the two clients side by side: what is at the target holds back the same entries for
both of them, and the rest arrives.
-/

namespace LakeStore

open StorePath

theorem Contents.canPut_new {path : StorePath} (h : path ≠ []) : Contents.new.CanPut path := by
  constructor
  . unfold Contents.new
    rw [if_neg h]
    simp
  . rintro ⟨above, data, _, hfile⟩
    unfold Contents.new at hfile
    split at hfile
    all_goals cases hfile

theorem Disk.alone_of_entries {disk : Disk}
    (h : ∀ entry ∈ disk.nodes.entries, ∀ other ∈ disk.nodes.entries,
      entry.2 = other.2 → entry.2.isDirectory ∨ entry.1 = other.1) (place : Location) :
    disk.Alone place := by
  intro id other hnode hother
  have hsame := h (other, .file id) ((PathMap.mem_entries_iff _ _ _).mpr hother) (place, .file id)
    ((PathMap.mem_entries_iff _ _ _).mpr hnode) rfl
  exact hsame.resolve_left (by simp [Node.isDirectory])

/-- Whether a local path is itself a link, and leads to a file. -/
def Disk.LinksToFile (disk : Disk) (source : String) : Prop :=
  (∃ place target modified, disk.findEntry source = .ok (.taken place (.link target modified))) ∧
    ∃ origin id, disk.find source = .ok (.taken origin (.file id))

/--
An upload goes alike to a store in memory and to one on the host that hold the same, unless the
local path is a link to a file. The file behind such a link goes to the store in memory alone, and
the other upload is complete without it.
-/
theorem uploads_agree_unless_link_to_file {memory : MemoryClient} {directory : DirectoryClient}
    {account : String} {location origin : Location} {source path : String} {node : Disk.Node}
    (hmemory : memory.Sound account) (hdirectory : directory.Rooted account location)
    (hdisk : memory.disk = directory.disk)
    (halone : ∀ rest, directory.disk.Alone (location ++ rest))
    (hsame : memory.tree.contents = directory.disk.contentsAt location)
    (hfind : directory.disk.find source = .ok (.taken origin node))
    (hapart : Disk.Apart origin location)
    (hreads : ∀ rest, (directory.disk.contentsAt origin).withoutLinks rest ≠ none →
      DirectoryClient.Accepts source rest)
    (hfits : ∀ rest, (directory.disk.contentsAt origin).withoutLinks rest ≠ none →
      DirectoryClient.Accepts directory.base (ofString path ++ rest)) :
    ∃ transfer stored copied new,
      (StoreClient.upload source path).outcome memory =
        (.ok transfer, { memory with tree := stored }) ∧
      (StoreClient.upload source path).outcome directory =
        (.ok copied, { directory with disk := new }) ∧
      (¬ directory.disk.LinksToFile source →
        copied.transferred = transfer.transferred ∧ copied.failed.length = transfer.failed.length ∧
          new.contentsAt location = stored.contents) ∧
      (directory.disk.LinksToFile source →
        copied = ⟨0, []⟩ ∧ new.contentsAt location = directory.disk.contentsAt location ∧
          (memory.tree.contents.CanPut (ofString path) → ∃ data,
            memory.disk.readFile source = .ok data ∧ transfer = ⟨1, []⟩ ∧
              stored.contents = memory.tree.contents.put (ofString path) data) ∧
          (¬ memory.tree.contents.CanPut (ofString path) →
            transfer.transferred = 0 ∧ transfer.failed.length = 1 ∧
              stored.contents = memory.tree.contents)) := by
  have hsource : directory.disk.Source source origin := ⟨⟨node, hfind⟩, hreads⟩
  obtain ⟨place, entry, hentry⟩ := Disk.exists_findEntry hfind
  have hentries := MemoryClient.localEntries_of_source hsource hdirectory.wellFormed hfind hentry
  have hplace := (hapart.symm.append (ofString path)).symm
  obtain ⟨copied, new, hcopy, hcopied, _, hnew⟩ := hdirectory.upload_delivers hsource hentry hplace
    (fun rest _ => halone (ofString path ++ rest)) hfits
  rw [← hdisk] at hentries
  have hroot : directory.disk.nodes.get? origin = some node :=
    Disk.findWith_holds hdirectory.wellFormed hfind
  by_cases hlinks : directory.disk.LinksToFile source
  . obtain ⟨⟨other, target, modified, hlink⟩, found, id, hfile⟩ := id hlinks
    rw [hentry] at hlink
    cases hlink
    rw [hfind] at hfile
    cases hfile
    rw [Disk.cargoesFrom_file hroot] at hcopied hnew
    have hone : MemoryClient.localEntries memory.disk source =
        .ok ([(([], some (memory.disk.contents id)) : Cargo)].map .ofCargo) := hentries.1 id rfl
    obtain ⟨transfer, stored, hupload, hreported, hstored⟩ :=
      hmemory.upload_delivers hone (by simp [canonical_nil])
    refine ⟨transfer, stored, copied, new, hupload, hcopy, fun hnot => absurd hlinks hnot, fun _ =>
      ⟨?_, hnew, ?_, ?_⟩⟩
    . exact hcopied.eq_of_complete rfl
    . intro hput
      have hread := Disk.readFile_of_find hfind
      rw [Contents.deliver_file_of_canPut hput] at hreported hstored
      rw [← hdisk] at hread
      exact ⟨_, hread, hreported.eq_of_complete rfl, hstored⟩
    . intro hput
      rw [Contents.deliver_file_of_not_canPut hput] at hreported hstored
      exact ⟨hreported.transferred, hreported.length_failed, hstored⟩
  . have hall : MemoryClient.localEntries memory.disk source =
        .ok ((directory.disk.cargoesFrom entry origin).map .ofCargo) := by
      rw [hdisk] at hentries ⊢
      cases node with
      | directory modified => exact hentries.2 (by simp)
      | link target modified => exact hentries.2 (by simp)
      | file id =>
        -- The path is no link, so that the file is met where the path leads to.
        have hlink : ∀ target modified, entry ≠ .link target modified := by
          rintro target modified rfl
          exact hlinks ⟨⟨place, target, modified, hentry⟩, origin, id, hfind⟩
        have hfound := Disk.find_of_findEntry hlink hentry
        rw [hfind] at hfound
        cases hfound
        rw [hentries.1 id rfl, Disk.cargoesFrom_file hroot]
        rfl
    obtain ⟨transfer, stored, hupload, hreported, hstored⟩ := hmemory.upload_delivers hall
      fun cargo hcargo => hsource.canonical_of_mem_cargoes hdirectory.wellFormed hcargo
    rw [hsame] at hreported hstored
    refine ⟨transfer, stored, copied, new, hupload, hcopy, fun _ => ⟨?_, ?_, ?_⟩, fun hlink =>
      absurd hlink hlinks⟩
    . rw [hcopied.transferred, hreported.transferred]
    . rw [hcopied.length_failed, hreported.length_failed]
    . rw [hnew, hstored]

theorem uploads_differ_for_link_to_file :
    let memory := MemoryClient.new "acct" Disk.sample
    let directory := DirectoryClient.mk "acct" "/s" Disk.sample
    ∃ stored new, (StoreClient.upload "/l/k" "u").outcome memory = (.ok ⟨1, []⟩,
      { memory with tree := stored }) ∧
      (StoreClient.upload "/l/k" "u").outcome directory = (.ok ⟨0, []⟩,
        { directory with disk := new }) ∧
      stored.contents ["u"] = some (.file (ByteArray.mk #[1])) ∧
      new.contentsAt ["s"] ["u"] = none := by
  intro memory directory
  have hfind : directory.disk.find directory.base =
      .ok (.taken ["s"] (.directory default)) := by decide
  have hempty : directory.disk.nodes.below ["s"] = [] := by decide
  have hrooted : directory.Rooted "acct" ["s"] :=
    DirectoryClient.rooted_of_empty Disk.sample_wellFormed hfind hempty
  have hnew : directory.disk.contentsAt ["s"] = Contents.new :=
    DirectoryClient.contentsAt_of_empty Disk.sample_wellFormed hfind hempty
  have hsame : memory.tree.contents = directory.disk.contentsAt ["s"] := by
    rw [hnew]
    exact MemoryClient.contents_new "acct" Disk.sample
  have hsource : directory.disk.find "/l/k" = .ok (.taken ["l", "f"] (.file 0)) := by decide
  have hroot : (directory.disk.contentsAt ["l", "f"]).withoutLinks [] =
      some (.file (ByteArray.mk #[1])) := by
    rw [Contents.withoutLinks_eq_file_iff, Disk.contentsAt_eq_file_iff]
    exact ⟨0, by decide, by decide⟩
  have hone : ∀ rest, (directory.disk.contentsAt ["l", "f"]).withoutLinks rest ≠ none →
      rest = [] := by
    have htree := (Disk.isTree_contentsAt Disk.sample_wellFormed ["l", "f"]).withoutLinks
    intro rest hrest
    by_contra hne
    have hdirectory := htree.closed rest [] hrest (nil_below hne)
    rw [hroot] at hdirectory
    cases hdirectory
  have hreads : ∀ rest, (directory.disk.contentsAt ["l", "f"]).withoutLinks rest ≠ none →
      DirectoryClient.Accepts "/l/k" rest := by
    intro rest hrest
    rw [hone rest hrest]
    exact ⟨by decide, by decide⟩
  have hfits : ∀ rest, (directory.disk.contentsAt ["l", "f"]).withoutLinks rest ≠ none →
      DirectoryClient.Accepts directory.base (ofString "u" ++ rest) := by
    intro rest hrest
    rw [hone rest hrest]
    exact ⟨by decide, by decide⟩
  obtain ⟨transfer, stored, copied, new, hupload, hcopy, _, hlink⟩ :=
    uploads_agree_unless_link_to_file (MemoryClient.new_sound "acct" Disk.sample_wellFormed) hrooted
      rfl (fun _ => Disk.alone_of_entries (by decide) _) hsame hsource ⟨by decide, by decide⟩ hreads
      hfits
  obtain ⟨rfl, hkept, hdone, _⟩ := hlink ⟨⟨["l", "k"], "f", default, by decide⟩, ["l", "f"], 0,
    hsource⟩
  have hname : ofString "u" = ["u"] := by decide
  have hput : memory.tree.contents.CanPut (ofString "u") := by
    rw [hname, MemoryClient.contents_new]
    exact Contents.canPut_new (by simp)
  obtain ⟨data, hread, rfl, hstored⟩ := hdone hput
  have hdata : memory.disk.readFile "/l/k" = .ok (ByteArray.mk #[1]) := by decide
  rw [hdata] at hread
  cases hread
  refine ⟨stored, new, hupload, hcopy, ?_, ?_⟩
  . rw [hstored, hname]
    exact if_pos rfl
  . rw [hkept, hnew]
    exact if_neg (by simp)

/--
A download goes around what is in the way at the local path, from a store in memory and from one on
the host alike: each entry that nothing is in the way of arrives, each other one is recorded once
under its path in the store, and nothing else changes. When nothing is at the path in the store, the
download fails. What is at the place of a file has no second name, and the directory of a whole
store on the host comes along.
-/
theorem download_around_blocked {memory : MemoryClient} {directory : DirectoryClient}
    {account : String} {location above : Location} {front : StorePath} {path target : String}
    {tree : Contents} (hmemory : memory.Sound account)
    (hdirectory : directory.Rooted account location) (hdisk : memory.disk = directory.disk)
    (hsame : memory.tree.contents = directory.disk.contentsAt location)
    (htree : memory.tree.contents.under (ofString path) = tree)
    (hstored : ∀ rest,
      rest = [] ∨ tree rest ≠ none → DirectoryClient.Accepts directory.base (ofString path ++ rest))
    (hapart : Disk.Apart location (above ++ front))
    (hreaches : directory.disk.Reaches target above front)
    (hway : directory.disk.HasWay target (above ++ front) tree) :
    (tree [] ≠ none →
      (∃ transfer new, (StoreClient.download path target).outcome memory =
          (.ok transfer, { memory with disk := new }) ∧
        (memory.disk.contentsAt []).Downloads (above ++ front) (ofString path) tree transfer
          (new.contentsAt [])) ∧
      ((ofString path = [] → directory.BringsBase location (above ++ front)) →
        ∃ transfer new, (StoreClient.download path target).outcome directory =
            (.ok transfer, { directory with disk := new }) ∧
          (directory.disk.contentsAt []).Downloads (above ++ front) (ofString path) tree transfer
            (new.contentsAt []))) ∧
    (tree [] = none →
      (StoreClient.download path target).outcome memory =
        (.error (.remoteNotFound (normalize path)), memory) ∧
      ∃ error, (StoreClient.download path target).outcome directory = (.error error, directory) ∧
        (¬ memory.tree.contents.FileAbove (ofString path) → error = .remoteNotFound path)) := by
  subst htree
  have hroot : memory.tree.contents.under (ofString path) [] =
      memory.tree.contents (ofString path) := by
    unfold Contents.under
    rw [List.append_nil]
  rw [hroot]
  constructor
  . intro hthere
    constructor
    . rw [← hdisk] at hreaches hway
      exact hmemory.download_delivers hthere hreaches hway
    . intro hbase
      rw [hsame] at hthere hway hstored ⊢
      exact hdirectory.download_delivers hthere hbase (fun rest hrest =>
        hstored rest (.inr hrest)) hapart hreaches hway
  . intro hnone
    constructor
    . exact MemoryClient.download_missing hnone target
    . rw [hsame] at hnone ⊢
      have haccepts := hstored [] (.inl rfl)
      rw [List.append_nil] at haccepts
      exact hdirectory.download_missing haccepts hnone target

def DirectoryClient.blocked : DirectoryClient :=
  let first := ((Disk.writeFile "/s/f" (ByteArray.mk #[1])).outcome sample.disk).2
  let second := ((Disk.writeFile "/s/g" (ByteArray.mk #[2])).outcome first).2
  let target := ((Disk.createDirectory "/out").outcome second).2
  { sample with disk := ((Disk.createDirectory "/out/f").outcome target).2 }

theorem DirectoryClient.blocked_rooted : blocked.Rooted "acct" ["s"] := by
  have hfirst := Disk.writeFile_grows sample_rooted.wellFormed "/s/f" (ByteArray.mk #[1])
  have hsecond := Disk.writeFile_grows hfirst.wellFormed "/s/g" (ByteArray.mk #[2])
  have htarget := Disk.createDirectory_grows hsecond.wellFormed "/out"
  have hblocking := Disk.createDirectory_grows htarget.wellFormed "/out/f"
  exact sample_rooted.of_grows (hfirst.trans (hsecond.trans (htarget.trans hblocking)))

def MemoryClient.blocked : MemoryClient :=
  let first := (Memory.Tree.empty default).insert ["f"] (.file (ByteArray.mk #[1]) none)
  { new "acct" DirectoryClient.blocked.disk with
    tree := first.insert ["g"] (.file (ByteArray.mk #[2]) none) }

theorem MemoryClient.blocked_paths {path : StorePath} (hpath : blocked.tree.contents path ≠ none) :
    path ∈ [[], ["f"], ["g"]] := by
  have hentries : ∀ entry ∈ blocked.tree.entries, entry.1 ∈ [[], ["f"], ["g"]] := by decide
  rw [ne_eq, Memory.Tree.contents_eq_none_iff] at hpath
  obtain ⟨node, hnode⟩ := Option.ne_none_iff_exists'.mp hpath
  exact hentries (path, node) ((PathMap.mem_entries_iff _ _ _).mpr hnode)

theorem DirectoryClient.blocked_paths {path : StorePath}
    (hpath : blocked.disk.contentsAt ["s"] path ≠ none) :
    path ∈ [[], ["f"], ["g"]] := by
  have hentries : ∀ entry ∈ blocked.disk.nodes.entries,
      ["s"] <+: entry.1 → entry.1.drop 1 ∈ [[], ["f"], ["g"]] := by
    decide
  rw [ne_eq, Disk.contentsAt_eq_none_iff] at hpath
  obtain ⟨node, hnode⟩ := Option.ne_none_iff_exists'.mp hpath
  exact hentries (["s"] ++ path, node) ((PathMap.mem_entries_iff _ _ _).mpr hnode)
    (List.prefix_append _ _)

theorem blocked_contents :
    MemoryClient.blocked.tree.contents = DirectoryClient.blocked.disk.contentsAt ["s"] := by
  have hroot : MemoryClient.blocked.tree.contents [] = some .directory :=
    Memory.Tree.contents_eq_directory_iff.mpr ⟨_, rfl⟩
  have hfirst : MemoryClient.blocked.tree.contents ["f"] = some (.file (ByteArray.mk #[1])) :=
    Memory.Tree.contents_eq_file_iff.mpr ⟨_, rfl⟩
  have hsecond : MemoryClient.blocked.tree.contents ["g"] = some (.file (ByteArray.mk #[2])) :=
    Memory.Tree.contents_eq_file_iff.mpr ⟨_, rfl⟩
  funext path
  by_cases hmem : path ∈ [[], ["f"], ["g"]]
  . simp only [List.mem_cons, List.not_mem_nil, or_false] at hmem
    rcases hmem with rfl | rfl | rfl
    . rw [hroot]
      exact (Disk.contentsAt_eq_directory_iff.mpr ⟨default, by decide⟩).symm
    . rw [hfirst]
      exact (Disk.contentsAt_eq_file_iff.mpr ⟨0, by decide, by decide⟩).symm
    . rw [hsecond]
      exact (Disk.contentsAt_eq_file_iff.mpr ⟨1, by decide, by decide⟩).symm
  . have hmemory := not_imp_comm.mp MemoryClient.blocked_paths hmem
    have hdirectory := not_imp_comm.mp DirectoryClient.blocked_paths hmem
    rw [hmemory, hdirectory]

theorem blocked_blocks_iff {path : StorePath} :
    (DirectoryClient.blocked.disk.contentsAt []).Blocks ["out"]
        MemoryClient.blocked.tree.contents path ↔
      path = ["f"] := by
  have hdisk := Disk.isTree_contentsAt DirectoryClient.blocked_rooted.wellFormed []
  have htarget : DirectoryClient.blocked.disk.contentsAt [] ["out"] = some .directory :=
    Disk.contentsAt_eq_directory_iff.mpr ⟨default, by decide⟩
  have hput := hdisk.canPutDirectory htarget
  constructor
  . intro hblocks
    have hpath : MemoryClient.blocked.tree.contents path ≠ none := by
      rcases hblocks with ⟨hdirectory, _⟩ | ⟨⟨data, hfile⟩, _⟩
      . simp [hdirectory]
      . simp [hfile]
    have hmem := MemoryClient.blocked_paths hpath
    simp only [List.mem_cons, List.not_mem_nil, or_false] at hmem
    rcases hmem with rfl | rfl | rfl
    . rcases hblocks with ⟨_, hnot⟩ | ⟨⟨data, hfile⟩, _⟩
      . exact absurd hput hnot
      . obtain ⟨modified, hnode⟩ := Memory.Tree.contents_eq_file_iff.mp hfile
        cases hnode
    . rfl
    . rcases hblocks with ⟨hdirectory, _⟩ | ⟨_, hnot⟩
      . obtain ⟨modified, hnode⟩ := Memory.Tree.contents_eq_directory_iff.mp hdirectory
        cases hnode
      . have hnone : DirectoryClient.blocked.disk.contentsAt [] (["out"] ++ ["g"]) = none :=
          Disk.contentsAt_eq_none_iff.mpr (by decide)
        refine absurd ⟨?_, Contents.not_fileAbove_concat_iff.mpr hput⟩ hnot
        rw [hnone]
        simp
  . rintro rfl
    have hblocking : DirectoryClient.blocked.disk.contentsAt [] (["out"] ++ ["f"]) =
        some .directory :=
      Disk.contentsAt_eq_directory_iff.mpr ⟨default, by decide⟩
    exact .inr ⟨⟨_, Memory.Tree.contents_eq_file_iff.mpr ⟨_, rfl⟩⟩, fun h => h.1 hblocking⟩

theorem download_around_directory :
    ∃ transfer new copied made,
      (StoreClient.download "/" "/out").outcome MemoryClient.blocked =
        (.ok transfer, { MemoryClient.blocked with disk := new }) ∧
      (StoreClient.download "/" "/out").outcome DirectoryClient.blocked =
        (.ok copied, { DirectoryClient.blocked with disk := made }) ∧
      transfer.failed.map Failure.path = ["/f"] ∧ copied.failed.map Failure.path = ["/f"] ∧
      new.contentsAt [] ["out", "g"] = some (.file (ByteArray.mk #[2])) ∧
      made.contentsAt [] ["out", "g"] = some (.file (ByteArray.mk #[2])) := by
  have hrooted := DirectoryClient.blocked_rooted
  have hsound : MemoryClient.blocked.Sound "acct" :=
    ⟨rfl, blocked_contents ▸ hrooted.contents_wellFormed, hrooted.wellFormed⟩
  have hname : ofString "/" = [] := by decide
  have htree : MemoryClient.blocked.tree.contents.under (ofString "/") =
      MemoryClient.blocked.tree.contents := by
    rw [hname]
    rfl
  have hroot : MemoryClient.blocked.tree.contents [] ≠ none := by
    rw [hsound.tree.root]
    simp
  have hplain : ∀ place, DirectoryClient.blocked.disk.Plain place := by
    have hentries : ∀ entry ∈ DirectoryClient.blocked.disk.nodes.entries,
        entry.2 ∈ [.directory default, .file 0, .file 1] := by
      decide
    intro place above target modified _ hlink
    simpa using hentries (above, _) ((PathMap.mem_entries_iff _ _ _).mpr hlink)
  have hreaches : DirectoryClient.blocked.disk.Reaches "/out" [] ["out"] :=
    Disk.reaches_of_names hrooted.wellFormed (by decide) (by decide) (by decide) (by decide)
    (by decide) (hplain _)
  have haccepts : ∀ base ∈ ["/s", "/out"], ∀ rest ∈ [[], ["f"], ["g"]],
      Disk.Short rest ∧ Disk.checkText (HostPath.below base rest) = .ok () := by
    decide
  have hfits : ∀ base ∈ ["/s", "/out"], ∀ rest,
      rest = [] ∨ MemoryClient.blocked.tree.contents rest ≠ none →
        DirectoryClient.Accepts base rest := by
    intro base hbase rest hrest
    have hmem : rest ∈ [[], ["f"], ["g"]] :=
      hrest.elim (by simp +contextual) MemoryClient.blocked_paths
    exact ⟨(haccepts base hbase rest hmem).1, (haccepts base hbase rest hmem).2⟩
  have hstored := hfits "/s" (by simp)
  obtain ⟨⟨transfer, new, hmemory, hnew⟩, hdownload⟩ :=
    (download_around_blocked hsound hrooted rfl blocked_contents htree
      (by rw [hname]; exact hstored) ⟨by decide, by decide⟩ hreaches
      ⟨fun path hpath => hfits "/out" (by simp) path (.inr hpath), fun _ _ => hplain _,
        fun _ _ _ => Disk.alone_of_entries (by decide) _⟩).1 hroot
  obtain ⟨copied, made, hdirectory, hmade⟩ := hdownload fun _ => .inl ⟨default, by decide⟩
  have hfailed : ∀ {told : Transfer} {after : Contents},
      (DirectoryClient.blocked.disk.contentsAt []).Downloads ["out"] []
          MemoryClient.blocked.tree.contents told after →
        told.failed.map Failure.path = ["/f"] ∧ after ["out", "g"] =
          some (.file (ByteArray.mk #[2])) := by
    intro told after hdone
    constructor
    . rw [← List.perm_singleton, List.perm_ext_iff_of_nodup hdone.once (by simp)]
      intro text
      rw [hdone.failed]
      simp only [blocked_blocks_iff, exists_eq_left, List.mem_singleton]
      exact Iff.rfl
    . have hfree : (DirectoryClient.blocked.disk.contentsAt []).unblocked
          ["out"] MemoryClient.blocked.tree.contents ["g"] = some (.file (ByteArray.mk #[2])) := by
        unfold Contents.unblocked
        rw [if_neg (by simp [blocked_blocks_iff])]
        exact Memory.Tree.contents_eq_file_iff.mpr ⟨_, rfl⟩
      rw [← hfree]
      exact hdone.arrived ["g"] (by simp [hfree])
  rw [hname] at hnew hmade
  exact ⟨transfer, new, copied, made, hmemory, hdirectory, (hfailed hnew).1, (hfailed hmade).1,
    (hfailed hnew).2, (hfailed hmade).2⟩

def DirectoryClient.twice : DirectoryClient :=
  let file := ((Disk.writeFile "/out/g" (ByteArray.mk #[3])).outcome blocked.disk).2
  { sample with disk := { file with nodes := file.nodes.insert ["h"] (.file 2) } }

theorem download_beyond_target :
    let root := ((Disk.createDirectory "/s").outcome (.empty default)).2
    let linked := DirectoryClient.mk "acct" "/b" ((Disk.createLink "/b" "/s").outcome root).2
    (DirectoryClient.twice.disk.readFile "/h" = .ok (ByteArray.mk #[3]) ∧
      ((StoreClient.download "/g" "/out/g").outcome DirectoryClient.twice).2.disk.readFile "/h" =
        .ok (ByteArray.mk #[2])) ∧
      linked.disk.isDirectory "/b" ∧
      ((StoreClient.download "/" "/new").outcome linked).1.toOption = some ⟨0, []⟩ ∧
      ((StoreClient.download "/" "/new").outcome linked).2.disk.isDirectory "/new" = false := by
  decide +kernel

end LakeStore
