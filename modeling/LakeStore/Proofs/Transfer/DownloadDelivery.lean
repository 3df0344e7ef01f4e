import LakeStore.Proofs.Directory.Transfers
import LakeStore.Proofs.Memory.Client
import LakeStore.Proofs.Transfer.Carrying

/-!
What a download leaves at a local path, whatever is there already and whichever client keeps the
store: the entries that nothing was in the way of, and a record of each of the others.
-/

namespace LakeStore

open StorePath

namespace Contents

variable {before tree : Contents} {place root path : StorePath} {cargoes : List Cargo}

def Blocks (before : Contents) (place : StorePath) (tree : Contents) (path : StorePath) : Prop :=
  tree path = some .directory ∧ ¬ before.CanPutDirectory (place ++ path) ∨
    (∃ data, tree path = some (.file data)) ∧ ¬ before.CanPut (place ++ path)

open Classical in
noncomputable def unblocked (before : Contents) (place : StorePath) (tree : Contents) :
    Contents := fun path =>
  if before.Blocks place tree path then none else tree path

/--
What a download does with the tree at `root` when it is carried to a place, and what it tells of it.
-/
structure Downloads (before : Contents) (place root : StorePath) (tree : Contents)
    (transfer : Transfer) (after : Contents) : Prop where
  transferred : transfer.transferred = (before.unblocked place tree).fileCount
  once : (transfer.failed.map Failure.path).Nodup
  failed : ∀ text, text ∈ transfer.failed.map Failure.path ↔
    ∃ path, before.Blocks place tree path ∧ text = (root ++ path).text
  arrived : ∀ path, before.unblocked place tree path ≠ none →
    after (place ++ path) = before.unblocked place tree path
  above : ∀ path key, before.unblocked place tree path ≠ none → Below key (place ++ path) →
    after key = some .directory
  kept : ∀ key, (∀ path, before.unblocked place tree path ≠ none → ¬ key <+: place ++ path) →
    after key = before key

theorem eq_of_unblocked {content : Content} (h : before.unblocked place tree path = some content) :
    tree path = some content ∧ ¬ before.Blocks place tree path := by
  unfold unblocked at h
  split at h
  . cases h
  . next hnot => exact ⟨h, hnot⟩

theorem unblocked_eq_directory_iff :
    before.unblocked place tree path = some .directory ↔
      tree path = some .directory ∧ before.CanPutDirectory (place ++ path) := by
  constructor
  . intro h
    obtain ⟨hpath, hnot⟩ := eq_of_unblocked h
    refine ⟨hpath, ?_⟩
    by_contra hput
    exact hnot (.inl ⟨hpath, hput⟩)
  . rintro ⟨hpath, hput⟩
    unfold unblocked
    rw [if_neg, hpath]
    rintro (⟨_, hnot⟩ | ⟨⟨data, hfile⟩, _⟩)
    . exact hnot hput
    . rw [hpath] at hfile
      cases hfile

theorem unblocked_eq_file_iff {data : ByteArray} :
    before.unblocked place tree path = some (.file data) ↔
      tree path = some (.file data) ∧ before.CanPut (place ++ path) := by
  constructor
  . intro h
    obtain ⟨hpath, hnot⟩ := eq_of_unblocked h
    refine ⟨hpath, ?_⟩
    by_contra hput
    exact hnot (.inr ⟨⟨data, hpath⟩, hput⟩)
  . rintro ⟨hpath, hput⟩
    unfold unblocked
    rw [if_neg, hpath]
    rintro (⟨hdirectory, _⟩ | ⟨_, hnot⟩)
    . rw [hpath] at hdirectory
      cases hdirectory
    . exact hnot hput

open Classical in
theorem Lists.unblocked (h : tree.Lists cargoes) (before : Contents) (place : StorePath) :
    (before.unblocked place tree).Lists (cargoes.filter (before.Admits place ·)) := by
  refine ⟨h.nodup.sublist (List.filter_sublist.map Prod.fst), ?_, ?_⟩
  . intro path
    rw [unblocked_eq_directory_iff, List.mem_filter, h.directory, decide_eq_true_eq]
    rfl
  . intro path data
    rw [unblocked_eq_file_iff, List.mem_filter, h.file, decide_eq_true_eq]
    rfl

theorem Lists.blocks_iff (h : tree.Lists cargoes) :
    before.Blocks place tree path ↔ ∃ data?,
      (path, data?) ∈ cargoes ∧ ¬ before.Admits place (path, data?) := by
  constructor
  . rintro (⟨hdirectory, hput⟩ | ⟨⟨data, hfile⟩, hput⟩)
    . exact ⟨none, (h.directory path).mpr hdirectory, hput⟩
    . exact ⟨some data, (h.file path data).mpr hfile, hput⟩
  . rintro ⟨data?, hmem, hput⟩
    cases data? with
    | none => exact .inl ⟨(h.directory path).mp hmem, hput⟩
    | some data => exact .inr ⟨⟨data, (h.file path data).mp hmem⟩, hput⟩

open Classical in
theorem Lists.downloads (h : tree.Lists cargoes) (htree : tree.IsTree)
    (hlink : ∀ path target, tree path ≠ some (.link target)) (hroot : root.Canonical)
    {transfer : Transfer}
    (hreported : (before.deliver place cargoes).Reported (fun path => (root ++ path).text)
      transfer) :
    before.Downloads place root tree transfer (before.deliver place cargoes).contents := by
  have hfree := h.unblocked before place
  have hfreeLink : ∀ path target, before.unblocked place tree path ≠ some (.link target) :=
    fun path target hpath => hlink path target (eq_of_unblocked hpath).1
  have hclear := h.pairwise_clear htree
  have hlaid :=
    laid_foldl before place (hclear.sublist (List.filter_sublist (p := (before.Admits place ·))))
  have hcanonical : ∀ cargo ∈ cargoes, (root ++ cargo.1).Canonical :=
    fun cargo hcargo => canonical_append.mpr ⟨hroot, htree.canonical cargo.1 (h.ne_none hcargo)⟩
  have hfreeTree : ∀ path, before.unblocked place tree path ≠ none → tree path ≠ none := by
    intro path hpath
    obtain ⟨content, hcontent⟩ := Option.ne_none_iff_exists'.mp hpath
    rw [(eq_of_unblocked hcontent).1]
    simp
  -- What is above an entry of the tree is a directory of the tree, and no file.
  have habove : ∀ path key, before.unblocked place tree path ≠ none → Below key (place ++ path) →
      ∀ other data, (other, some data) ∈ cargoes.filter (before.Admits place ·) →
      key ≠ place ++ other := by
    rintro path key hpath hbelow other data hmem rfl
    have hfile := (eq_of_unblocked ((hfree.file other data).mp hmem)).1
    rw [htree.closed path other (hfreeTree path hpath) (below_append_iff.mp hbelow)] at hfile
    cases hfile
  rw [deliver_eq hclear] at hreported ⊢
  constructor
  . rw [hreported.transferred, hfree.fileCount_eq, List.countP_filter]
  . rw [hreported.failed]
    apply List.Nodup.map_on
    . intro path hpath other hother heq
      rw [List.mem_map] at hpath hother
      obtain ⟨cargo, hcargo, rfl⟩ := hpath
      obtain ⟨another, hanother, rfl⟩ := hother
      have hboth := eq_of_text_eq (hcanonical cargo (List.mem_of_mem_filter hcargo))
        (hcanonical another (List.mem_of_mem_filter hanother)) heq
      exact List.append_cancel_left hboth
    . exact h.nodup.sublist (List.filter_sublist.map Prod.fst)
  . intro text
    rw [hreported.failed]
    simp only [List.mem_map, List.mem_filter, decide_eq_true_eq]
    constructor
    . rintro ⟨path, ⟨cargo, ⟨hmem, hput⟩, rfl⟩, rfl⟩
      exact ⟨cargo.1, h.blocks_iff.mpr ⟨cargo.2, hmem, hput⟩, rfl⟩
    . rintro ⟨path, hblocks, rfl⟩
      obtain ⟨data?, hmem, hput⟩ := h.blocks_iff.mp hblocks
      exact ⟨path, ⟨(path, data?), ⟨hmem, hput⟩, rfl⟩, rfl⟩
  . exact fun path hpath => hlaid.arrived hfree hfreeLink hpath
  . intro path key hpath hbelow
    obtain ⟨data?, hmem⟩ := hfree.exists_of_ne_none hfreeLink hpath
    exact hlaid.made key ⟨_, hmem, hbelow.1⟩ (habove path key hpath hbelow)
  . intro key hkey
    apply hlaid.kept
    intro cargo hcargo
    exact hkey cargo.1 (hfree.ne_none hcargo)

end Contents

namespace Memory

def Node.data? : Node → Option ByteArray
  | directory _ => none
  | file data _ => some data

namespace Tree

variable {stored : Tree} {root : StorePath}

theorem snapshot?_eq {node : Node} (hroot : stored.get? root = some node) :
    stored.snapshot? root = some (((root, node) :: stored.below root).map fun entry =>
      (entry.1, entry.2.data?)) := by
  unfold snapshot?
  rw [hroot]
  apply congrArg some
  apply List.map_congr_left
  rintro ⟨key, node⟩ _
  cases node <;> rfl

theorem exists_snapshot (hroot : stored.contents root ≠ none) :
    ∃ cargoes :
    List Cargo, stored.snapshot? root = some (cargoes.map fun cargo => (root ++ cargo.1, cargo.2)) ∧
      (stored.contents.under root).Lists cargoes := by
  rw [ne_eq, contents_eq_none_iff] at hroot
  obtain ⟨node, hnode⟩ := Option.ne_none_iff_exists'.mp hroot
  let entries := ((root, node) :: stored.below root).map fun entry => (entry.1, entry.2.data?)
  have hmem : ∀ key data?, (key, data?) ∈ entries ↔
      root <+: key ∧ ∃ found, stored.get? key = some found ∧ found.data? = data? := by
    intro key data?
    simp only [entries, List.mem_map, Prod.exists, PathMap.mem_cons_below_iff hnode, Prod.mk.injEq]
    constructor
    . rintro ⟨key, found, ⟨hpre, hfound⟩, rfl, hdata⟩
      exact ⟨hpre, found, hfound, hdata⟩
    . rintro ⟨hpre, found, hfound, hdata⟩
      exact ⟨key, found, ⟨hpre, hfound⟩, rfl, hdata⟩
  let cargoes : List Cargo := entries.map fun entry => (entry.1.drop root.length, entry.2)
  have hentries : entries = cargoes.map fun cargo => (root ++ cargo.1, cargo.2) := by
    rw [List.map_map]
    conv_lhs => rw [← List.map_id entries]
    apply List.map_congr_left
    intro entry hentry
    obtain ⟨rest, hrest⟩ := ((hmem entry.1 entry.2).mp hentry).1
    dsimp only [Function.comp_apply, id]
    rw [← hrest, List.drop_left, hrest]
  have hcargo : ∀ path data?, (path, data?) ∈ cargoes ↔
      ∃ found, stored.get? (root ++ path) = some found ∧ found.data? = data? := by
    intro path data?
    have hwhole := hmem (root ++ path) data?
    rw [hentries] at hwhole
    simpa using hwhole
  refine ⟨cargoes, ?_, ?_, ?_, ?_⟩
  . rw [snapshot?_eq hnode, ← hentries]
  . have hnodup : (entries.map Prod.fst).Nodup := by
      rw [List.map_map]
      exact PathMap.nodup_cons_below stored root node
    rw [hentries, List.map_map] at hnodup
    exact List.Nodup.of_map (root ++ ·) (by rw [List.map_map]; exact hnodup)
  . intro path
    unfold Contents.under
    rw [hcargo, contents_eq_directory_iff]
    constructor
    . rintro ⟨found, hfound, hdata⟩
      cases found with
      | directory modified => exact ⟨modified, hfound⟩
      | file data modified => cases hdata
    . rintro ⟨modified, hfound⟩
      exact ⟨_, hfound, rfl⟩
  . intro path data
    unfold Contents.under
    rw [hcargo, contents_eq_file_iff]
    constructor
    . rintro ⟨found, hfound, hdata⟩
      cases found with
      | directory modified => cases hdata
      | file bytes modified =>
        cases hdata
        exact ⟨modified, hfound⟩
    . rintro ⟨modified, hfound⟩
      exact ⟨_, hfound, rfl⟩

end Tree

end Memory

namespace MemoryClient

open Memory

variable {client : MemoryClient} {account path target : String} {directory : Location}
  {front : StorePath}

theorem exists_download (hdisk : client.disk.WellFormed)
    (htree : (client.tree.contents.under (ofString path)).IsTree)
    (hroot : client.tree.contents (ofString path) ≠ none)
    (hreaches : client.disk.Reaches target directory front)
    (hway : client.disk.HasWay target (directory ++ front)
      (client.tree.contents.under (ofString path))) :
    ∃ cargoes transfer new, (client.tree.contents.under (ofString path)).Lists cargoes ∧
      (download path target).outcome client = (.ok transfer, { client with disk := new }) ∧
      Disk.Delivered client.disk (directory ++ front) (fun rest => (ofString path ++ rest).text)
      cargoes transfer new := by
  obtain ⟨cargoes, hentries, hlists⟩ := Tree.exists_snapshot hroot
  have hcargoes : ∀ cargo ∈ cargoes,
      cargo.1.Canonical ∧ client.tree.contents.under (ofString path) cargo.1 ≠ none :=
    fun cargo hcargo => ⟨htree.canonical _ (hlists.ne_none hcargo), hlists.ne_none hcargo⟩
  have hdelivered := downloadEntries_delivers hdisk hreaches hway (ofString_canonical path) hcargoes
    fun rest data => (hlists.file rest data).mp
  generalize hrun :
    (downloadEntries (ofString path) target
      (cargoes.map fun cargo => (ofString path ++ cargo.1, cargo.2))).run client.disk = result
    at hdelivered
  obtain ⟨transfer, new⟩ := result
  refine ⟨cargoes, transfer, new, hlists, ?_, hdelivered⟩
  unfold download
  rw [Step.outcome_bind_ok (Step.outcome_get client), hentries]
  dsimp only
  rw [onDisk_outcome, Step.outcome_liftM, hrun]

theorem Sound.download_delivers (h : client.Sound account)
    (hroot : client.tree.contents (ofString path) ≠ none)
    (hreaches : client.disk.Reaches target directory front)
    (hway : client.disk.HasWay target (directory ++ front)
      (client.tree.contents.under (ofString path))) :
    ∃ transfer new, (download path target).outcome client = (.ok transfer,
      { client with disk := new }) ∧
      (client.disk.contentsAt []).Downloads (directory ++ front) (ofString path)
        (client.tree.contents.under (ofString path)) transfer (new.contentsAt []) := by
  have htree := h.tree.isTree.under (ofString path)
  have hlink : ∀ rest, _ := fun rest => h.tree.noLink (ofString path ++ rest)
  obtain ⟨cargoes, transfer, new, hlists, hdownload, hdelivered⟩ :=
    exists_download h.disk htree hroot hreaches hway
  refine ⟨transfer, new, hdownload, ?_⟩
  rw [hdelivered.growsTo.contents]
  exact hlists.downloads htree hlink (ofString_canonical path) hdelivered.reported

theorem download_missing (hnone : client.tree.contents (ofString path) = none) (target : String) :
    (download path target).outcome client = (.error (.remoteNotFound (normalize path)),
      client) := by
  rw [Tree.contents_eq_none_iff] at hnone
  unfold download
  rw [Step.outcome_bind_ok (Step.outcome_get client)]
  unfold Tree.snapshot?
  rw [hnone]
  rfl

end MemoryClient

namespace DirectoryClient

variable {client : DirectoryClient} {account path target : String}
  {location directory origin : Location} {front rest : StorePath}

theorem storePlace_below (target : String) (hrest : rest.Canonical) (path : String) :
    storePlace path target (HostPath.below target rest) = (ofString path ++ rest).text := by
  unfold storePlace HostPath.relative?
  dsimp only
  rw [HostPath.components_below_append target hrest, if_pos (List.prefix_append _ _),
    List.drop_left]
  exact joinRemote_ofComponents (ofString_canonical path) hrest

theorem exists_download (hdisk : client.disk.WellFormed)
    (hsource : client.disk.Source (client.fullPath path) origin)
    (hroot : client.disk.BringsRoot (client.fullPath path) origin (directory ++ front))
    (hapart : Disk.Apart origin (directory ++ front))
    (hreaches : client.disk.Reaches target directory front)
    (hway : client.disk.HasWay target (directory ++ front)
      (client.disk.contentsAt origin).withoutLinks) :
    ∃ cargoes transfer new, (client.disk.contentsAt origin).Lists cargoes ∧
      (download path target).outcome client =
        (.ok (transfer.mapPaths (storePlace path target)), { client with disk := new }) ∧
      Disk.Delivered client.disk (directory ++ front) (HostPath.below target) cargoes
        transfer new := by
  obtain ⟨node, hfind⟩ := hsource.found
  obtain ⟨found, entry, hentry⟩ := Disk.exists_findEntry hfind
  have hlists := hsource.lists_cargoes hdisk (Disk.findWith_holds hdisk hfind)
  have hcopied := Disk.copyTree_delivers hdisk hsource hentry (.named hreaches) hway hapart
  have hdelivered := hcopied.of_bringsRoot hdisk hsource hfind hentry hroot
  generalize hcopy : (copyTree (client.fullPath path) target).run client.disk = result at hdelivered
  obtain ⟨transfer, new⟩ := result
  exact ⟨_, transfer, new, hlists, download_outcome hfind hcopy, hdelivered⟩

theorem Rooted.download_delivers (h : client.Rooted account location)
    (hroot : client.disk.contentsAt location (ofString path) ≠ none)
    (hbase : ofString path = [] → client.BringsBase location (directory ++ front))
    (hstored : ∀ rest, (client.disk.contentsAt location).under (ofString path) rest ≠ none →
      Accepts client.base (ofString path ++ rest))
    (hapart : Disk.Apart location (directory ++ front))
    (hreaches : client.disk.Reaches target directory front)
    (hway : client.disk.HasWay target (directory ++ front)
      ((client.disk.contentsAt location).under (ofString path))) :
    ∃ transfer new, (download path target).outcome client = (.ok transfer,
      { client with disk := new }) ∧
      (client.disk.contentsAt []).Downloads (directory ++ front) (ofString path)
        ((client.disk.contentsAt location).under (ofString path)) transfer (new.contentsAt []) := by
  have hpath := ofString_canonical path
  have hwellFormed := h.contents_wellFormed
  have htree := hwellFormed.isTree.under (ofString path)
  have hlink : ∀ rest destination,
      (client.disk.contentsAt location).under (ofString path) rest ≠ some (.link destination) :=
    fun rest => hwellFormed.noLink (ofString path ++ rest)
  have hunder := client.disk.contentsAt_append location (ofString path)
  have hthere : (client.disk.contentsAt location).under (ofString path) [] ≠ none := by
    unfold Contents.under
    rw [List.append_nil]
    exact hroot
  have haccepts := hstored [] hthere
  rw [List.append_nil] at haccepts
  have hsource := h.isSource hpath hunder hthere hstored
  have hwayBack := hway.withoutLinks
  rw [← hunder] at hwayBack
  obtain ⟨cargoes, transfer, new, hlists, hdownload, hdelivered⟩ :=
    exists_download h.wellFormed hsource (h.bringsRoot hpath hroot haccepts hbase)
      (hapart.append (ofString path)) hreaches hwayBack
  rw [hunder] at hlists
  have hplaces : ∀ rest ∈ ((client.disk.contentsAt []).deliver (directory ++ front) cargoes).failed,
      storePlace path target (HostPath.below target rest) = (ofString path ++ rest).text := by
    intro rest hrest
    obtain ⟨cargo, hcargo, rfl⟩ := Contents.exists_of_mem_failed hrest
    exact storePlace_below target (htree.canonical _ (hlists.ne_none hcargo)) path
  refine ⟨_, new, hdownload, ?_⟩
  rw [hdelivered.growsTo.contents]
  exact hlists.downloads htree hlink hpath (hdelivered.reported.mapPaths hplaces)

theorem Rooted.download_missing (h : client.Rooted account location)
    (haccepts : Accepts client.base (ofString path))
    (hnone : client.disk.contentsAt location (ofString path) = none) (target : String) :
    ∃ error, (download path target).outcome client = (.error error, client) ∧
      (¬ (client.disk.contentsAt location).FileAbove (ofString path) →
        error = .remoteNotFound path) := by
  have hpath := ofString_canonical path
  have hstat := stat?_outcome (client.fullPath path) client
  unfold download
  rw [Step.outcome_bind_ok (Step.outcome_get client)]
  dsimp only
  by_cases hfile : (client.disk.contentsAt location).FileAbove (ofString path)
  . have hrefused :=
      hstat.trans (congrArg (·, client) (h.described_below_file hpath haccepts hfile))
    exact ⟨_, Step.outcome_bind_error hrefused _, absurd hfile⟩
  . have hnothing :=
      hstat.trans (congrArg (·, client) (h.described_missing hpath haccepts hnone hfile))
    rw [Step.outcome_bind_ok hnothing]
    exact ⟨_, rfl, fun _ => rfl⟩

end DirectoryClient

end LakeStore
