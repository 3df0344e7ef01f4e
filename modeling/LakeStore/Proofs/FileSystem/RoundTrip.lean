import LakeStore.FileSystem
import LakeStore.Proofs.FileSystem.Agreement
import LakeStore.Proofs.Transfer.Copy

/-!
A local tree that is carried to a store and from there to another local path comes back as it was,
without its links, whichever client keeps it.
-/

namespace LakeStore

open StorePath

def Disk.Shows (disk : Disk) (path : String) (tree : Contents) : Prop :=
  ∃ location node, disk.findEntry path = .ok (.taken location node) ∧
    disk.contentsAt location = tree

theorem Disk.Awaits.shows {disk made new : Disk} {target : String} {place : Location}
    {tree : Contents} (h : disk.Awaits target made place) (hdisk : disk.WellFormed)
    (hgrows : made.Grows new) (hcontents : new.contentsAt place = tree) (hroot : tree [] ≠ none) :
    new.Shows target tree := by
  rw [← hcontents, ne_eq, contentsAt_eq_none_iff, List.append_nil] at hroot
  obtain ⟨node, hnode⟩ := Option.ne_none_iff_exists'.mp hroot
  obtain ⟨directory, path, rfl, hvacant⟩ := h.exists_vacant
  refine ⟨directory ++ path, node, ?_, hcontents⟩
  have hreaches := (hvacant.reaches (h.grows hdisk).wellFormed).of_grows hgrows
  unfold findEntry
  rw [hvacant.noSlash]
  exact hreaches.findWith_of_get? hgrows.wellFormed rfl hnode

section returns

variable {σ : Type} [StoreClient σ]

/--
Whether a tree is carried from a local path to a path of a store, and from there to any other local
path at which nothing is, with as many files transferred as it has each time. The directories that
lead to the other path may have to be made, in a place that `spares` says is apart from the store.
-/
def Returns (disk : σ → Disk) (client : σ) (source path : String) (tree : Contents)
    (spares : (stored made : Disk) → (place : Location) → Prop) : Prop :=
  ∃ stored, (StoreClient.upload source path).outcome client = (.ok ⟨tree.fileCount, []⟩, stored) ∧
    (∀ uri : RemoteUri,
      uri.path = path → (FileSystem.copyFromLocal source uri).outcome client = (.ok (), stored)) ∧
    ∀ target made place, (disk stored).Awaits target made place → spares (disk stored) made place →
      (∀ rest, tree rest ≠ none → DirectoryClient.Accepts target rest) →
      ∃ returned,
        (StoreClient.download path target).outcome stored = (.ok ⟨tree.fileCount, []⟩, returned) ∧
        (∀ uri : RemoteUri, uri.path = path →
          (FileSystem.copyToLocal uri target).outcome stored = (.ok (), returned)) ∧
        (disk returned).Shows target tree

variable {client changed : σ} {source target : String} {uri : RemoteUri} {count : Nat}

theorem copyFromLocal_of_upload
    (h : (StoreClient.upload source uri.path).outcome client = (.ok ⟨count, []⟩, changed)) :
    (FileSystem.copyFromLocal source uri).outcome client = (.ok (), changed) := by
  have hcall : (FileSystem.call (StoreClient.upload source uri.path)).outcome client =
      (.ok ⟨count, []⟩, changed) := by
    unfold FileSystem.call
    rw [Step.outcome_mapError, h]
    rfl
  unfold FileSystem.copyFromLocal
  rw [Step.outcome_bind_ok hcall]
  rfl

theorem copyToLocal_of_download
    (h : (StoreClient.download uri.path target).outcome client = (.ok ⟨count, []⟩, changed)) :
    (FileSystem.copyToLocal uri target).outcome client = (.ok (), changed) := by
  have hcall : (FileSystem.call (StoreClient.download uri.path target)).outcome client =
      (.ok ⟨count, []⟩, changed) := by
    unfold FileSystem.call
    rw [Step.outcome_mapError, h]
    rfl
  unfold FileSystem.copyToLocal
  rw [Step.outcome_bind_ok hcall]
  rfl

theorem Returns.of_copies {disk : σ → Disk} {path : String} {tree : Contents}
    {spares : (stored made : Disk) → (place : Location) → Prop} {stored : σ}
    (hupload : (StoreClient.upload source path).outcome client = (.ok ⟨tree.fileCount, []⟩, stored))
    (hdownload : ∀ target made place, (disk stored).Awaits target made place →
      spares (disk stored) made place →
      (∀ rest, tree rest ≠ none → DirectoryClient.Accepts target rest) →
      ∃ returned,
        (StoreClient.download path target).outcome stored = (.ok ⟨tree.fileCount, []⟩, returned) ∧
        made.Grows (disk returned) ∧ (disk returned).contentsAt place = tree)
    (hstored : (disk stored).WellFormed) (hroot : tree [] ≠ none) :
    Returns disk client source path tree spares := by
  refine ⟨stored, hupload, ?_, ?_⟩
  . rintro uri rfl
    exact copyFromLocal_of_upload hupload
  . intro target made place hawaits hspares hfits
    obtain ⟨returned, hcopy, hgrows, hcontents⟩ := hdownload target made place hawaits hspares hfits
    refine ⟨returned, hcopy, ?_, hawaits.shows hstored hgrows hcontents hroot⟩
    rintro uri rfl
    exact copyToLocal_of_download hcopy

end returns

theorem MemoryClient.returns {client : MemoryClient} {account source path : String}
    {origin : Location} (hclient : client.Sound account)
    (hsource : client.disk.Readable source origin)
    (htakes : client.tree.contents.Takes (ofString path)
      (client.disk.contentsAt origin).withoutLinks) :
    Returns (·.disk) client source path (client.disk.contentsAt origin).withoutLinks
      fun _ _ _ => True := by
  have htree := (Disk.isTree_contentsAt hclient.disk origin).withoutLinks
  have hlink := Contents.withoutLinks_ne_link (client.disk.contentsAt origin)
  have hroot := hsource.root_ne_none hclient.disk
  obtain ⟨stored, hupload, hstored⟩ := hclient.upload_copies hsource htakes
  refine Returns.of_copies hupload ?_ hclient.disk hroot
  intro target made place hawaits _ hfits
  obtain ⟨new, hdownload, hnew⟩ :=
    download_copies { client with tree := stored } hclient.disk hstored htree hroot hlink
    hawaits hfits
  exact ⟨_, hdownload, hnew⟩

theorem DirectoryClient.returns {client : DirectoryClient} {account source path : String}
    {location origin : Location} (hclient : client.Rooted account location)
    (hsource : client.disk.Readable source origin)
    (htakes : (client.disk.contentsAt location).Takes (ofString path)
      (client.disk.contentsAt origin).withoutLinks)
    (hapart : ¬ origin <+: location ++ ofString path)
    (hfits : ∀ rest, (client.disk.contentsAt origin).withoutLinks rest ≠ none →
      Accepts client.base (ofString path ++ rest))
    (hbase : ofString path = [] →
      (∃ modified,
        client.disk.findEntry client.base = .ok (.taken location (.directory modified))) ∨
        ∃ rest, rest ≠ [] ∧ (client.disk.contentsAt origin).withoutLinks rest ≠ none) :
    Returns (·.disk) client source path (client.disk.contentsAt origin).withoutLinks
      fun stored made place => stored.Spares (location ++ ofString path) made place := by
  have hlink := Contents.withoutLinks_ne_link (client.disk.contentsAt origin)
  have hroot := hsource.root_ne_none hclient.wellFormed
  obtain ⟨stored, hupload, hgrows, hcontents⟩ := hclient.upload_copies hsource htakes hapart hfits
  have hrooted := hclient.of_grows hgrows
  have hstoredSource := hrooted.isSource (ofString_canonical path) hcontents hroot hfits
  have hsame : (stored.contentsAt (location ++ ofString path)).withoutLinks =
      (client.disk.contentsAt origin).withoutLinks := by
    rw [hcontents, Contents.withoutLinks_withoutLinks]
  refine Returns.of_copies hupload ?_ hrooted.wellFormed hroot
  intro target made place hawaits hspares hfitsTarget
  have hmade := hawaits.grows hrooted.wellFormed
  have hmadeRooted := hrooted.of_grows hmade
  have hmadeContents : made.contentsAt location (ofString path) ≠ none := by
    rw [← hcontents, ← hspares.same, Disk.contentsAt_append] at hroot
    unfold Contents.under at hroot
    rw [List.append_nil] at hroot
    exact hroot
  have haccepts := hfits [] hroot
  rw [List.append_nil] at haccepts
  have hbrings :=
    hmadeRooted.bringsRoot (ofString_canonical path) hmadeContents haccepts fun hnil => by
    rcases hbase hnil with ⟨modified, hfound⟩ | ⟨rest, hne, hrest⟩
    . have hkeeps := hgrows.trans hmade
      exact .inl ⟨modified, Disk.findWith_keeps hkeeps.keeps hkeeps.here hfound⟩
    . rw [← hcontents, ← hspares.same, hnil, List.append_nil] at hrest
      exact .inr ⟨hawaits.canPutDirectory hrooted.wellFormed, .inl ⟨rest, hne, hrest⟩⟩
  rw [← hsame] at hfitsTarget ⊢
  obtain ⟨new, hdownload, hnew⟩ :=
    download_copies hrooted.wellFormed hstoredSource hawaits hspares hbrings hfitsTarget
  exact ⟨_, hdownload, hnew⟩

theorem Contents.takes_new {path : StorePath} {tree : Contents}
    (h : path ≠ [] ∨ tree [] = some .directory) :
    Contents.new.Takes path tree := by
  have hnone : ∀ other, other ≠ [] → Contents.new other = none := by
    intro other hne
    unfold Contents.new
    rw [if_neg hne]
  constructor
  . intro other hbelow
    apply hnone
    rintro rfl
    exact not_below_nil path hbelow
  . by_cases hnil : path = []
    . exact .inr ⟨by rw [hnil]; rfl, h.resolve_left (not_not_intro hnil)⟩
    . refine .inl ⟨hnone path hnil, ?_⟩
      rintro ⟨above, data, _, hfile⟩
      by_cases habove : above = []
      . rw [habove] at hfile
        cases hfile
      . rw [hnone above habove] at hfile
        cases hfile

def Disk.sample : Disk :=
  let root := ((Disk.createDirectory "/s").outcome (.empty default)).2
  let linked := ((Disk.createLink "/b" "/s").outcome root).2
  let tree := ((Disk.createDirectory "/l").outcome linked).2
  let directory := ((Disk.createDirectory "/l/d").outcome tree).2
  let file := ((Disk.writeFile "/l/f" (ByteArray.mk #[1])).outcome directory).2
  ((Disk.createLink "/l/k" "f").outcome file).2

theorem Disk.sample_wellFormed : Disk.sample.WellFormed := by
  have hroot := (createDirectory_grows (empty_wellFormed default) "/s").wellFormed
  have hlinked := createLink_wellFormed hroot "/b" "/s"
  have htree := (createDirectory_grows hlinked "/l").wellFormed
  have hdirectory := (createDirectory_grows htree "/l/d").wellFormed
  have hfile := (writeFile_grows hdirectory "/l/f" (ByteArray.mk #[1])).wellFormed
  exact createLink_wellFormed hfile "/l/k" "f"

theorem Disk.sample_paths {path : StorePath}
    (hpath : (sample.contentsAt ["l"]).withoutLinks path ≠ none) :
    path = [] ∨ path = ["d"] ∨ path = ["f"] := by
  have hentries : ∀ entry ∈ sample.nodes.entries,
      ["l"] <+: entry.1 → entry.1.drop 1 ∈ [[], ["d"], ["f"], ["k"]] := by
    decide
  have hlink : (sample.contentsAt ["l"]).withoutLinks ["k"] = none := by decide
  have hfound := Contents.ne_none_of_withoutLinks hpath
  rw [ne_eq, contentsAt_eq_none_iff] at hfound
  obtain ⟨node, hnode⟩ := Option.ne_none_iff_exists'.mp hfound
  have hmem :=
    hentries (["l"] ++ path, node) ((PathMap.mem_entries_iff _ _ _).mpr hnode)
    (List.prefix_append _ _)
  have hne : path ≠ ["k"] := by
    rintro rfl
    exact hpath hlink
  simpa [hne] using hmem

theorem Disk.accepts_sample {base : String}
    (h : ∀ path ∈ [[], ["d"], ["f"]], checkText (HostPath.below base path) = .ok ())
    {path : StorePath} (hpath : (sample.contentsAt ["l"]).withoutLinks path ≠ none) :
    DirectoryClient.Accepts base path := by
  rcases sample_paths hpath with rfl | rfl | rfl
  . exact ⟨by decide, h _ (by decide)⟩
  . exact ⟨by decide, h _ (by decide)⟩
  . exact ⟨by decide, h _ (by decide)⟩

theorem Disk.vacant_sample {disk : Disk}
    (hroot : ∃ modified, disk.nodes.get? [] = some (.directory modified))
    (habsent : disk.nodes.get? ["out"] = none) : disk.Vacant "/out/./x" [] ["out", "x"] := by
  obtain ⟨modified, hnode⟩ := hroot
  constructor
  . decide
  . decide
  . refine ⟨[], ["out", "."], "x", modified, by decide, by decide, ?_⟩
    exact follow_nil_of_get? hnode
  . decide
  . decide
  . intro name hname
    have hfirst : name = "out" := by simpa using hname.symm
    rw [hfirst]
    exact habsent

theorem Disk.detours_sample :
    sample.Detours "/new/../out" ((createParents "/new/../out").outcome sample).2 [] "out" := by
  have hparents : ((createParents "/new/../out").outcome sample).1.toBool := by decide +kernel
  refine ⟨by decide, ?_, by decide, by decide,
    ⟨["new", ".."], [], "out", default, by decide, by decide, ?_⟩, by decide, by decide, ?_⟩
  . generalize (createParents "/new/../out").outcome sample = outcome at hparents ⊢
    obtain ⟨_ | _, made⟩ := outcome
    . cases hparents
    . rfl
  . decide +kernel
  . decide +kernel

/--
A local tree that is carried to a store and from there to a new local path is there as it was,
without its links, as long as the host takes all the paths that lead to it. Nothing is at a new
local path when the directories that lead there are made, and for a store on the host it is not in
the stored tree. If the path of the whole store ends in a link, an empty directory does not come
back from there.
-/
theorem uploaded_tree_comes_back (source path : String) (origin : Location) :
    (∀ (client : MemoryClient) account, client.Sound account → client.disk.Readable source origin →
      client.tree.contents.Takes (ofString path) (client.disk.contentsAt origin).withoutLinks →
      Returns (·.disk) client source path (client.disk.contentsAt origin).withoutLinks
        fun _ _ _ => True) ∧
    (∀ (client : DirectoryClient) account location, client.Rooted account location →
      client.disk.Readable source origin →
      (client.disk.contentsAt location).Takes (ofString path)
        (client.disk.contentsAt origin).withoutLinks →
      ¬ origin <+: location ++ ofString path →
      (∀ rest, (client.disk.contentsAt origin).withoutLinks rest ≠ none →
        DirectoryClient.Accepts client.base (ofString path ++ rest)) →
      (ofString path = [] →
        (∃ modified,
          client.disk.findEntry client.base = .ok (.taken location (.directory modified))) ∨
          ∃ rest, rest ≠ [] ∧ (client.disk.contentsAt origin).withoutLinks rest ≠ none) →
      Returns (·.disk) client source path (client.disk.contentsAt origin).withoutLinks
        fun stored made place => stored.Spares (location ++ ofString path) made place) := by
  constructor
  . intro client account hclient hsource htakes
    exact MemoryClient.returns hclient hsource htakes
  . intro client account location hclient hsource htakes hapart hfits hbase
    exact DirectoryClient.returns hclient hsource htakes hapart hfits hbase

theorem uploaded_tree_comes_back_sample :
    let memory := MemoryClient.new "acct" Disk.sample
    let directory := DirectoryClient.mk "acct" "/b" Disk.sample
    let tree := (Disk.sample.contentsAt ["l"]).withoutLinks
    (∃ stored returned,
      (StoreClient.upload "/l" "a//r").outcome memory = (.ok ⟨tree.fileCount, []⟩, stored) ∧
      (StoreClient.download "a//r" "/new/../out").outcome stored =
        (.ok ⟨tree.fileCount, []⟩, returned) ∧
      returned.disk.Shows "/new/../out" tree) ∧
    ∃ stored returned,
      (StoreClient.upload "/l" "/").outcome directory = (.ok ⟨tree.fileCount, []⟩, stored) ∧
      (StoreClient.download "/" "/out/./x").outcome stored = (.ok ⟨tree.fileCount, []⟩, returned) ∧
      returned.disk.Shows "/out/./x" tree := by
  intro memory directory tree
  have hsource : Disk.sample.Readable "/l" ["l"] := by
    refine ⟨⟨.directory default, by decide, by simp⟩, ?_⟩
    intro path hpath
    exact Disk.accepts_sample (by decide) hpath
  have hnames : ofString "a//r" = ["a", "r"] ∧ ofString "/" = [] := by decide
  constructor
  . have htakes : memory.tree.contents.Takes (ofString "a//r") tree := by
      rw [MemoryClient.contents_new, hnames.1]
      exact Contents.takes_new (.inl (by simp))
    have hsound := MemoryClient.new_sound "acct" Disk.sample_wellFormed
    obtain ⟨stored, hupload, _, hreturns⟩ :=
      (uploaded_tree_comes_back "/l" "a//r" ["l"]).1 memory "acct" hsound hsource htakes
    have hdisk : stored.disk = Disk.sample := by
      obtain ⟨kept, hkept, _⟩ := hsound.upload_copies hsource htakes
      have hstored := congrArg Prod.snd (hupload.symm.trans hkept)
      exact congrArg MemoryClient.disk hstored
    have hfits : ∀ rest, tree rest ≠ none → DirectoryClient.Accepts "/new/../out" rest := by
      intro path hpath
      exact Disk.accepts_sample (by decide) hpath
    have hawaits := Disk.Awaits.detour Disk.detours_sample
    rw [← hdisk] at hawaits
    obtain ⟨returned, hdownload, _, hshows⟩ := hreturns "/new/../out" _ _ hawaits trivial hfits
    exact ⟨stored, returned, hupload, hdownload, hshows⟩
  . have hfind : directory.disk.find directory.base =
        .ok (.taken ["s"] (.directory default)) := by decide
    have hempty : directory.disk.nodes.below ["s"] = [] := by decide
    have htakes : (directory.disk.contentsAt ["s"]).Takes (ofString "/") tree := by
      have hnew : directory.disk.contentsAt ["s"] = Contents.new :=
        DirectoryClient.contentsAt_of_empty Disk.sample_wellFormed hfind hempty
      rw [hnew, hnames.2]
      exact Contents.takes_new (.inr rfl)
    have hstored : ∀ rest,
        tree rest ≠ none → DirectoryClient.Accepts "/b" (ofString "/" ++ rest) := by
      intro rest hrest
      rw [hnames.2]
      exact Disk.accepts_sample (by decide) hrest
    have hfits : ∀ rest, tree rest ≠ none → DirectoryClient.Accepts "/out/./x" rest := by
      intro path hpath
      exact Disk.accepts_sample (by decide) hpath
    obtain ⟨stored, hupload, _, hreturns⟩ :=
      (uploaded_tree_comes_back "/l" "/" ["l"]).2 directory "acct" ["s"]
      (DirectoryClient.rooted_of_empty Disk.sample_wellFormed hfind hempty) hsource htakes
      (by decide) hstored (fun _ => .inr ⟨["d"], by decide, by decide⟩)
    have hdisk : stored = ((StoreClient.upload "/l" "/").outcome directory).2 := by rw [hupload]
    have hvacant : stored.disk.Vacant "/out/./x" [] ["out", "x"] := by
      rw [hdisk]
      exact Disk.vacant_sample ⟨default, by decide +kernel⟩ (by decide +kernel)
    obtain ⟨returned, hdownload, _, hshows⟩ :=
      hreturns "/out/./x" _ _ (.vacant hvacant) ⟨by decide, rfl⟩ hfits
    exact ⟨stored, returned, hupload, hdownload, hshows⟩

theorem uploaded_tree_lost :
    let directory := DirectoryClient.mk "acct" "/s" .sample
    let memory :=
      (FileSystem.copyFromLocal "/l" (.ofPath "acct" "r")).outcome (MemoryClient.new "acct" .sample)
    let linked := (FileSystem.copyFromLocal "/l/d" (.ofPath "acct" "/")).outcome
      (DirectoryClient.mk "acct" "/b" .sample)
    ((FileSystem.copyFromLocal "/l/f" (.ofPath "acct" "\x00")).outcome directory).1.isOk = false ∧
      (memory.1.isOk ∧ ∀ target ∈ ["/new/.", "/new/../l/f"],
        (memory.2.disk.metadata target).isOk = false ∧
        ((FileSystem.copyToLocal (.ofPath "acct" "r") target).outcome memory.2).1.isOk = false) ∧
      linked.1.isOk ∧
      ((FileSystem.copyToLocal (.ofPath "acct" "/") "/new").outcome linked.2).1.isOk ∧
      (((FileSystem.copyToLocal (.ofPath "acct" "/") "/new").outcome linked.2).2.disk.metadata
        "/new").isOk = false := by
  decide +kernel

end LakeStore
