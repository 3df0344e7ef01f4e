import LakeStore.Proofs.Directory.Creation
import LakeStore.Proofs.Directory.Listing
import LakeStore.Proofs.Memory.Creation
import LakeStore.Proofs.Path.Translation

/-!
A directory tells of an entry that was created in it, under an address. The address is the one of
the canonical path, however the path was written. The address that the entry was created under is
the same one unless an empty name is left in its path, since addresses keep such names and stores do
not.
-/

namespace LakeStore

open FileSystem StorePath

theorem absolutePath_eq_normalize_iff (text : String) :
    absolutePath text = normalize text ↔ "" ∉ resolveDots text := by
  constructor
  . intro heq hempty
    rw [← resolveDots_absolutePath, heq] at hempty
    have hcanonical := ofString_canonical text
    rw [normalize, StorePath.text, resolveDots_rooted hcanonical.resolved] at hempty
    exact (hcanonical "" hempty).nonempty rfl
  . intro hempty
    have hkept : ofString text = resolveDots text := by
      unfold ofString
      rw [List.filter_eq_self]
      intro name hname
      rw [decide_eq_true_eq]
      rintro rfl
      exact hempty hname
    rw [normalize, hkept]
    rfl

structure Children.HaveName (children : Children) (directory : StorePath) (name : String) :
    Prop where
  mem : .ofPath children.account (directory ++ [name]).text ∈ children.all
  canonical : ∀ child ∈ children.all, ∃ other, (directory ++ [other]).Canonical ∧
    child = .ofPath children.account (directory ++ [other]).text

theorem Children.HaveName.mem_iff {children : Children} {directory : StorePath} {name text : String}
    (h : children.HaveName directory name) (htext : ofString text = directory ++ [name]) :
    .ofPath children.account text ∈ children.all ↔ "" ∉ resolveDots text := by
  rw [← absolutePath_eq_normalize_iff]
  constructor
  . intro hmem
    obtain ⟨other, hcanonical, heq⟩ := h.canonical _ hmem
    have hpath : absolutePath text = absolutePath (directory ++ [other]).text :=
      congrArg RemoteUri.path heq
    rw [absolutePath_text hcanonical] at hpath
    rw [hpath, ← normalize_absolutePath, hpath, normalize_text hcanonical]
  . intro hsame
    have hmem := h.mem
    rw [← htext] at hmem
    have haddress : RemoteUri.ofPath children.account text =
        .ofPath children.account (ofString text).text := by
      unfold RemoteUri.ofPath
      rw [hsame, ← normalize, absolutePath_normalize]
    rw [haddress]
    exact hmem

section

variable {σ : Type} [StoreClient σ]

/-- A path is created under the address that is made for it, as a file or as a directory. -/
def Creates (client : σ) (path : String) (made : σ) : Prop :=
  (∃ writer, (uriOfPath (some path) >>= create).outcome client = (.ok writer, made)) ∨
    (uriOfPath (some path) >>= createDirectory).outcome client = (.ok (), made)

/--
The directory of a path tells of its entry, under the address of the canonical path. Under the
address of the path itself it does so exactly when no empty name is left in it.
-/
def ListsEntry (client : σ) (path : String) : Prop :=
  ∀ parent : RemoteUri, ofString parent.path = (ofString path).dropLast →
    ∃ found, (children parent).outcome client = (.ok found, client) ∧
      .ofPath (StoreClient.account client) (normalize path) ∈ found.all ∧
      (.ofPath (StoreClient.account client) path ∈ found.all ↔ "" ∉ resolveDots path)

variable {client made : σ} {path : String}

theorem listsEntry_of_children {directory : StorePath} {name : String}
    (hpath : ofString path = directory ++ [name])
    (h : ∀ parent : RemoteUri, ofString parent.path = directory →
      ∃ found, (children parent).outcome client = (.ok found, client) ∧
        found.account = StoreClient.account client ∧ found.HaveName directory name) :
    ListsEntry client path := by
  intro parent hparent
  rw [hpath, List.dropLast_concat] at hparent
  obtain ⟨found, hfound, haccount, hnames⟩ := h parent hparent
  refine ⟨found, hfound, ?_, ?_⟩
  . have hmem := hnames.mem
    rw [haccount, ← hpath] at hmem
    exact hmem
  . rw [← haccount]
    exact hnames.mem_iff hpath

theorem creates_iff : Creates client path made ↔
    (∃ writer,
      (create (.ofPath (StoreClient.account client) path)).outcome client = (.ok writer, made)) ∨
      (createDirectory (.ofPath (StoreClient.account client) path)).outcome client =
        (.ok (), made) := by
  have huri : (uriOfPath (some path)).outcome client =
      (.ok (.ofPath (StoreClient.account client) path), client) := rfl
  unfold Creates
  rw [Step.outcome_bind_ok huri, Step.outcome_bind_ok huri]

end

namespace MemoryClient

variable {client made : MemoryClient} {account path : String}

theorem Made.haveName {directory : StorePath} {name : String} {content : Content}
    (h : Made account client made (directory ++ [name]) content) :
    (Children.mk made.account ((made.tree.children directory).map fun (key, node) =>
      node.entry key)).HaveName directory name := by
  constructor
  . rw [mem_children_all]
    exact ⟨name, by simp [h.content], rfl⟩
  . intro child hchild
    rw [mem_children_all] at hchild
    obtain ⟨other, hother, rfl⟩ := hchild
    exact ⟨other, h.sound.tree.canonical _ hother, rfl⟩

theorem exists_made (h : client.Sound account) (hcreates : Creates client path made) :
    ∃ content, Made account client made (ofString path) content := by
  rw [← ofString_path_ofPath (StoreClient.account client)]
  rcases creates_iff.mp hcreates with ⟨writer, hcreate⟩ | hcreate
  . exact ⟨_, (made_of_create h hcreate).1⟩
  . exact ⟨_, (made_of_createDirectory h hcreate).1⟩

theorem listsEntry_of_creates (h : client.Sound account) (hne : ofString path ≠ [])
    (hcreates : Creates client path made)
    (hpending : client.tree.pending (ofString path).dropLast = false) :
    ListsEntry made path := by
  obtain ⟨content, hmade⟩ := exists_made h hcreates
  obtain ⟨directory, name, hpath⟩ := List.eq_nil_or_concat' (ofString path) |>.resolve_left hne
  rw [hpath] at hmade
  rw [hpath, List.dropLast_concat] at hpending
  apply listsEntry_of_children hpath
  rintro parent rfl
  refine ⟨_, hmade.children ?_ hpending, rfl, hmade.haveName⟩
  exact below_concat_iff.mpr List.prefix_rfl

end MemoryClient

namespace DirectoryClient

variable {client made : DirectoryClient} {path : String} {directory : StorePath} {name : String}

theorem HasEntry.children (h : client.HasEntry directory name) {uri : RemoteUri}
    (huri : ofString uri.path = directory) :
    ∃ found, (FileSystem.children uri).outcome client = (.ok found, client) ∧
    found.account = client.account ∧
      found.HaveName directory name := by
  subst huri
  obtain ⟨place, modified, hfind, hentry⟩ := h.entry
  have hdirectory := ofString_canonical uri.path
  refine ⟨_, children_of_find hfind, rfl, ?_, ?_⟩
  . rw [mem_all_listed h.wellFormed hdirectory]
    exact ⟨name, hentry, rfl⟩
  . intro child hchild
    rw [mem_all_listed h.wellFormed hdirectory] at hchild
    obtain ⟨other, hother, rfl⟩ := hchild
    obtain ⟨node, hnode⟩ := Option.ne_none_iff_exists'.mp hother
    have hname := (canonical_append.mp (h.wellFormed.canonical hnode)).2
    exact ⟨other, canonical_append.mpr ⟨hdirectory, hname⟩, rfl⟩

theorem listsEntry_of_creates (h : client.disk.WellFormed) (hbase : client.base ≠ "")
    (hne : ofString path ≠ []) (hcreates : Creates client path made) : ListsEntry made path := by
  obtain ⟨directory, name, hpath⟩ := List.eq_nil_or_concat' (ofString path) |>.resolve_left hne
  have haddress : ofString (RemoteUri.ofPath (StoreClient.account client) path).path =
      directory ++ [name] := by
    rw [ofString_path_ofPath, hpath]
  have hentry : made.HasEntry directory name := by
    rcases creates_iff.mp hcreates with ⟨writer, hcreate⟩ | hcreate
    . exact hasEntry_of_createFile h hbase haddress (call_eq_ok hcreate)
    . exact hasEntry_of_createDirectory h hbase haddress (createDirectory_eq_ok hcreate)
  apply listsEntry_of_children hpath
  intro parent hparent
  exact hentry.children hparent

end DirectoryClient

/--
The directory of an entry that was created tells of it under the address of the canonical path, and
so under the address that it was created under exactly when no empty name is left in that path,
neither between slashes nor behind a final one. Slashes in front and dot segments do not count. In
memory this is so in every state that a store reaches, unless the directory was there already and
about to be deleted; on the host, whatever is on the disk.
-/
theorem created_entry_listed {path : String} (hne : ofString path ≠ []) :
    (∀ (account : String) (host : Disk) (events : List MemoryClient.Event) (made : MemoryClient),
      host.WellFormed →
      let client := (MemoryClient.after account host events).client
      client.tree.pending (ofString path).dropLast = false → Creates client path made →
      ListsEntry made path) ∧
    (∀ client made : DirectoryClient, client.disk.WellFormed → client.base ≠ "" →
      Creates client path made → ListsEntry made path) := by
  constructor
  . intro account host events made hhost client hpending hcreates
    exact MemoryClient.listsEntry_of_creates (MemoryClient.after_sound account hhost events) hne
      hcreates hpending
  . intro client made hdisk hbase hcreates
    exact DirectoryClient.listsEntry_of_creates hdisk hbase hne hcreates

theorem created_entry_listed_spellings :
    let inMemory := (MemoryClient.after "acct" (.empty default) []).client
    let made := ((create (.ofPath "acct" "/x/../d/./f")).outcome inMemory).2
    let changed := ((createDirectory (.ofPath "acct" "f//")).outcome DirectoryClient.sample).2
    (∃ found, (children (.ofPath "acct" "d")).outcome made = (.ok found, made) ∧
      .ofPath "acct" "/x/../d/./f" ∈ found.all) ∧
    (∃ found, (children (.ofPath "acct" "/")).outcome changed = (.ok found, changed) ∧
      .ofPath "acct" "f" ∈ found.all ∧ .ofPath "acct" "f//" ∉ found.all) := by
  intro inMemory made changed
  constructor
  . have hcreate : (create (.ofPath "acct" "/x/../d/./f")).outcome inMemory =
        (.ok ⟨["d", "f"]⟩, made) := rfl
    have hlists :=
      (created_entry_listed (by decide)).1 "acct" (.empty default) [] made
      (Disk.empty_wellFormed default) (by decide) (creates_iff.mpr (.inl ⟨_, hcreate⟩))
    obtain ⟨found, hfound, _, hmem⟩ := hlists (.ofPath "acct" "d") (by decide)
    exact ⟨found, hfound, hmem.mpr (by decide)⟩
  . have hcreate : (createDirectory (.ofPath "acct" "f//")).outcome DirectoryClient.sample =
        (.ok (), changed) := rfl
    have hlists := (created_entry_listed (by decide)).2 DirectoryClient.sample changed
      DirectoryClient.sample_rooted.wellFormed (by decide) (creates_iff.mpr (.inr hcreate))
    obtain ⟨found, hfound, hcanonical, hmem⟩ := hlists (.ofPath "acct" "/") (by decide)
    exact ⟨found, hfound, hcanonical, hmem.not.mpr (by decide)⟩

theorem created_entry_listed_elsewhere :
    let client := (MemoryClient.after "acct" (.empty default) []).client
    let made := ((createDirectory (.ofPath "acct" "d/")).outcome client).2
    ofString "d/" ≠ [] ∧ Creates client "d/" made ∧
      ∃ found, (children (.ofPath "acct" "/")).outcome made = (.ok found, made) ∧
        found.all = [.ofPath "acct" "d"] ∧ .ofPath "acct" "d/" ∉ found.all := by
  intro client made
  have hcreate : (createDirectory (.ofPath "acct" "d/")).outcome client = (.ok (), made) := rfl
  have hcreates : Creates client "d/" made := creates_iff.mpr (.inr hcreate)
  have hfound : (children (.ofPath "acct" "/")).outcome made =
      (.ok ⟨"acct", [⟨"/d", .directory, some default, 0⟩]⟩, made) := rfl
  exact ⟨by decide, hcreates, _, hfound, by decide, by decide⟩

end LakeStore
