import LakeStore.Proofs.Directory.Listing

/-!
What a store on the host tells about a path that it listed. A listing describes a link by itself,
and a lookup describes what the link leads to, so that the two agree about every entry of a
directory that the host has no link for, and about those links alone that lead to a file as long as
the text of their target.
-/

namespace LakeStore

namespace Disk

open StorePath

variable {disk : Disk} {base name : String} {location : Location} {modified : Time}

theorem length_describe_file (disk : Disk) (id : Nat) :
    (disk.describe (.file id)).length = (disk.contents id).size := by
  unfold describe contents
  dsimp only
  split
  all_goals rfl

section find

variable (hfind : disk.find base = .ok (.taken location (.directory modified)))

include hfind

theorem find_below {path : StorePath} (hpath : path.Canonical) (hne : path ≠ [])
    (hcheck : checkText (HostPath.below base path) = .ok ()) :
    ∃ expand,
      disk.find (HostPath.below base path) =
        disk.follow expand ⟨true, false, false⟩ location path := by
  have hbase := (checkText_eq_ok_iff.mp (checkText_of_findWith hfind)).2.1
  unfold find
  rw [HostPath.endsInSlash_below hbase hpath hne]
  exact findWith_below hfind hpath hne hcheck ⟨true, false, false⟩

theorem takes_of_find (hname : IsName name) {spot : Spot}
    (hspot : disk.find (HostPath.below base [name]) = .ok spot) :
    name.utf8ByteSize ≤ maxName ∧ checkText (HostPath.below base [name]) = .ok () := by
  have hcheck := checkText_of_findWith hspot
  refine ⟨?_, hcheck⟩
  obtain ⟨expand, hfollow⟩ := find_below hfind (canonical_singleton.mpr hname) (by simp) hcheck
  rw [hfollow, follow_name hname.notDot hname.notDotDot, if_neg (by simp)] at hspot
  split at hspot
  . cases hspot
  . next hshort => exact Nat.not_lt.mp hshort

theorem find_below_of_get? (h : disk.WellFormed) {path : StorePath} (hpath : path.Canonical)
    (hshort : Short path) (hcheck : checkText (HostPath.below base path) = .ok ()) {node : Node}
    (hlink : ∀ target modified, node ≠ .link target modified)
    (hnode : disk.nodes.get? (location ++ path) = some node) :
    disk.find (HostPath.below base path) = .ok (.taken (location ++ path) node) := by
  by_cases hnil : path = []
  . subst hnil
    rw [List.append_nil] at hnode ⊢
    have hheld : disk.nodes.get? location = some (.directory modified) := findWith_holds h hfind
    rw [hheld, Option.some_inj] at hnode
    subst hnode
    exact hfind
  . obtain ⟨expand, hfollow⟩ := find_below hfind hpath hnil hcheck
    rw [hfollow]
    exact follow_of_get? h hpath hshort rfl hlink hnode

end find

end Disk

namespace DirectoryClient

open StorePath

variable {client : DirectoryClient} {location : Location} {path : String} {modified : Time}

/--
Whether the store, asked for the path of an entry, tells of an entry with the same name, type and
length.
-/
structure Confirms (client : DirectoryClient) (entry : Entry) : Prop where
  entryAt? : ∃ found,
    (StoreClient.entryAt? entry.fullName : ClientM DirectoryClient (Option Entry)).outcome client =
      (.ok (some found), client) ∧
    found.fullName = entry.fullName ∧ found.type = entry.type ∧ found.length = entry.length
  exists? : (StoreClient.exists? entry.fullName : ClientM DirectoryClient Bool).outcome client =
    (.ok true, client)

theorem described_eq_some_iff {full : String} {found : Metadata} :
    client.described full = .ok (some found) ↔
    ∃ place node,
      client.disk.find full = .ok (.taken place node) ∧ client.disk.describe node = found := by
  unfold described Disk.metadata
  cases client.disk.find full with
  | error error => cases error <;> simp [bind, Except.bind]
  | ok spot =>
    cases spot with
    | free directory name => simp [bind, Except.bind, Spot.node]
    | taken place node =>
      change Except.ok (some (client.disk.describe node)) = _ ↔ _
      simp

theorem entryOf_file (fullName : String) (disk : Disk) (id : Nat) :
    ∃ modified, entryOf fullName (disk.describe (.file id)) =
      ⟨fullName, .file, some modified, (disk.contents id).size⟩ := by
  rw [← disk.length_describe_file]
  unfold Disk.describe
  dsimp only
  split
  all_goals exact ⟨_, rfl⟩

theorem entryOf_link (fullName : String) (disk : Disk) (target : String) (modified : Time) :
    entryOf fullName (disk.describe (.link target modified)) =
      ⟨fullName, .file, some modified, target.utf8ByteSize⟩ := rfl

theorem fullPath_normalize (client : DirectoryClient) (path : String) :
    client.fullPath (normalize path) = client.fullPath path := by
  unfold fullPath
  rw [ofString_normalize]

theorem exists_find_of_list {entries : List Entry} {changed : DirectoryClient}
    (hlist : (list path).outcome client = (.ok entries, changed)) :
    ∃ location modified,
      client.disk.find (client.fullPath path) = .ok (.taken location (.directory modified)) := by
  unfold list at hlist
  rw [Step.outcome_bind_ok (Step.outcome_get client), Step.outcome_bind_pure, Step.outcome_mapError,
    Step.outcome_ofExcept, fullPath_normalize] at hlist
  unfold Disk.readDirectory Disk.entriesIn at hlist
  cases hfind : client.disk.find (client.fullPath path) with
  | error error =>
    rw [hfind] at hlist
    cases hlist
  | ok spot =>
    rw [hfind] at hlist
    cases spot with
    | free directory name => cases hlist
    | taken location node =>
      cases node with
      | directory modified => exact ⟨location, modified, rfl⟩
      | file id => cases hlist
      | link target modified => cases hlist

theorem confirms_iff {entry : Entry} (hnormal : normalize entry.fullName = entry.fullName) :
    client.Confirms entry ↔ ∃ place node,
      client.disk.find (client.fullPath entry.fullName) = .ok (.taken place node) ∧
      (entryOf entry.fullName (client.disk.describe node)).type = entry.type ∧
      (entryOf entry.fullName (client.disk.describe node)).length = entry.length := by
  constructor
  . rintro ⟨⟨found, hfound, _, htype, hlength⟩, _⟩
    rw [entryAt?_outcome, hnormal] at hfound
    cases hdescribed : client.described (client.fullPath entry.fullName) with
    | error error =>
      rw [hdescribed] at hfound
      cases hfound
    | ok found? =>
      rw [hdescribed] at hfound
      cases found? with
      | none => cases hfound
      | some metadata =>
        cases hfound
        obtain ⟨place, node, hfind, rfl⟩ := described_eq_some_iff.mp hdescribed
        exact ⟨place, node, hfind, htype, hlength⟩
  . rintro ⟨place, node, hfind, htype, hlength⟩
    have hdescribed := described_eq_some_iff.mpr ⟨place, node, hfind, rfl⟩
    constructor
    . refine ⟨_, ?_, fullName_entryOf _ _, htype, hlength⟩
      rw [entryAt?_outcome, hdescribed, hnormal]
      rfl
    . rw [exists?_outcome, hdescribed]
      rfl

theorem fullPath_text {path : StorePath} (hpath : path.Canonical) :
    client.fullPath path.text = HostPath.below client.base path := by
  unfold fullPath
  rw [ofString_text hpath]

theorem fullPath_name {name : String} (hname : IsName name) :
    client.fullPath (ofString path ++ [name]).text =
      HostPath.below (client.fullPath path) [name] := by
  have hpath : Canonical (ofString path ++ [name]) :=
    canonical_append.mpr ⟨ofString_canonical path, canonical_singleton.mpr hname⟩
  rw [fullPath_text hpath]
  exact List.foldl_append

section entry

variable {name : String} {node : Disk.Node} (h : client.disk.WellFormed)
  (hfind : client.disk.find (client.fullPath path) = .ok (.taken location (.directory modified)))
  (hname : IsName name) (hnode : client.disk.nodes.get? (location ++ [name]) = some node)

include h hfind hname hnode

theorem find_entry_of_plain (hlink : ∀ target time, node ≠ .link target time)
    (hshort : name.utf8ByteSize ≤ Disk.maxName)
    (hcheck : Disk.checkText (client.fullPath (ofString path ++ [name]).text) = .ok ()) :
    client.disk.find (client.fullPath (ofString path ++ [name]).text) =
      .ok (.taken (location ++ [name]) node) := by
  rw [fullPath_name hname] at hcheck ⊢
  have hshortName : Disk.Short [name] := by simpa [Disk.Short] using hshort
  exact Disk.find_below_of_get? hfind h (canonical_singleton.mpr hname) hshortName
    hcheck hlink hnode

theorem confirms_name_iff :
    client.Confirms (entryOf (ofString path ++ [name]).text (client.disk.describe node)) ↔
      (name.utf8ByteSize ≤ Disk.maxName ∧
        Disk.checkText (client.fullPath (ofString path ++ [name]).text) = .ok ()) ∧
      ∀ target time, node = .link target time → ∃ place id,
        client.disk.find (client.fullPath (ofString path ++ [name]).text) =
          .ok (.taken place (.file id)) ∧
          (client.disk.contents id).size = target.utf8ByteSize := by
  have hpath : Canonical (ofString path ++ [name]) :=
    canonical_append.mpr ⟨ofString_canonical path, canonical_singleton.mpr hname⟩
  rw [confirms_iff (by rw [fullName_entryOf, normalize_text hpath]), fullName_entryOf]
  constructor
  . rintro ⟨place, found, hfound, htype, hlength⟩
    constructor
    . rw [fullPath_name hname] at hfound ⊢
      exact Disk.takes_of_find hfind hname hfound
    . rintro target time rfl
      rw [entryOf_link] at htype hlength
      cases found with
      | directory modified => cases htype
      | file id =>
        obtain ⟨modified, hentry⟩ := entryOf_file (ofString path ++ [name]).text client.disk id
        rw [hentry] at hlength
        exact ⟨place, id, hfound, hlength⟩
      | link target modified => exact absurd rfl (Disk.find_resolved h hfound target modified)
  . rintro ⟨⟨hshort, hcheck⟩, hlinks⟩
    by_cases hlink : ∃ target time, node = .link target time
    . obtain ⟨target, time, rfl⟩ := hlink
      obtain ⟨place, id, hfound, hsize⟩ := hlinks target time rfl
      obtain ⟨modified, hentry⟩ := entryOf_file (ofString path ++ [name]).text client.disk id
      refine ⟨place, .file id, hfound, ?_⟩
      rw [hentry, entryOf_link]
      exact ⟨rfl, hsize⟩
    . have hplain : ∀ target time, node ≠ .link target time :=
        fun target time heq => hlink ⟨target, time, heq⟩
      exact ⟨_, node, find_entry_of_plain h hfind hname hnode hplain hshort hcheck, rfl, rfl⟩

end entry

/--
A listing and a lookup agree about an entry of a directory exactly when the host takes its path, and
the entry is no link, or one that leads to a file as long as the text of its target. Any other link
is listed as a file, though it leads to a directory, to a file of another length, or nowhere.
-/
theorem listing_confirmed_unless_link {client : DirectoryClient} (h : client.disk.WellFormed)
    {path : String} {entries : List Entry} {changed : DirectoryClient}
    (hlist : (StoreClient.list path : ClientM DirectoryClient (List Entry)).outcome client =
      (.ok entries, changed)) :
    ∃ location modified,
      client.disk.find (client.fullPath path) = .ok (.taken location (.directory modified)) ∧
      ∀ entry ∈ entries, ∃ name node, client.disk.nodes.get? (location ++ [name]) = some node ∧
        entry = entryOf (ofString path ++ [name]).text (client.disk.describe node) ∧
        (client.Confirms entry ↔
          (name.utf8ByteSize ≤ Disk.maxName ∧
            Disk.checkText (client.fullPath entry.fullName) = .ok ()) ∧
          ∀ target time, node = .link target time → ∃ place id,
            client.disk.find (client.fullPath entry.fullName) = .ok (.taken place (.file id)) ∧
              (client.disk.contents id).size = target.utf8ByteSize) := by
  obtain ⟨location, modified, hfind⟩ := exists_find_of_list hlist
  refine ⟨location, modified, hfind, ?_⟩
  intro entry hentry
  change (list path).outcome client = _ at hlist
  rw [list_of_find hfind] at hlist
  cases hlist
  obtain ⟨⟨key, node⟩, hchild, rfl⟩ := List.mem_map.mp hentry
  obtain ⟨name, rfl, hnode⟩ := (PathMap.mem_children_iff _ _ _ _).mp hchild
  have hname : IsName name := h.name location name node hnode
  have hlisted : client.listed (ofString path) (location ++ [name], node) =
      entryOf (ofString path ++ [name]).text (client.disk.describe node) :=
    listed_name (ofString_canonical path) hname node
  refine ⟨name, node, hnode, hlisted, ?_⟩
  rw [hlisted, fullName_entryOf]
  exact confirms_name_iff h hfind hname hnode

def withLink : DirectoryClient :=
  let root := ((Disk.createDirectory "/s").outcome (.empty default)).2
  let directory := ((Disk.createDirectory "/s/d").outcome root).2
  ⟨"acct", "/s", ((Disk.createLink "/s/k" "d").outcome directory).2⟩

theorem withLink_wellFormed : withLink.disk.WellFormed := by
  have hroot := (Disk.createDirectory_grows (Disk.empty_wellFormed default) "/s").wellFormed
  have hdirectory := (Disk.createDirectory_grows hroot "/s/d").wellFormed
  exact Disk.createLink_wellFormed hdirectory "/s/k" "d"

theorem listing_confirmed_unless_link_to_directory :
    let entries : List Entry :=
      [⟨"/d", .directory, some default, 0⟩, ⟨"/k", .file, some default, 1⟩]
    withLink.disk.WellFormed ∧
      (StoreClient.list "." : ClientM DirectoryClient (List Entry)).outcome withLink =
        (.ok entries, withLink) ∧
      ¬ withLink.Confirms ⟨"/k", .file, some default, 1⟩ ∧
      (StoreClient.entryAt? "/k" : ClientM DirectoryClient (Option Entry)).outcome withLink =
        (.ok (some ⟨"/k", .directory, some default, 0⟩), withLink) := by
  intro entries
  have hfind : withLink.disk.find (withLink.fullPath ".") =
      .ok (.taken ["s"] (.directory default)) := by decide +kernel
  have hlink : withLink.disk.find (withLink.fullPath "/k") =
      .ok (.taken ["s", "d"] (.directory default)) := by
    decide +kernel
  have hentries : (withLink.disk.nodes.children ["s"]).map (withLink.listed (ofString ".")) =
      entries := by decide +kernel
  have hlist := list_of_find hfind
  rw [hentries] at hlist
  refine ⟨withLink_wellFormed, hlist, ?_, ?_⟩
  . obtain ⟨location, modified, hfound, hall⟩ :=
      listing_confirmed_unless_link withLink_wellFormed hlist
    rw [hfind] at hfound
    cases hfound
    obtain ⟨name, node, hnode, hentry, hiff⟩ :=
      hall ⟨"/k", .file, some default, 1⟩ (by simp [entries])
    have hcanonical := withLink_wellFormed.canonical hnode
    have htext : StorePath.text ["k"] = StorePath.text [name] := by
      have hfullName := congrArg Entry.fullName hentry
      rw [fullName_entryOf] at hfullName
      exact hfullName
    have hpath := eq_of_text_eq (by decide) (canonical_append.mp hcanonical).2 htext
    rw [← hpath] at hnode
    have hget : withLink.disk.nodes.get? (["s"] ++ ["k"]) =
        some (.link "d" default) := by decide +kernel
    rw [hget, Option.some_inj] at hnode
    intro hconfirms
    obtain ⟨place, id, hfile, _⟩ := (hiff.mp hconfirms).2 "d" default hnode.symm
    rw [hlink] at hfile
    cases hfile
  . exact entryAt?_of_find hlink

end DirectoryClient

end LakeStore
