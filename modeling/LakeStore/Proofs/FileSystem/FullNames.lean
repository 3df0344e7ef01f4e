import LakeStore.Proofs.Directory.Confirmation
import LakeStore.Proofs.Directory.Runs
import LakeStore.Proofs.FileSystem.CallPaths
import LakeStore.Proofs.Memory.Listing
import LakeStore.Proofs.Path.Translation
import LakeStore.Proofs.Uri

/-!
The full name of an entry as the argument of a command. It is taken for a path, since no entry has
an empty name, and what the command finds there is the entry.
-/

namespace LakeStore

open StorePath FileSystem

theorem StorePath.mark_not_infix_text {path : StorePath} (h : path.Canonical) :
    ¬ "://".toList <:+: path.text.toList := by
  rintro ⟨before, after, htext⟩
  have hlist : (String.ofList before ++ ":") ++ "/" ++ ("" ++ "/" ++ String.ofList after) =
      path.text := by
    rw [← String.toList_inj, ← htext]
    simp
  by_cases hnil : path = []
  . have hlength := congrArg List.length htext
    have hmark : "://".toList.length = 3 := by decide
    have hroot : (StorePath.text []).toList.length = 1 := by decide
    rw [List.length_append, List.length_append, hmark, hnil, hroot] at hlength
    omega
  . have hpieces := congrArg pieces hlist
    have hnames : pieces path.text = pieces "" ++ path := by
      rw [← pieces_append_slashed "" h.resolved.noSlash, StorePath.text, rooted_of_ne_nil hnil,
        String.empty_append]
    rw [pieces_append_slash, pieces_append_slash, hnames] at hpieces
    obtain ⟨first, front, hfirst⟩ :=
      List.exists_cons_of_ne_nil (pieces_ne_nil (String.ofList before ++ ":"))
    rw [hfirst] at hpieces
    have hpath : front ++ "" :: pieces (String.ofList after) = path := (List.cons.inj hpieces).2
    exact (h "" (by simp [← hpath])).nonempty rfl

/--
Whether a text is an argument that commands take for a path, and for the one that it spells itself.
A command that is given it works there and nowhere else.
-/
structure FileSystem.ReadAsPath {σ : Type} [StoreClient σ] (client : σ) (text : String) : Prop where
  noMark : ¬ "://".toList <:+: text.toList
  resolve : ∃ uri, (FileSystem.resolve text).outcome client = (.ok uri, client) ∧
    (uriOfPath (some text)).outcome client = (.ok uri, client) ∧ uri.path = text ∧
    ∀ command : Command, command.path = text → command.ActsAt client uri
  normalize : LakeStore.normalize text = text

theorem FileSystem.resolve_of_noMark {σ : Type} [StoreClient σ] (client : σ) {text : String}
    (h : ¬ "://".toList <:+: text.toList) : (FileSystem.resolve text).outcome client =
      (.ok (.ofPath (StoreClient.account client) text), client) := by
  have hcut : RemoteUri.cutAt "://".toList text.toList = none := by
    rw [Option.eq_none_iff_forall_not_mem]
    rintro ⟨before, after⟩ hcut
    exact h ⟨before, after, (RemoteUri.eq_append_of_cutAt hcut).symm⟩
  unfold FileSystem.resolve
  rw [hcut]
  rfl

theorem Command.address_of_noMark {σ : Type} [StoreClient σ] (client : σ) {command : Command}
    (h : ¬ "://".toList <:+: command.path.toList) :
    (command.address : FsM σ RemoteUri).outcome client =
      (.ok (.ofPath (StoreClient.account client) command.path), client) := by
  cases command with
  | uri path => rfl
  | _ => exact resolve_of_noMark client h

theorem FileSystem.readAsPath_text {σ : Type} [StoreClient σ] (client : σ) {path : StorePath}
    (h : path.Canonical) : ReadAsPath client path.text := by
  have hmark := mark_not_infix_text h
  refine ⟨hmark, ⟨.ofPath (StoreClient.account client) path.text, ?_, rfl, ?_, ?_⟩,
    normalize_text h⟩
  . exact resolve_of_noMark client hmark
  . exact absolutePath_text h
  . intro command hpath
    rw [← hpath] at hmark ⊢
    apply Command.actsAt_of_address (Command.address_of_noMark client hmark)
    rintro recorded rfl
    exact Command.address_of_noMark recorded hmark

namespace DirectoryClient

variable {client : DirectoryClient}

/--
Whether the full names of the entries of a store lead to them: those that are kept, and those that
are told.
-/
structure HasFullNames (client : DirectoryClient) : Prop where
  stored : ∀ location modified path node,
    client.disk.find client.base = .ok (.taken location (.directory modified)) →
    client.disk.nodes.get? (location ++ path) = some node →
    ReadAsPath client path.text ∧ client.fullPath path.text = HostPath.below client.base path ∧
      ((∀ target time, node ≠ .link target time) → Accepts client.base path →
        (StoreClient.entryAt? path.text : ClientM DirectoryClient (Option Entry)).outcome client =
          (.ok (some (entryOf path.text (client.disk.describe node))), client))
  listed : ∀ path entries changed,
    (StoreClient.list path : ClientM DirectoryClient (List Entry)).outcome client =
      (.ok entries, changed) →
    ∃ location modified,
      client.disk.find (client.fullPath path) = .ok (.taken location (.directory modified)) ∧
      ∀ entry ∈ entries, ReadAsPath client entry.fullName ∧
        ∃ name node, client.disk.nodes.get? (location ++ [name]) = some node ∧
          entry = entryOf entry.fullName (client.disk.describe node) ∧
          client.fullPath entry.fullName = HostPath.below (client.fullPath path) [name]
  told : ∀ path entry changed,
    (StoreClient.entryAt? path : ClientM DirectoryClient (Option Entry)).outcome client =
      (.ok (some entry), changed) →
    ReadAsPath client entry.fullName ∧
      (StoreClient.entryAt? entry.fullName : ClientM DirectoryClient (Option Entry)).outcome
        client = (.ok (some entry), client)

theorem hasFullNames (h : client.disk.WellFormed) : client.HasFullNames := by
  constructor
  . intro location modified path node hfind hnode
    have hpath : path.Canonical := (canonical_append.mp (h.canonical hnode)).2
    refine ⟨readAsPath_text client hpath, fullPath_text hpath, ?_⟩
    intro hlink haccepts
    have hspot := Disk.find_below_of_get? hfind h hpath haccepts.short haccepts.checked hlink hnode
    rw [entryAt?_outcome, fullPath_text hpath, described_eq_some_iff.mpr ⟨_, node, hspot, rfl⟩,
      normalize_text hpath]
    rfl
  . intro path entries changed hlist
    obtain ⟨location, modified, hfind⟩ := exists_find_of_list hlist
    refine ⟨location, modified, hfind, ?_⟩
    intro entry hentry
    change (list path).outcome client = _ at hlist
    rw [list_of_find hfind] at hlist
    cases hlist
    obtain ⟨⟨key, node⟩, hchild, rfl⟩ := List.mem_map.mp hentry
    obtain ⟨name, rfl, hnode⟩ := (PathMap.mem_children_iff _ _ _ _).mp hchild
    have hname : IsName name := h.name location name node hnode
    rw [listed_name (ofString_canonical path) hname node, fullName_entryOf]
    have hpath := canonical_append.mpr ⟨ofString_canonical path, canonical_singleton.mpr hname⟩
    exact ⟨readAsPath_text client hpath, name, node, hnode, rfl, fullPath_name hname⟩
  . intro path entry changed htold
    rw [entryAt?_outcome, Prod.mk.injEq] at htold
    obtain ⟨hdescribed, rfl⟩ := htold
    cases hfound : client.described (client.fullPath path) with
    | error error =>
      rw [hfound] at hdescribed
      cases hdescribed
    | ok found? =>
      rw [hfound] at hdescribed
      cases found? with
      | none => cases hdescribed
      | some found =>
        cases hdescribed
        rw [fullName_entryOf]
        refine ⟨readAsPath_text client (ofString_canonical path), ?_⟩
        rw [entryAt?_outcome, fullPath_normalize, hfound, normalize_normalize]
        rfl

end DirectoryClient

/--
Commands take the full name of an entry for a path, and its path is the full name again, whatever
the name is. A command makes its operation there, and no call at another path. In memory the name
leads to the entry, and to nothing else. On the host it leads to the host path of the entry, which
is found there if it is no link and the host takes its path.
-/
theorem full_names_address_entries :
    (∀ account host events, host.WellFormed →
      let client := (MemoryClient.after account host events).client
      ∀ key node, client.tree.get? key = some node → ReadAsPath client (node.entry key).fullName ∧
        ofString (node.entry key).fullName = key ∧
        (StoreClient.entryAt? (node.entry key).fullName :
          ClientM MemoryClient (Option Entry)).outcome client =
            (.ok (some (node.entry key)), client) ∧
        ∀ other, client.tree.get? other ≠ none → other.text = (node.entry key).fullName →
          other = key) ∧
    (∀ client : DirectoryClient, client.disk.WellFormed → client.HasFullNames) ∧
    ∀ account location (client : DirectoryClient) calls, client.Rooted account location →
      ((Session.start client).run calls).client.HasFullNames := by
  refine ⟨?_, fun client h => DirectoryClient.hasFullNames h, ?_⟩
  . intro account host events hhost client key node hnode
    have hsound := MemoryClient.after_sound account hhost events
    have hcanonical : ∀ other node, client.tree.get? other = some node → other.Canonical := by
      intro other node hother
      exact Memory.Tree.canonical_of_mem_entries hsound.tree _
        ((PathMap.mem_entries_iff _ _ _).mpr hother)
    have hkey := hcanonical key node hnode
    refine ⟨?_, ?_, MemoryClient.entryAt?_fullName hkey hnode, ?_⟩
    . rw [Memory.Node.fullName_entry]
      exact readAsPath_text client hkey
    . rw [Memory.Node.fullName_entry, ofString_text hkey]
    . intro other hother htext
      obtain ⟨found, hfound⟩ := Option.ne_none_iff_exists'.mp hother
      rw [Memory.Node.fullName_entry] at htext
      exact eq_of_text_eq (hcanonical other found hfound) hkey htext
  . intro account location client calls hrooted
    have hstart : (Session.start client).client.Rooted account location := hrooted
    have hreached := (DirectoryClient.keptByCalls_rooted account location).run hstart calls
    exact DirectoryClient.hasFullNames hreached.wellFormed

theorem full_names_address_entries_marks :
    let client :=
      (MemoryClient.after "acct" (.empty default)
        [.called (.createFile "x://y?#%20 z" .fail)]).client
    let kept := ((Session.start DirectoryClient.sample).run [.createFile "x: ?#" .fail]).client
    (ReadAsPath client "/x:/y?#%20 z" ∧
      (StoreClient.entryAt? "/x:/y?#%20 z" : ClientM MemoryClient (Option Entry)).outcome client =
        (.ok (some ⟨"/x:/y?#%20 z", .file, some default, 0⟩), client)) ∧
    DirectoryClient.sample.HasFullNames ∧ ReadAsPath kept "/x: ?#" ∧
      kept.fullPath "/x: ?#" = "/s/x: ?#" := by
  intro client kept
  obtain ⟨hmemory, hordinary, hreached⟩ := full_names_address_entries
  have hnode : client.tree.get? ["x:", "y?#%20 z"] =
      some (.file ByteArray.empty (some default)) := by rfl
  obtain ⟨hread, _, hentry, _⟩ :=
    hmemory "acct" (.empty default) [.called (.createFile "x://y?#%20 z" .fail)]
    (Disk.empty_wellFormed default) _ _ hnode
  have hrooted := DirectoryClient.sample_rooted
  have hkept := hreached "acct" ["s"] DirectoryClient.sample [.createFile "x: ?#" .fail] hrooted
  have hfind : kept.disk.find kept.base = .ok (.taken ["s"] (.directory default)) := by decide
  have hfile : kept.disk.nodes.get? (["s"] ++ ["x: ?#"]) = some (.file 0) := by decide
  obtain ⟨hreadKept, hfull, _⟩ := hkept.stored _ _ _ _ hfind hfile
  exact ⟨⟨hread, hentry⟩, hordinary _ hrooted.wellFormed, hreadKept, hfull⟩

end LakeStore
