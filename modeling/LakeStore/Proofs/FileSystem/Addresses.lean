import LakeStore.Command.Run
import LakeStore.Proofs.Directory.Runs
import LakeStore.Proofs.FileSystem.Operations
import LakeStore.Proofs.Memory.Client
import LakeStore.Proofs.Uri

/-!
The file system hands out addresses, for a path or for the children of a directory. They can be read
again, but lead to the same entry only when no character of the path starts a query or a fragment.
-/

namespace LakeStore

open FileSystem

/-- What comes of an address that was handed out when its text is handed back. -/
structure HandedBack (account : String) (uri : RemoteUri) : Prop where
  parse : RemoteUri.parse uri.text = .ok (.ofPath account (RemoteUri.kept uri.path))
  same : RemoteUri.parse uri.text = .ok uri ↔ ∀ c ∈ uri.path.toList, RemoteUri.endsPath c = false
  resolve : ∀ {σ : Type} [StoreClient σ] (client : σ), (resolve uri.text).outcome client =
    (.ok (.ofPath account (RemoteUri.kept uri.path)), client)

theorem handedBack_ofPath {account : String} (haccount : Config.IsAccount account) (path : String) :
    HandedBack account (.ofPath account path) := by
  have hparse := RemoteUri.parse_text haccount path
  refine ⟨hparse, RemoteUri.parse_text_iff haccount path, ?_⟩
  intro σ _ client
  unfold FileSystem.resolve parseUri
  rw [RemoteUri.cutAt_text, if_pos (by rfl), Step.outcome_ofExcept, hparse]
  rfl

section children

variable {σ : Type} [StoreClient σ] {P : σ → Prop} (hkept : Session.KeptByCalls P)

include hkept

theorem requireDirectory_kept (op : String) (uri : RemoteUri) {client : σ} (h : P client) :
    P ((requireDirectory op uri).outcome client).2 := by
  have hentry := hkept.entryAt? uri.path client h
  unfold requireDirectory probe
  apply Step.state_bind (P := P)
  . rw [Step.state_bind_pure]
    exact hentry
  . intro probe changed _ hchanged
    split
    all_goals exact hchanged

theorem children_kept {uri : RemoteUri} {client changed : σ} {found : Children} (h : P client)
    (hfound : (children uri).outcome client = (.ok found, changed)) :
    P changed ∧ found.account = StoreClient.account changed := by
  have hrequired := requireDirectory_kept hkept "get_children" uri h
  -- The account is read after the last call, from the client that this call leaves.
  unfold children at hfound
  rw [Step.outcome_bind] at hfound
  split at hfound
  . next required hrequire =>
    rw [hrequire] at hrequired
    have hlisted := hkept.list uri.path required hrequired
    rw [Step.outcome_bind] at hfound
    split at hfound
    . next entries listed hlist =>
      rw [call_outcome] at hlist
      have hstate : ((StoreClient.list uri.path : ClientM σ _).outcome required).2 = listed :=
        congrArg Prod.snd hlist
      rw [hstate] at hlisted
      rw [Step.outcome_bind_ok (Step.outcome_get listed)] at hfound
      cases hfound
      exact ⟨hlisted, rfl⟩
    . cases hfound
  . cases hfound

theorem handedBack_children {account : String} (haccount : Config.IsAccount account)
    (hclient : ∀ client : σ, P client → StoreClient.account client = account) {client changed : σ}
    (h : P client) {uri : RemoteUri} {found : Children}
    (hfound : (children uri).outcome client = (.ok found, changed)) :
    ∀ child ∈ found.all, HandedBack account child := by
  obtain ⟨hchanged, hfoundAccount⟩ := children_kept hkept h hfound
  intro child hchild
  obtain ⟨entry, _, rfl⟩ := List.mem_map.mp hchild
  unfold Children.uriOf
  rw [hfoundAccount, hclient changed hchanged]
  exact handedBack_ofPath haccount entry.fullName

end children

/--
An address that is handed out for the store of a configuration can be read again, and is the same
exactly when its path has no character that starts a query or a fragment.
-/
theorem handed_out_addresses (config : Config) (hvalid : config.validate = .ok ()) :
    (∀ {σ : Type} [StoreClient σ] (client : σ),
      StoreClient.account client = config.account → ∀ path,
        ∃ uri, (uriOfPath (some path)).outcome client = (.ok uri, client) ∧
          HandedBack config.account uri) ∧
    (∀ (host : Disk) (events : List MemoryClient.Event) (uri : RemoteUri) (found : Children)
      (changed : MemoryClient), host.WellFormed →
      (children uri).outcome (MemoryClient.after config.account host events).client =
        (.ok found, changed) →
      ∀ child ∈ found.all, HandedBack config.account child) ∧
    (∀ (client : DirectoryClient) (calls : List Call) (uri : RemoteUri) (found : Children)
      (changed : DirectoryClient), client.account = config.account →
      (children uri).outcome ((Session.start client).run calls).client = (.ok found, changed) →
      ∀ child ∈ found.all, HandedBack config.account child) := by
  have haccount := Config.isAccount_of_validate hvalid
  refine ⟨?_, ?_, ?_⟩
  . intro σ _ client hclient path
    refine ⟨.ofPath config.account path, ?_, handedBack_ofPath haccount path⟩
    unfold uriOfPath
    rw [Step.outcome_bind_ok (Step.outcome_get client), hclient]
    rfl
  . intro host events uri found changed hhost hfound
    have hsound := MemoryClient.after_sound config.account hhost events
    have hkept := MemoryClient.keptByCalls_sound config.account
    exact handedBack_children hkept haccount (fun client h => h.account) hsound hfound
  . intro client calls uri found changed hclient hfound
    have hkept := DirectoryClient.keptByCalls_hasAccount config.account
    have hstart : (Session.start client).client.HasAccount config.account := hclient
    have hreached := hkept.run hstart calls
    exact handedBack_children hkept haccount (fun _ h => h) hreached hfound

theorem handed_out_addresses_query :
    let client :=
      (MemoryClient.after "acct" (.empty default) [.called (.createFile "d/a?b" .overwrite)]).client
    ∃ found changed, (children (.ofPath "acct" "d")).outcome client = (.ok found, changed) ∧
      found.all = [.ofPath "acct" "d/a?b"] ∧
      RemoteUri.parse "adl://acct/d/a?b" = .ok (.ofPath "acct" "d/a") ∧
      RemoteUri.parse "adl://acct/d/a?b" ≠ .ok (.ofPath "acct" "d/a?b") := by
  intro client
  have hvalid : (Config.mk "acct" .memory).validate = .ok () := by decide
  have hfound : (children (.ofPath "acct" "d")).outcome client =
      (.ok ⟨"acct", [⟨"/d/a?b", .file, some default, 0⟩]⟩, client) := by rfl
  have hback := (handed_out_addresses ⟨"acct", .memory⟩ hvalid).2.1 (.empty default)
    [.called (.createFile "d/a?b" .overwrite)] (.ofPath "acct" "d") _ _
    (Disk.empty_wellFormed default) hfound (.ofPath "acct" "d/a?b") (by decide)
  refine ⟨_, _, hfound, by decide, hback.parse, ?_⟩
  intro hsame
  have hplain := hback.same.mp hsame
  exact absurd (hplain '?' (by decide)) (by decide)

end LakeStore
