import LakeStore.Proofs.FileSystem.Addresses
import LakeStore.Proofs.Uri.Grammar

/-!
The accounts that are read back from the addresses that are made with them: those that have no
character that ends an account, whatever the path of the address is. A configuration is turned down
for such a character, and for white space, which an address could bear.
-/

namespace LakeStore

open RemoteUri FileSystem

/--
Whether the text of the address of a path is read with the scheme of the store and the account of
the address.
-/
def RemoteUri.KeepsAccount (account path : String) : Prop :=
  ∃ uri, parseUri (ofPath account path).text = .ok uri ∧ uri.scheme = "adl" ∧ uri.account = account

variable {account path : String}

theorem RemoteUri.keepsAccount_iff (hsome : account ≠ "") (path : String) :
    KeepsAccount account path ↔ ∀ c ∈ account.toList, c ∉ accountEnds := by
  unfold KeepsAccount parseUri
  constructor
  . rintro ⟨uri, hparse, _, haccount⟩
    cases hread : RemoteUri.parse (ofPath account path).text with
    | error error =>
      rw [hread] at hparse
      cases hparse
    | ok found =>
      rw [hread] at hparse
      cases hparse
      -- The account that is read is one of the grammar, and is the account that the address was
      -- made with.
      obtain ⟨parts, hspell, rfl⟩ := Parts.spell_iff_parse.mp hread
      rw [← haccount]
      exact hspell.account
  . intro hends
    rw [(spell_ofPath_of_unbroken hsome hends path).parse]
    exact ⟨_, rfl, lower_storeScheme, rfl⟩

theorem Config.validate_iff_keepsAccount (config : Config) : config.validate = .ok () ↔
    (config.account ≠ "" ∧ ∀ path, KeepsAccount config.account path) ∧
      (∀ c ∈ config.account.toList, isWhiteSpace c = false) ∧
      ∀ root, config.store = .directory root → HostPath.isAbsolute root := by
  rw [validate_eq_ok_iff, ← and_assoc]
  apply and_congr_left
  intro _
  constructor
  . intro h
    have hends : ∀ c ∈ config.account.toList, c ∉ accountEnds :=
      fun c hc => ((breaksAccount_eq_false_iff c).mp (h.unbroken c hc)).2
    refine ⟨⟨h.nonempty, fun path => (keepsAccount_iff h.nonempty path).mpr hends⟩, ?_⟩
    exact fun c hc => ((breaksAccount_eq_false_iff c).mp (h.unbroken c hc)).1
  . rintro ⟨⟨hsome, hkeeps⟩, hblank⟩
    have hends := (keepsAccount_iff hsome "").mp (hkeeps "")
    exact ⟨hsome, fun c hc => (breaksAccount_eq_false_iff c).mpr ⟨hblank c hc, hends c hc⟩⟩

structure RemoteUri.Kept (account : String) (uri : RemoteUri) : Prop where
  scheme : uri.scheme = "adl"
  account : uri.account = account
  parse : ∃ found,
    parseUri uri.text = .ok found ∧ found.scheme = uri.scheme ∧ found.account = uri.account

/--
Whether each address that the file system makes over a client is kept: those of paths, and of
children.
-/
structure FileSystem.BuildsKept {σ : Type} [StoreClient σ] (account : String) (client : σ) :
    Prop where
  ofPath : ∀ path? uri changed, (uriOfPath path?).outcome client = (.ok uri, changed) →
    Kept account uri
  children : ∀ directory found changed, (children directory).outcome client = (.ok found, changed) →
    ∀ uri ∈ found.all, Kept account uri

theorem RemoteUri.scheme_ofPath (account path : String) :
    (ofPath account path).scheme = storeScheme := rfl

theorem RemoteUri.account_ofPath (account path : String) :
    (ofPath account path).account = account := rfl

theorem RemoteUri.kept_ofPath (haccount : Config.IsAccount account) (path : String) :
    Kept account (ofPath account path) := by
  refine ⟨scheme_ofPath _ _, account_ofPath _ _, ofPath account (kept (absolutePath path)), ?_, ?_,
    ?_⟩
  . unfold parseUri
    rw [parse_text haccount path]
    rfl
  . rw [scheme_ofPath, scheme_ofPath]
  . rw [account_ofPath, account_ofPath]

theorem FileSystem.uriOfPath_eq_ok {σ : Type} [StoreClient σ] {client changed : σ}
    {path? : Option String} {uri : RemoteUri}
    (h : (uriOfPath path?).outcome client = (.ok uri, changed)) :
    ∃ path, uri = .ofPath (StoreClient.account client) path := by
  cases path? with
  | none => cases h
  | some path =>
    cases h
    exact ⟨path, rfl⟩

theorem FileSystem.buildsKept_of_keptByCalls {σ : Type} [StoreClient σ] {P : σ → Prop}
    (hkept : Session.KeptByCalls P) (haccount : Config.IsAccount account)
    (hclient : ∀ client : σ, P client → StoreClient.account client = account) {client : σ}
    (h : P client) :
    BuildsKept account client := by
  constructor
  . intro path? uri changed huri
    obtain ⟨path, rfl⟩ := uriOfPath_eq_ok huri
    rw [hclient client h]
    exact kept_ofPath haccount path
  . intro directory found changed hfound uri huri
    obtain ⟨hchanged, hfoundAccount⟩ := children_kept hkept h hfound
    obtain ⟨entry, _, rfl⟩ := List.mem_map.mp huri
    unfold Children.uriOf
    rw [hfoundAccount, hclient changed hchanged]
    exact kept_ofPath haccount entry.fullName

theorem Config.check_withClient {config : Config} (hsome : config.account ≠ "") (disk : Disk) :
    (config.withClient fun _ => do Step.ofExcept (check (← get))).outcome disk =
      (.ok (), disk) := by
  have hcheck : ∀ {σ : Type} [StoreClient σ] (client : σ),
      StoreClient.account client = config.account →
        (do Step.ofExcept (check (← get)) : Step σ FsError Unit).outcome client =
          (.ok (), client) := by
    intro σ _ client hclient
    rw [Step.outcome_bind_ok (Step.outcome_get client), Step.outcome_ofExcept]
    unfold check
    rw [hclient, if_neg hsome]
  unfold withClient
  split
  . rw [Step.outcome_onPart, hcheck _ rfl]
    rfl
  . rw [Step.outcome_onPart, hcheck _ rfl]

/--
An account is read back from the address of a path exactly when it has none of `/`, `?` and `#`,
whatever the path. A configuration is valid when its account is so, has no white space, and the root
of its store is absolute. The file system takes the client of a valid configuration, and in every
state that this client reaches, each address that is made over it is read back with the scheme and
the account that it was made with.
-/
theorem accounts_read_back :
    (∀ account, account ≠ "" → ∀ path,
      KeepsAccount account path ↔ ∀ c ∈ account.toList, c ∉ ['/', '?', '#']) ∧
    (∀ config : Config, config.validate = .ok () ↔
      (config.account ≠ "" ∧ ∀ path, KeepsAccount config.account path) ∧
        (∀ c ∈ config.account.toList, isWhiteSpace c = false) ∧
        ∀ root, config.store = .directory root → HostPath.isAbsolute root) ∧
    ∀ config : Config, config.validate = .ok () →
      (∀ disk, (config.withClient fun _ => do Step.ofExcept (check (← get))).outcome disk =
        (.ok (), disk)) ∧
      (∀ host events, host.WellFormed →
        BuildsKept config.account (MemoryClient.after config.account host events).client) ∧
      ∀ root disk calls,
        let start := Session.start (DirectoryClient.mk config.account root disk)
        BuildsKept config.account (start.run calls).client := by
  refine ⟨fun account hsome path => keepsAccount_iff hsome path, Config.validate_iff_keepsAccount,
    ?_⟩
  intro config hvalid
  have haccount := Config.isAccount_of_validate hvalid
  refine ⟨Config.check_withClient haccount.nonempty, ?_, ?_⟩
  . intro host events hhost
    have hsound := MemoryClient.after_sound config.account hhost events
    have hkept := MemoryClient.keptByCalls_sound config.account
    exact buildsKept_of_keptByCalls hkept haccount (fun _ h => h.account) hsound
  . intro root disk calls
    have hkept := DirectoryClient.keptByCalls_hasAccount config.account
    have hstart : (Session.start (DirectoryClient.mk config.account root disk)).client.HasAccount
        config.account := rfl
    exact buildsKept_of_keptByCalls hkept haccount (fun _ h => h) (hkept.run hstart calls)

theorem accounts_read_back_marks :
    let config := Config.mk "a:b" .memory
    let client :=
      (MemoryClient.after "a:b" (.empty default) [.called (.createFile "d/x://y?z" .fail)]).client
    config.validate = .ok () ∧ KeepsAccount "a:b" "://?#" ∧ ¬ KeepsAccount "a?b" "p" ∧
      ∃ found changed, (children (.ofPath "a:b" "d/x:")).outcome client = (.ok found, changed) ∧
        found.all = [.ofPath "a:b" "d/x:/y?z"] ∧ Kept "a:b" (.ofPath "a:b" "d/x:/y?z") := by
  intro config client
  obtain ⟨hiff, _, hconfig⟩ := accounts_read_back
  have hvalid : config.validate = .ok () := by decide
  let found : Children := ⟨"a:b", [⟨"/d/x:/y?z", .file, some default, 0⟩]⟩
  have hfound : (children (.ofPath "a:b" "d/x:")).outcome client = (.ok found, client) := by rfl
  have hall : found.all = [.ofPath "a:b" "d/x:/y?z"] := by decide
  have hbuilds :=
    (hconfig config hvalid).2.1 (.empty default) [.called (.createFile "d/x://y?z" .fail)]
    (Disk.empty_wellFormed default)
  refine ⟨hvalid, (hiff "a:b" (by decide) "://?#").mpr (by simp), ?_, found, client, hfound, hall,
    ?_⟩
  . rw [hiff "a?b" (by decide)]
    simp
  . apply hbuilds.children _ _ _ hfound
    rw [hall]
    exact .head _

theorem account_with_space :
    (Config.mk "a b" .memory).validate = .error (.badAccount "a b") ∧
      ∀ path, KeepsAccount "a b" path :=
  ⟨by decide, fun path => (keepsAccount_iff (by decide) path).mpr (by simp [accountEnds])⟩

end LakeStore
