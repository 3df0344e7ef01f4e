import LakeStore.Proofs.Directory.Removal
import LakeStore.Proofs.FileSystem.Missing
import LakeStore.Proofs.Memory.Client

/-!
The two clients tell in different ways that an entry is missing. The client in memory always tells
so. The client of a directory asks the host, which refuses to tell when a file is on the way, or
when the host path is too long.
-/

namespace LakeStore

open StorePath FileSystem

theorem MemoryClient.toldMissing {client : MemoryClient} {uri : RemoteUri}
    (h : client.tree.get? (ofString uri.path) = none) : ToldMissing client uri := by
  apply toldMissing_of_calls
  . change (Except.ok (client.tree.contains (ofString uri.path)), client) = _
    unfold PathMap.contains
    rw [h]
    rfl
  . have hremovable : Memory.Tree.removable client.tree (ofString uri.path) = false := by
      unfold Memory.Tree.removable
      rw [h]
      simp
    change (onTree fun _ => liftM (Memory.Tree.delete (ofString uri.path))).outcome client = _
    rw [onTree_outcome, Step.outcome_liftM, Memory.Tree.delete_run, if_neg (by simp [hremovable])]
  . change (Except.ok (Memory.Tree.entryAt? client.tree (ofString uri.path)), client) = _
    unfold Memory.Tree.entryAt?
    rw [h]
    rfl

namespace DirectoryClient

variable {client : DirectoryClient} {account : String} {location : Location} {uri : RemoteUri}

theorem toldMissing_of_described (hroot : client.isRoot (client.fullPath uri.path) = false)
    (h : client.described (client.fullPath uri.path) = .ok none) : ToldMissing client uri := by
  apply toldMissing_of_calls
  . rw [exists?_outcome, h]
    rfl
  . change (remove Disk.removeDirectory Disk.removeFile uri.path).outcome client = _
    rw [remove_outcome_of_described _ _ hroot, h]
  . rw [entryAt?_outcome, h]
    rfl

theorem failedBy_of_described {error : ClientError}
    (hroot : client.isRoot (client.fullPath uri.path) = false)
    (h : client.described (client.fullPath uri.path) = .error error) :
    FailedBy client uri error := by
  apply failedBy_of_calls
  . rw [exists?_outcome, h]
    rfl
  . change (remove Disk.removeDirectory Disk.removeFile uri.path).outcome client = _
    rw [remove_outcome_of_described _ _ hroot, h]
  . rw [entryAt?_outcome, h]
    rfl

def refusal (client : DirectoryClient) (path : String) : HostError :=
  if Disk.maxPath ≤ (client.fullPath path).utf8ByteSize then .nameTooLong else .notDirectory

theorem Rooted.told_or_failed (h : client.Rooted account location)
    (hnames : HasHostNames (ofString uri.path))
    (hnone : client.disk.contentsAt location (ofString uri.path) = none) :
    (¬ (client.disk.contentsAt location).FileAbove (ofString uri.path) ∧
        (client.fullPath uri.path).utf8ByteSize < Disk.maxPath → ToldMissing client uri) ∧
      (¬ (¬ (client.disk.contentsAt location).FileAbove (ofString uri.path) ∧
        (client.fullPath uri.path).utf8ByteSize < Disk.maxPath) →
        FailedBy client uri
          (.statRefused (client.fullPath uri.path) (client.refusal uri.path))) := by
  have hpath := ofString_canonical uri.path
  have hne : ofString uri.path ≠ [] := by
    intro hnil
    rw [hnil, h.contents_wellFormed.root] at hnone
    cases hnone
  have hroot := h.isRoot_eq_false hne
  have hcheck := h.checkText_below hpath hnames.noZero
  -- A path that is too long is refused before the host looks for any of its names.
  by_cases hlong : Disk.maxPath ≤ (client.fullPath uri.path).utf8ByteSize
  . refine ⟨fun hwell => absurd hlong (Nat.not_le.mpr hwell.2), ?_⟩
    intro _
    apply failedBy_of_described hroot
    unfold refusal
    rw [if_pos hlong]
    apply described_of_checkText (by simp)
    unfold fullPath at hlong ⊢
    rw [if_pos hlong] at hcheck
    exact hcheck
  . unfold refusal
    rw [if_neg hlong]
    unfold fullPath at hlong
    rw [if_neg hlong] at hcheck
    have haccepts : Accepts client.base (ofString uri.path) := ⟨hnames.short, hcheck⟩
    constructor
    . intro hwell
      exact toldMissing_of_described hroot (h.described_missing hpath haccepts hnone hwell.1)
    . intro hnot
      have hfile : (client.disk.contentsAt location).FileAbove (ofString uri.path) := by
        by_contra hfile
        exact hnot ⟨hfile, Nat.not_le.mp hlong⟩
      exact failedBy_of_described hroot (h.described_below_file hpath haccepts hfile)

end DirectoryClient

/--
A missing entry is told to be missing by a store in memory. A store on the host tells so when no
file is above the entry and its host path is not too long. It fails with the error of the client
when not.
-/
theorem missing_entries (memory : MemoryClient) {client : DirectoryClient} {account : String}
    {location : Location} (hrooted : client.Rooted account location) (calls : List Call)
    (uri : RemoteUri) :
    let reached := ((Session.start client).run calls).client
    let contents := reached.disk.contentsAt location
    (memory.tree.get? (ofString uri.path) = none → ToldMissing memory uri) ∧
    (contents (ofString uri.path) = none → DirectoryClient.HasHostNames (ofString uri.path) →
      (ToldMissing reached uri ↔ ¬ contents.FileAbove (ofString uri.path) ∧
        (reached.fullPath uri.path).utf8ByteSize < Disk.maxPath) ∧
      (¬ ToldMissing reached uri →
        FailedBy reached uri
          (.statRefused (reached.fullPath uri.path) (reached.refusal uri.path)))) := by
  intro reached contents
  constructor
  . intro hnone
    exact MemoryClient.toldMissing hnone
  . intro hnone hnames
    have hreached : reached.Rooted account location :=
      (DirectoryClient.keptByCalls_rooted account location).run hrooted calls
    have hanswers := hreached.told_or_failed hnames hnone
    have htold : ToldMissing reached uri → ¬ contents.FileAbove (ofString uri.path) ∧
        (reached.fullPath uri.path).utf8ByteSize < Disk.maxPath := by
      intro htold
      by_contra hnot
      exact (hanswers.2 hnot).not_toldMissing htold
    refine ⟨⟨htold, hanswers.1⟩, ?_⟩
    intro hnot
    apply hanswers.2
    intro hwell
    exact hnot (hanswers.1 hwell)

theorem missing_entries_below_file :
    let reached := ((Session.start DirectoryClient.sample).run [.createFile "f" .overwrite]).client
    ToldMissing (MemoryClient.new "acct" (.empty default)) (.ofPath "acct" "f/x") ∧
      ¬ ToldMissing reached (.ofPath "acct" "f/x") ∧
      ToldMissing reached (.ofPath "acct" "g/x") := by
  intro reached
  have hrooted := DirectoryClient.sample_rooted
  have hreached : reached.Rooted "acct" ["s"] :=
    (DirectoryClient.keptByCalls_rooted "acct" ["s"]).run hrooted _
  have hbelow := missing_entries (.new "acct" (.empty default)) hrooted [.createFile "f" .overwrite]
    (.ofPath "acct" "f/x")
  have hbeside :=
    missing_entries (.new "acct" (.empty default)) hrooted [.createFile "f" .overwrite]
    (.ofPath "acct" "g/x")
  have htoldBelow := (hbelow.2 (by decide) ⟨by decide, by decide⟩).1
  have htoldBeside := (hbeside.2 (by decide) ⟨by decide, by decide⟩).1
  refine ⟨hbelow.1 (by decide), ?_, ?_⟩
  . intro htold
    apply (htoldBelow.mp htold).1
    exact ⟨["f"], ByteArray.empty, by decide, rfl⟩
  . apply htoldBeside.mpr
    refine ⟨?_, by decide⟩
    rw [hreached.contents_wellFormed.fileAbove_iff]
    rintro ⟨above, habove, data, hdata⟩
    have heq : above = ["g"] := List.mem_singleton.mp habove
    have hnone : reached.disk.contentsAt ["s"] ["g"] = none := by decide
    rw [heq, hnone] at hdata
    cases hdata

end LakeStore
