import LakeStore.Proofs.Directory.Missing
import LakeStore.Proofs.Directory.Operations
import LakeStore.Proofs.Memory.Operations

/-!
The two clients agree: run over a new store of each, the operations of the file system get the same
answers, and leave the same entries behind.
-/

namespace LakeStore

open StorePath

namespace Contents

def new : Contents := fun path => if path = [] then some .directory else none

end Contents

theorem MemoryClient.contents_new (account : String) (host : Disk) :
    (MemoryClient.new account host).tree.contents = Contents.new := by
  funext path
  change ((Memory.Tree.empty host.clock).get? path).map Memory.Node.content = _
  unfold Memory.Tree.empty Contents.new
  rw [PathMap.get?_insert]
  split
  all_goals rfl

theorem DirectoryClient.contentsAt_of_empty {client : DirectoryClient} {location : Location}
    {modified : Time} (h : client.disk.WellFormed)
    (hfind : client.disk.find client.base = .ok (.taken location (.directory modified)))
    (hempty : client.disk.nodes.below location = []) :
    contentsAt location client = Contents.new := by
  have hroot := (rooted_of_empty h hfind hempty).contents_wellFormed.root
  funext path
  unfold contentsAt Contents.new
  split
  . next hnil => rw [hnil, hroot]
  . next hne =>
    rw [Disk.contentsAt_eq_none_iff]
    cases hnode : client.disk.nodes.get? (location ++ path) with
    | none => rfl
    | some node =>
      have hmem :=
        (PathMap.mem_below_iff client.disk.nodes location _ node).mpr ⟨below_append hne, hnode⟩
      rw [hempty] at hmem
      cases hmem

/--
A new store in memory, and one in an empty directory of the host, answer all operations alike, and
hold the same after each. Only when a file is on the way to an entry, the one tells that the entry
is not there, and the other one fails to tell.
-/
theorem stores_agree (host : Disk) (client : DirectoryClient) (location : Location)
    (modified : Time) (operations : List Operation) (hhost : host.WellFormed)
    (hdisk : client.disk.WellFormed)
    (hfind : client.disk.find client.base = .ok (.taken location (.directory modified)))
    (hempty : client.disk.nodes.below location = [])
    (hpaths : ∀ operation ∈ operations, DirectoryClient.HasHostPath client.base operation.path) :
    let turns := Operation.trace (·.tree.contents) (MemoryClient.new client.account host) operations
    Operation.trace (DirectoryClient.contentsAt location) client operations =
        turns.map Turn.onHost ∧
      ∀ turn ∈ turns, turn.onHost ≠ turn →
        turn.answer = some (.found false) ∧ turn.onHost.answer = none := by
  have hmemory : ∀ operation ∈ operations, ∀ other : MemoryClient, other.Settled client.account →
      operation.Performs client.account (·.tree.contents) (MemoryClient.Settled client.account)
      id other := by
    intro operation _ other hother
    exact MemoryClient.performs hother operation
  have hnew := MemoryClient.new_settled client.account hhost
  have hsettled := DirectoryClient.settled_of_empty hdisk hfind hempty
  have hperforms : ∀ operation ∈ operations, ∀ other,
      DirectoryClient.Settled client.account client.base location other →
        DirectoryClient.Performs client.account client.base location other operation := by
    intro operation hoperation other hother
    have haccepts := hsettled.rooted.accepts (ofString_canonical _) (hpaths operation hoperation)
    exact DirectoryClient.performs hother haccepts
  -- Both runs are the run without a client, from the contents that a new store has.
  have hturns := Operation.trace_eq_performAll hmemory hnew
  have hanswers := Operation.trace_eq_performAll hperforms hsettled
  rw [List.map_id, MemoryClient.contents_new] at hturns
  rw [DirectoryClient.contentsAt_of_empty hdisk hfind hempty] at hanswers
  intro turns
  have hall : turns = Operation.performAll client.account Contents.new operations := hturns
  have hwellFormed := hnew.sound.tree
  rw [MemoryClient.contents_new] at hwellFormed
  rw [hall]
  refine ⟨hanswers, ?_⟩
  intro turn hmem hdiffers
  exact Operation.told_of_onHost_ne hwellFormed hmem hdiffers

theorem stores_agree_file_on_the_way :
    let operations := [
      .create (.ofPath "acct" "a//b/") (ByteArray.mk #[1]), .exists? (.ofPath "acct" "a/b/c"),
      .createDirectory (.ofPath "acct" "a/b/c"), .children (.ofPath "acct" "a"),
      .deleteDirectory (.ofPath "acct" "a")]
    let turns :=
      Operation.trace (·.tree.contents) (MemoryClient.new "acct" (.empty default)) operations
    Operation.trace (DirectoryClient.contentsAt ["s"]) DirectoryClient.sample operations =
        turns.map Turn.onHost ∧
      ∀ turn ∈ turns, turn.onHost ≠ turn →
        turn.answer = some (.found false) ∧ turn.onHost.answer = none := by
  intro operations
  have hgrows := Disk.createDirectory_grows (Disk.empty_wellFormed default) "/s"
  have hpaths : ∀ operation ∈ operations,
      DirectoryClient.HasHostPath DirectoryClient.sample.base operation.path := by
    intro operation hoperation
    have hnames : ∀ operation ∈ operations,
        (∀ name ∈ operation.path, name.utf8ByteSize ≤ Disk.maxName) ∧
          (∀ name ∈ operation.path, '\x00' ∉ name.toList) ∧
          (HostPath.below DirectoryClient.sample.base operation.path).utf8ByteSize <
          Disk.maxPath := by decide
    obtain ⟨hshort, hzero, hfits⟩ := hnames operation hoperation
    exact ⟨⟨hshort, hzero⟩, hfits⟩
  exact stores_agree (.empty default) DirectoryClient.sample ["s"] default operations
    (Disk.empty_wellFormed default) hgrows.wellFormed (by decide) (by decide) hpaths

end LakeStore
