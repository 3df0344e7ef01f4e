import LakeStore.Proofs.Directory.Answers
import LakeStore.Proofs.Directory.Runs
import LakeStore.Proofs.Transfer.Reading

/-!
Transfers of a store on the host. Its entries are below the path of its root, so that an upload and
a download are both copies, from one host path to another.
-/

namespace LakeStore.DirectoryClient

open StorePath

variable {client : DirectoryClient} {account : String} {location place : Location}
  {path : StorePath} {tree : Contents} {source target : String}

theorem Accepts.below {base : String} {rest : StorePath} (h : Accepts base (path ++ rest)) :
    Accepts (HostPath.below base path) rest := by
  refine ⟨fun name hname => h.short name (List.mem_append_right _ hname), ?_⟩
  rw [HostPath.below_below]
  exact h.checked

theorem Rooted.isSource (h : client.Rooted account location) (hpath : path.Canonical)
    (htree : client.disk.contentsAt (location ++ path) = tree) (hroot : tree [] ≠ none)
    (haccepts : ∀ rest, tree rest ≠ none → Accepts client.base (path ++ rest)) :
    client.disk.Source (HostPath.below client.base path) (location ++ path) := by
  have hpathAccepts : Accepts client.base path := by
    have hroot := haccepts [] hroot
    rw [List.append_nil] at hroot
    exact hroot
  rw [← htree] at hroot haccepts
  constructor
  . rw [ne_eq, Disk.contentsAt_eq_none_iff, List.append_nil] at hroot
    obtain ⟨node, hnode⟩ := Option.ne_none_iff_exists'.mp hroot
    exact ⟨node, h.find_of_get? hpath hpathAccepts hnode⟩
  . intro rest hrest
    exact (haccepts rest (Contents.ne_none_of_withoutLinks hrest)).below

/--
Whether the directory of the whole store comes to a place in a download: the path of the store does
not end in a link, or a directory is at the place already, or can be made there and the store holds
something.
-/
def BringsBase (client : DirectoryClient) (location place : Location) : Prop :=
  (∃ modified, client.disk.findEntry client.base = .ok (.taken location (.directory modified))) ∨
  (client.disk.contentsAt []).CanPutDirectory place ∧
    ((∃ rest, rest ≠ [] ∧ client.disk.contentsAt location rest ≠ none) ∨
      client.disk.contentsAt [] place = some .directory)

theorem Rooted.bringsRoot (h : client.Rooted account location) (hpath : path.Canonical)
    (hroot : client.disk.contentsAt location path ≠ none) (haccepts : Accepts client.base path)
    (hbase : path = [] → client.BringsBase location place) :
    client.disk.BringsRoot (HostPath.below client.base path) (location ++ path) place := by
  by_cases hnil : path = []
  . subst hnil
    rw [List.append_nil]
    rcases hbase rfl with ⟨modified, hfound⟩ | ⟨hput, hmore⟩
    . exact .inl ⟨_, hfound, by simp⟩
    . have hdirectory := Disk.contentsAt_eq_directory_iff.mp h.contents_wellFormed.root
      rw [List.append_nil] at hdirectory
      rw [← Contents.withoutLinks_eq_self h.contents_wellFormed.noLink] at hmore
      exact .inr ⟨hdirectory, hput, hmore⟩
  . rw [ne_eq, Disk.contentsAt_eq_none_iff] at hroot
    obtain ⟨node, hnode⟩ := Option.ne_none_iff_exists'.mp hroot
    refine .inl ⟨node, ?_, ?_⟩
    . unfold Disk.findEntry
      rw [HostPath.endsInSlash_below h.base_ne_empty hpath hnil]
      exact h.findWith_of_get? hpath hnil haccepts rfl hnode
    . rintro destination modified rfl
      exact h.noLink path destination modified hnode

theorem upload_outcome {text : String} {transfer : Transfer} {new : Disk} {found : Location}
    {node : Disk.Node} (hfind : client.disk.find source = .ok (.taken found node))
    (hcopy : (copyTree source (client.fullPath text)).run client.disk = (transfer, new)) :
    (upload source text).outcome client = (.ok transfer, { client with disk := new }) := by
  have hmetadata : client.disk.metadata source = .ok (client.disk.describe node) := by
    unfold Disk.metadata
    rw [hfind]
    rfl
  unfold upload
  rw [Step.outcome_bind_ok (Step.outcome_get client), hmetadata]
  dsimp only
  rw [onDisk_outcome, Step.outcome_liftM, hcopy]

theorem download_outcome {text : String} {transfer : Transfer} {new : Disk} {found : Location}
    {node : Disk.Node} (hfind : client.disk.find (client.fullPath text) = .ok (.taken found node))
    (hcopy : (copyTree (client.fullPath text) target).run client.disk = (transfer, new)) :
    (download text target).outcome client =
      (.ok (transfer.mapPaths (storePlace text target)), { client with disk := new }) := by
  have hstat : (stat? (client.fullPath text)).outcome client =
      (.ok (some (client.disk.describe node)), client) := by
    rw [stat?_outcome]
    unfold described Disk.metadata
    rw [hfind]
    rfl
  unfold download
  rw [Step.outcome_bind_ok (Step.outcome_get client)]
  dsimp only
  rw [Step.outcome_bind_ok hstat]
  dsimp only
  rw [Step.outcome_bind_pure, onDisk_outcome, Step.outcome_liftM, hcopy]
  rfl

end LakeStore.DirectoryClient
