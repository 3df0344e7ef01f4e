import LakeStore.Proofs.Directory.Answers
import LakeStore.Proofs.FileSystem.Operations
import LakeStore.Proofs.Path.Target

/-!
The entries that a store on the host tells to be in a directory. They are the ones that the host has
in the directory that the path leads to, under the path of the store with their names behind it.
-/

namespace LakeStore.DirectoryClient

open StorePath

variable {client : DirectoryClient} {account : String} {location : Location} {path : String}
  {modified : Time}

def listed (client : DirectoryClient) (path : StorePath) : Location × Disk.Node → Entry
  | (key, node) => entryOf (joinRemote path.text (key.getLast?.getD "")) (client.disk.describe node)

theorem list_of_find
    (hfind : client.disk.find (client.fullPath path) =
      .ok (.taken location (.directory modified))) :
    (list path).outcome client =
      (.ok ((client.disk.nodes.children location).map (client.listed (ofString path))),
        client) := by
  have hread : client.disk.readDirectory (client.fullPath (normalize path)) =
      .ok ((client.disk.nodes.children location).map
        fun entry => (entry.1.getLast?.getD "", client.disk.describe entry.2)) := by
    unfold fullPath at hfind
    unfold Disk.readDirectory Disk.entriesIn fullPath
    rw [ofString_normalize, hfind]
    change Except.ok (List.map _ (List.map _ _)) = _
    rw [List.map_map]
    rfl
  unfold list
  rw [Step.outcome_bind_ok (Step.outcome_get client), Step.outcome_bind_pure, Step.outcome_mapError,
    Step.outcome_ofExcept, hread]
  dsimp only [Except.mapError, Except.map]
  rw [List.map_map]
  rfl

theorem children_of_find {uri : RemoteUri}
    (hfind : client.disk.find (client.fullPath uri.path) =
      .ok (.taken location (.directory modified))) :
    (FileSystem.children uri).outcome client = (.ok ⟨client.account,
      (client.disk.nodes.children location).map (client.listed (ofString uri.path))⟩, client) :=
  FileSystem.children_of_directory (entryAt?_of_find hfind) rfl (list_of_find hfind)

theorem Rooted.list_outcome (h : client.Rooted account location)
    (haccepts : Accepts client.base (ofString path))
    (hdirectory : client.disk.contentsAt location (ofString path) = some .directory) :
    (list path).outcome client =
      (.ok ((client.disk.nodes.children (location ++ ofString path)).map
        (client.listed (ofString path))), client) := by
  obtain ⟨modified, hfind⟩ := h.find_directory (ofString_canonical path) haccepts hdirectory
  exact list_of_find hfind

theorem fullName_entryOf (fullName : String) (found : Metadata) :
    (entryOf fullName found).fullName = fullName := by
  unfold entryOf
  split
  all_goals rfl

theorem listed_name {path : StorePath} (hpath : path.Canonical) {name : String}
    (hname : IsName name) (node : Disk.Node) : client.listed path (location ++ [name], node) =
      entryOf (path ++ [name]).text (client.disk.describe node) := by
  change entryOf (joinRemote path.text ((location ++ [name]).getLast?.getD "")) _ = _
  rw [List.getLast?_concat, Option.getD_some, joinRemote_text hpath hname]

theorem mem_all_listed (h : client.disk.WellFormed) {path : StorePath} (hpath : path.Canonical)
    {uri : RemoteUri} :
    uri ∈ (Children.mk account
      ((client.disk.nodes.children location).map (client.listed path))).all ↔
      ∃ name, client.disk.nodes.get? (location ++ [name]) ≠ none ∧
        uri = .ofPath account (path ++ [name]).text := by
  have hlisted : ∀ name node, client.disk.nodes.get? (location ++ [name]) = some node →
      (client.listed path (location ++ [name], node)).fullName = (path ++ [name]).text := by
    intro name node hnode
    rw [listed_name hpath (h.name location name node hnode), fullName_entryOf]
  unfold Children.all
  rw [List.map_map, List.mem_map]
  constructor
  . rintro ⟨⟨key, node⟩, hmem, rfl⟩
    rw [PathMap.mem_children_iff] at hmem
    obtain ⟨name, rfl, hnode⟩ := hmem
    refine ⟨name, ?_, ?_⟩
    . rw [hnode]
      simp
    . dsimp only [Function.comp_apply, Children.uriOf]
      rw [hlisted name node hnode]
  . rintro ⟨name, hentry, rfl⟩
    obtain ⟨node, hnode⟩ := Option.ne_none_iff_exists'.mp hentry
    refine ⟨(location ++ [name], node), ?_, ?_⟩
    . rw [PathMap.mem_children_iff]
      exact ⟨name, rfl, hnode⟩
    . dsimp only [Function.comp_apply, Children.uriOf]
      rw [hlisted name node hnode]

theorem Rooted.mem_children_all (h : client.Rooted account location) {path : StorePath}
    (hpath : path.Canonical) {uri : RemoteUri} :
    uri ∈ (Children.mk account
        ((client.disk.nodes.children (location ++ path)).map (client.listed path))).all ↔
      ∃ name, client.disk.contentsAt location (path ++ [name]) ≠ none ∧
        uri = .ofPath account (path ++ [name]).text := by
  rw [mem_all_listed h.wellFormed hpath]
  simp only [ne_eq, Disk.contentsAt_eq_none_iff, List.append_assoc]

end LakeStore.DirectoryClient
