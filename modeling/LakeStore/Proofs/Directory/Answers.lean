import LakeStore.FileSystem
import LakeStore.Proofs.Directory.Rooted

/-!
The host is asked about the host path of an entry. Its answer follows from what the store holds
there: a directory, a file with its length, or nothing. When there is nothing it may also refuse to
tell.
-/

namespace LakeStore.DirectoryClient

open StorePath

variable {client : DirectoryClient} {account : String} {location : Location} {path : StorePath}

theorem Rooted.find_directory (h : client.Rooted account location) (hpath : path.Canonical)
    (haccepts : Accepts client.base path)
    (hdirectory : client.disk.contentsAt location path = some .directory) :
    ∃ modified, client.disk.find (HostPath.below client.base path) =
      .ok (.taken (location ++ path) (.directory modified)) := by
  by_cases hnil : path = []
  . rw [hnil, List.append_nil]
    exact h.find_base
  . obtain ⟨modified, hnode⟩ := Disk.contentsAt_eq_directory_iff.mp hdirectory
    refine ⟨modified, ?_⟩
    unfold Disk.find
    rw [HostPath.endsInSlash_below h.base_ne_empty hpath hnil]
    exact h.findWith_of_get? hpath hnil haccepts rfl hnode

theorem Rooted.path_ne_nil_of_file (h : client.Rooted account location) {data : ByteArray}
    (hfile : client.disk.contentsAt location path = some (.file data)) : path ≠ [] := by
  rintro rfl
  rw [h.contents_wellFormed.root] at hfile
  cases hfile

theorem Rooted.find_file (h : client.Rooted account location) (hpath : path.Canonical)
    (haccepts : Accepts client.base path) {id : Nat}
    (hnode : client.disk.nodes.get? (location ++ path) = some (.file id)) :
    client.disk.find (HostPath.below client.base path) =
      .ok (.taken (location ++ path) (.file id)) := by
  have hfile : client.disk.contentsAt location path = some (.file (client.disk.contents id)) :=
    Disk.contentsAt_eq_file_iff.mpr ⟨id, hnode, rfl⟩
  have hne := h.path_ne_nil_of_file hfile
  unfold Disk.find
  rw [HostPath.endsInSlash_below h.base_ne_empty hpath hne]
  exact h.findWith_of_get? hpath hne haccepts rfl hnode

theorem Rooted.find_of_get? (h : client.Rooted account location) (hpath : path.Canonical)
    (haccepts : Accepts client.base path) {node : Disk.Node}
    (hnode : client.disk.nodes.get? (location ++ path) = some node) :
    client.disk.find (HostPath.below client.base path) = .ok (.taken (location ++ path) node) := by
  cases node with
  | directory modified =>
    obtain ⟨time, hfind⟩ := h.find_directory hpath haccepts
      (Disk.contentsAt_eq_directory_iff.mpr ⟨modified, hnode⟩)
    have hfound : client.disk.nodes.get? (location ++ path) = some (.directory time) :=
      Disk.findWith_holds h.wellFormed hfind
    rw [hnode, Option.some_inj] at hfound
    rw [hfound]
    exact hfind
  | file id => exact h.find_file hpath haccepts hnode
  | link target modified => exact absurd hnode (h.noLink path target modified)

theorem Rooted.metadata_directory (h : client.Rooted account location) (hpath : path.Canonical)
    (haccepts : Accepts client.base path)
    (hdirectory : client.disk.contentsAt location path = some .directory) :
    ∃ modified, client.disk.metadata (HostPath.below client.base path) =
      .ok ⟨.directory, 0, modified⟩ := by
  obtain ⟨modified, hfind⟩ := h.find_directory hpath haccepts hdirectory
  refine ⟨modified, ?_⟩
  unfold Disk.metadata
  rw [hfind]
  rfl

theorem Rooted.metadata_file (h : client.Rooted account location) (hpath : path.Canonical)
    (haccepts : Accepts client.base path) {data : ByteArray}
    (hfile : client.disk.contentsAt location path = some (.file data)) :
    ∃ modified, client.disk.metadata (HostPath.below client.base path) =
      .ok ⟨.file, data.size, modified⟩ := by
  obtain ⟨id, hnode, hdata⟩ := Disk.contentsAt_eq_file_iff.mp hfile
  have hid := h.wellFormed.file _ id hnode
  have hget : client.disk.files[id]? = some client.disk.files[id] := Array.getElem?_eq_getElem hid
  refine ⟨client.disk.files[id].modified, ?_⟩
  unfold Disk.contents at hdata
  rw [hget] at hdata
  unfold Disk.metadata
  rw [h.find_file hpath haccepts hnode]
  change Except.ok (client.disk.describe (.file id)) = _
  unfold Disk.describe
  dsimp only
  rw [hget, ← hdata]

theorem described_of_metadata_error {full : String} {error : HostError} (herror : error ≠ .notFound)
    (h : client.disk.metadata full = .error error) :
    client.described full = .error (.statRefused full error) := by
  unfold described
  rw [h]
  split
  . next heq => cases heq
  . next heq => cases heq; exact absurd rfl herror
  . next heq => cases heq; rfl

theorem Rooted.described_missing (h : client.Rooted account location) (hpath : path.Canonical)
    (haccepts : Accepts client.base path) (hnone : client.disk.contentsAt location path = none)
    (hfile : ¬ (client.disk.contentsAt location).FileAbove path) :
    client.described (HostPath.below client.base path) = .ok none := by
  obtain ⟨front, name, rest, rfl, hdirectory, hfirst⟩ :=
    h.contents_wellFormed.exists_first_missing hnone hfile
  have hmetadata : client.disk.metadata (HostPath.below client.base (front ++ name :: rest)) =
      .error .notFound := by
    unfold Disk.metadata Disk.find
    rw [HostPath.endsInSlash_below h.base_ne_empty hpath (by simp)]
    rw [h.findWith_missing hpath haccepts rfl hdirectory hfirst]
    split
    all_goals rfl
  unfold described
  rw [hmetadata]

theorem Rooted.described_below_file (h : client.Rooted account location) (hpath : path.Canonical)
    (haccepts : Accepts client.base path)
    (hfile : (client.disk.contentsAt location).FileAbove path) :
    client.described (HostPath.below client.base path) =
      .error (.statRefused (HostPath.below client.base path) .notDirectory) := by
  have hne : path ≠ [] := by
    rintro rfl
    obtain ⟨above, _, hbelow, _⟩ := hfile
    exact not_below_nil above hbelow
  apply described_of_metadata_error (by simp)
  unfold Disk.metadata Disk.find
  rw [HostPath.endsInSlash_below h.base_ne_empty hpath hne]
  rw [h.findWith_below_file hpath haccepts rfl hfile]
  rfl

theorem described_of_checkText {full : String} {error : HostError} (herror : error ≠ .notFound)
    (h : Disk.checkText full = .error error) :
    client.described full = .error (.statRefused full error) := by
  apply described_of_metadata_error herror
  unfold Disk.metadata Disk.find
  rw [findWith_of_checkText h]
  rfl

theorem Rooted.described_directory (h : client.Rooted account location) (hpath : path.Canonical)
    (haccepts : Accepts client.base path)
    (hdirectory : client.disk.contentsAt location path = some .directory) :
    ∃ modified, client.described (HostPath.below client.base path) =
      .ok (some ⟨.directory, 0, modified⟩) := by
  obtain ⟨modified, hmetadata⟩ := h.metadata_directory hpath haccepts hdirectory
  refine ⟨modified, ?_⟩
  unfold described
  rw [hmetadata]

theorem Rooted.described_file (h : client.Rooted account location) (hpath : path.Canonical)
    (haccepts : Accepts client.base path) {data : ByteArray}
    (hfile : client.disk.contentsAt location path = some (.file data)) :
    ∃ modified, client.described (HostPath.below client.base path) =
      .ok (some ⟨.file, data.size, modified⟩) := by
  obtain ⟨modified, hmetadata⟩ := h.metadata_file hpath haccepts hfile
  refine ⟨modified, ?_⟩
  unfold described
  rw [hmetadata]

theorem Rooted.described_none (h : client.Rooted account location) (hpath : path.Canonical)
    (haccepts : Accepts client.base path) (hnone : client.disk.contentsAt location path = none) :
    client.described (HostPath.below client.base path) = .ok none ∨
      ∃ error, client.described (HostPath.below client.base path) = .error error := by
  by_cases hfile : (client.disk.contentsAt location).FileAbove path
  . exact .inr ⟨_, h.described_below_file hpath haccepts hfile⟩
  . exact .inl (h.described_missing hpath haccepts hnone hfile)

theorem Rooted.isDirectory_iff (h : client.Rooted account location) (hpath : path.Canonical)
    (haccepts : Accepts client.base path) :
    client.disk.isDirectory (HostPath.below client.base path) ↔
      client.disk.contentsAt location path = some .directory := by
  by_cases hnil : path = []
  . obtain ⟨modified, hfind⟩ := h.find_base
    have hdirectory : client.disk.isDirectory client.base := Disk.isDirectory_of_find hfind
    rw [hnil]
    exact iff_of_true hdirectory h.contents_wellFormed.root
  . exact (h.reaches hpath hnil haccepts).isDirectory_iff h.wellFormed

theorem Rooted.isDirectory_eq_false (h : client.Rooted account location) (hpath : path.Canonical)
    (haccepts : Accepts client.base path)
    (hnot : client.disk.contentsAt location path ≠ some .directory) :
    client.disk.isDirectory (HostPath.below client.base path) = false := by
  rw [Bool.eq_false_iff, ne_eq, h.isDirectory_iff hpath haccepts]
  exact hnot

theorem entryAt?_of_find {path : String} {modified : Time}
    (hfind : client.disk.find (client.fullPath path) =
      .ok (.taken location (.directory modified))) :
    (StoreClient.entryAt? path : ClientM DirectoryClient (Option Entry)).outcome client =
      (.ok (some ⟨normalize path, .directory, some modified, 0⟩), client) := by
  rw [entryAt?_outcome]
  unfold described Disk.metadata
  rw [hfind]
  rfl

section entryAt

variable {path : String} (h : client.Rooted account location)
  (haccepts : Accepts client.base (ofString path))

include h haccepts

theorem Rooted.entryAt?_directory
    (hdirectory : client.disk.contentsAt location (ofString path) = some .directory) :
    ∃ modified,
      (StoreClient.entryAt? path : ClientM DirectoryClient (Option Entry)).outcome client =
        (.ok (some ⟨normalize path, .directory, some modified, 0⟩), client) := by
  obtain ⟨modified, hfind⟩ := h.find_directory (ofString_canonical path) haccepts hdirectory
  exact ⟨modified, entryAt?_of_find hfind⟩

theorem Rooted.entryAt?_file {data : ByteArray}
    (hfile : client.disk.contentsAt location (ofString path) = some (.file data)) :
    ∃ modified,
      (StoreClient.entryAt? path : ClientM DirectoryClient (Option Entry)).outcome client =
        (.ok (some ⟨normalize path, .file, some modified, data.size⟩), client) := by
  obtain ⟨modified, hdescribed⟩ := h.described_file (ofString_canonical path) haccepts hfile
  refine ⟨modified, ?_⟩
  rw [entryAt?_outcome]
  unfold fullPath
  rw [hdescribed]
  rfl

theorem Rooted.entryAt?_none (hnone : client.disk.contentsAt location (ofString path) = none) :
    (StoreClient.entryAt? path : ClientM DirectoryClient (Option Entry)).outcome client =
      (.ok none, client) ∨
      ∃ error, (StoreClient.entryAt? path : ClientM DirectoryClient (Option Entry)).outcome client =
        (.error error, client) := by
  rw [entryAt?_outcome]
  unfold fullPath
  cases h.described_none (ofString_canonical path) haccepts hnone with
  | inl hdescribed =>
    rw [hdescribed]
    exact .inl rfl
  | inr herror =>
    obtain ⟨error, hdescribed⟩ := herror
    rw [hdescribed]
    exact .inr ⟨error, rfl⟩

theorem Rooted.entryAt?_not_directory
    (hdirectory : client.disk.contentsAt location (ofString path) ≠ some .directory) :
    (∃ found?, (StoreClient.entryAt? path : ClientM DirectoryClient (Option Entry)).outcome client =
        (.ok found?, client) ∧ (Probe.ofEntry found?).isDirectory = false) ∨
      ∃ error, (StoreClient.entryAt? path : ClientM DirectoryClient (Option Entry)).outcome client =
        (.error error, client) := by
  cases hcontent : client.disk.contentsAt location (ofString path) with
  | none =>
    cases h.entryAt?_none haccepts hcontent with
    | inl hentry => exact .inl ⟨none, hentry, rfl⟩
    | inr herror => exact .inr herror
  | some content =>
    cases content with
    | directory => exact absurd hcontent hdirectory
    | file data =>
      obtain ⟨modified, hentry⟩ := h.entryAt?_file haccepts hcontent
      exact .inl ⟨_, hentry, rfl⟩
    | link target => exact absurd hcontent (h.contents_wellFormed.noLink _ target)

end entryAt

end LakeStore.DirectoryClient
