import LakeStore.DirectoryClient
import LakeStore.Memory.Client
import LakeStore.Proofs.Path.Canonical
import LakeStore.Uri

/-!
Laws of the two readings of a path, the one of addresses and the one of stores. Each is a
projection, and the second one takes up where the first one ends, so that a store is led to the same
entry by the path of an address as by the text that the address was made of.
-/

namespace LakeStore

open StorePath

theorem resolveDots_absolutePath (text : String) :
    resolveDots (absolutePath text) = resolveDots text :=
  resolveDots_rooted (resolveDots_resolved text)

theorem resolveDots_append (text rest : String) :
    resolveDots (text ++ "/" ++ rest) = (pieces rest).foldl enter (resolveDots text) := by
  unfold resolveDots
  rw [pieces_append_slash, List.foldl_append]

theorem absolutePath_append (text rest : String) :
    absolutePath (text ++ "/" ++ rest) = absolutePath (absolutePath text ++ "/" ++ rest) := by
  unfold absolutePath
  rw [resolveDots_append, resolveDots_append]
  exact congrArg (fun path =>
    rooted ((pieces rest).foldl enter path)) (resolveDots_absolutePath text).symm

namespace StorePath

theorem ofString_absolutePath (text : String) : ofString (absolutePath text) = ofString text := by
  unfold ofString
  rw [resolveDots_absolutePath]

theorem normalize_absolutePath (text : String) :
    normalize (absolutePath text) = normalize text := by
  unfold normalize
  rw [ofString_absolutePath]

theorem normalize_normalize (text : String) : normalize (normalize text) = normalize text :=
  normalize_text (ofString_canonical text)

theorem absolutePath_normalize (text : String) : absolutePath (normalize text) = normalize text :=
  absolutePath_text (ofString_canonical text)

theorem ofString_path_ofPath (account text : String) :
    ofString (RemoteUri.ofPath account text).path = ofString text :=
  ofString_absolutePath text

end StorePath

theorem eq_rooted_iff {P : List String → Prop} (hnil : P []) (text : String) :
    (∃ path, P path ∧ text = rooted path) ↔ text = "/" ∨ ∃ path,
      path ≠ [] ∧ P path ∧ text = slashed path := by
  constructor
  . rintro ⟨path, hpath, rfl⟩
    by_cases hempty : path = []
    . rw [hempty]
      exact .inl rfl
    . exact .inr ⟨path, hempty, hpath, rooted_of_ne_nil hempty⟩
  . rintro (rfl | ⟨path, hne, hpath, rfl⟩)
    . exact ⟨[], hnil, rfl⟩
    . exact ⟨path, hpath, (rooted_of_ne_nil hne).symm⟩

theorem exists_absolutePath_iff (text : String) :
    (∃ source, absolutePath source = text) ↔ ∃ path, Resolved path ∧ text = rooted path := by
  constructor
  . rintro ⟨source, rfl⟩
    exact ⟨resolveDots source, resolveDots_resolved source, rfl⟩
  . rintro ⟨path, hpath, rfl⟩
    refine ⟨rooted path, ?_⟩
    unfold absolutePath
    rw [resolveDots_rooted hpath]

theorem canonical_iff_resolved (path : StorePath) :
    path.Canonical ↔ Resolved path ∧ ∀ name ∈ path, name ≠ "" := by
  constructor
  . intro h
    exact ⟨h.resolved, fun name hname => (h name hname).nonempty⟩
  . rintro ⟨h, hnonempty⟩ name hname
    exact ⟨hnonempty name hname, h.noSlash name hname, h.notDot name hname, h.notDotDot name hname⟩

theorem exists_normalize_iff (text : String) :
    (∃ source, normalize source = text) ↔
      ∃ path, (Resolved path ∧ ∀ name ∈ path, name ≠ "") ∧ text = rooted path := by
  constructor
  . rintro ⟨source, rfl⟩
    exact ⟨ofString source, (canonical_iff_resolved _).mp (ofString_canonical source), rfl⟩
  . rintro ⟨path, hpath, rfl⟩
    exact ⟨StorePath.text path, normalize_text ((canonical_iff_resolved path).mpr hpath)⟩

/--
Reading a path as addresses do, or as stores do, is idempotent, and a store finds the same behind
both. The images are told by the names between the slashes: in an address the first one is not
empty, in a store none is.
-/
theorem path_translation_canonical :
    (∀ text, absolutePath (absolutePath text) = absolutePath text) ∧
    (∀ text rest,
      absolutePath (text ++ "/" ++ rest) = absolutePath (absolutePath text ++ "/" ++ rest)) ∧
    (∀ text, normalize (absolutePath text) = normalize text ∧
      normalize (normalize text) = normalize text ∧
      absolutePath (normalize text) = normalize text) ∧
    (∀ text, (∃ source, absolutePath source = text) ↔
      text = "/" ∨ ∃ path, path ≠ [] ∧ Resolved path ∧ text = slashed path) ∧
    (∀ text, (∃ source, normalize source = text) ↔
      text = "/" ∨ ∃ path,
        path ≠ [] ∧ (Resolved path ∧ ∀ name ∈ path, name ≠ "") ∧ text = slashed path) ∧
    ∀ account text, ofString (RemoteUri.ofPath account text).path = ofString text ∧
      (StoreClient.entryAt? (RemoteUri.ofPath account text).path :
        ClientM MemoryClient (Option Entry)) = StoreClient.entryAt? text ∧
      (∀ client : DirectoryClient,
        client.fullPath (RemoteUri.ofPath account text).path = client.fullPath text) ∧
      (StoreClient.entryAt? (RemoteUri.ofPath account text).path :
        ClientM DirectoryClient (Option Entry)) = StoreClient.entryAt? text := by
  refine ⟨absolutePath_absolutePath, absolutePath_append, ?_, ?_, ?_, ?_⟩
  . intro text
    exact ⟨normalize_absolutePath text, normalize_normalize text, absolutePath_normalize text⟩
  . intro text
    rw [exists_absolutePath_iff, eq_rooted_iff resolved_nil]
  . intro text
    rw [exists_normalize_iff, eq_rooted_iff ⟨resolved_nil, by simp⟩]
  . intro account text
    have hpath := ofString_path_ofPath account text
    have hfull : ∀ client : DirectoryClient,
        client.fullPath (RemoteUri.ofPath account text).path = client.fullPath text := by
      intro client
      unfold DirectoryClient.fullPath
      rw [hpath]
    refine ⟨hpath, ?_, hfull, ?_⟩
    . simp only [StoreClient.entryAt?, hpath]
    . have hname : normalize (RemoteUri.ofPath account text).path = normalize text :=
        normalize_absolutePath text
      simp only [StoreClient.entryAt?, hfull, hname]

example :
    normalize "a//../b" = "/a/b" ∧ absolutePath "a//b" = "/a//b" ∧ normalize "a//b" = "/a/b" := by
  decide

end LakeStore
