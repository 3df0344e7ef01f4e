import LakeStore.Proofs.Memory.Keys
import LakeStore.Proofs.Memory.Operations
import LakeStore.Proofs.PathMap
import Mathlib.Data.List.Perm.Basic

/-!
What a store in memory lists. A directory lists the keys that extend its own by one name, in the
order of their bytes and with what the store tells about each alone. A listing that goes into every
directory in turn ends, and meets every key once.
-/

namespace LakeStore

open StorePath

namespace StoreClient

variable {σ : Type} [StoreClient σ]

def entryAndBelow (listBelow : String → ClientM σ (List Entry)) (entry : Entry) :
    ClientM σ (List Entry) := do
  if entry.isDirectory then
    return entry :: (← listBelow entry.fullName)
  else
    return [entry]

/-- Lists a directory and every directory below it, down to some depth. -/
def listTree : Nat → String → ClientM σ (List Entry)
  | 0, path => throw (.foreign s!"Too deep: {path}" [])
  | depth + 1, path => do
    let entries ← list path
    let lists ← entries.mapM (entryAndBelow (listTree depth))
    return lists.flatten

end StoreClient

namespace Memory

variable {tree : Tree}

theorem Node.fullName_entry (path : StorePath) (node : Node) :
    (node.entry path).fullName = path.text := by
  cases node <;> rfl

theorem Node.map_fullName_entry (found : List (StorePath × Node)) :
    (found.map fun (key, node) => node.entry key).map Entry.fullName = found.map fun (key, _) =>
    key.text := by
  rw [List.map_map]
  apply List.map_congr_left
  rintro ⟨key, node⟩ _
  exact Node.fullName_entry key node

theorem Tree.utf8_lt_of_precedes {entry other : StorePath × Node} (hentry : entry.1.Canonical)
    (hother : other.1.Canonical) (h : PathMap.Precedes entry other) :
    utf8 entry.1.text < utf8 other.1.text := by
  apply utf8_lt_utf8
  rw [← Decidable.not_not (p := entry.1.text < other.1.text), String.not_lt]
  intro hle
  exact h.1 (eq_of_text_eq hentry hother (String.le_antisymm h.2 hle))

theorem Tree.below_file (h : tree.contents.WellFormed) {path : StorePath} {data : ByteArray}
    {modified : Option Time} (hfile : tree.get? path = some (.file data modified)) :
    tree.below path = [] := by
  rw [List.eq_nil_iff_forall_not_mem]
  rintro ⟨key, node⟩ hmem
  rw [PathMap.mem_below_iff] at hmem
  have hnone := h.isTree.none_below_file (contents_eq_file_iff.mpr ⟨modified, hfile⟩) hmem.1
  rw [contents_eq_none_iff, hmem.2] at hnone
  cases hnone

end Memory

namespace MemoryClient

open Memory

variable {client : MemoryClient}

/-- Whether some entries are those that a directory lists. -/
structure Lists (client : MemoryClient) (directory : String) (entries : List Entry) : Prop where
  keys : ∀ key, key ∈ entries.map Entry.fullName ↔
    (∃ name, name ≠ "" ∧ '/' ∉ name.toList ∧ key = descendantPrefix directory ++ name) ∧
      ∃ node, client.tree.HasKey key node
  ascending : (entries.map Entry.fullName).Pairwise fun key other => utf8 key < utf8 other
  same : ∀ entry ∈ entries,
    (StoreClient.entryAt? entry.fullName : ClientM MemoryClient _).outcome client =
      (.ok (some entry), client)
  scanned : entries = ((client.tree.descendants directory).filter fun found =>
    isChild directory found.1.text).map fun found => found.2.entry found.1

theorem entryAt?_fullName {path : StorePath} (hpath : path.Canonical) {node : Node}
    (hnode : client.tree.get? path = some node) :
    (StoreClient.entryAt? (node.entry path).fullName : ClientM MemoryClient _).outcome client =
      (.ok (some (node.entry path)), client) := by
  rw [entryAt?_outcome, Node.fullName_entry, ofString_text hpath, Tree.entryAt?, hnode]
  rfl

theorem lists_children (h : client.tree.contents.WellFormed) {path : StorePath}
    (hpath : path.Canonical) :
    client.Lists path.text ((client.tree.children path).map fun (key, node) => node.entry key) := by
  have hcanonical := Tree.canonical_of_mem_entries h
  have hchildren : ∀ child ∈ client.tree.children path, child.1.Canonical :=
    fun child hchild => PathMap.canonical_of_mem_children hcanonical hchild
  refine ⟨?_, ?_, ?_, ?_⟩
  . intro key
    rw [Node.map_fullName_entry, ← isChild_iff, List.mem_map]
    constructor
    . rintro ⟨⟨found, node⟩, hchild, rfl⟩
      rw [isChild_text_iff hpath (hchildren _ hchild)]
      rw [PathMap.mem_children_iff] at hchild
      obtain ⟨name, heq, hnode⟩ := hchild
      exact ⟨⟨name, heq⟩, node, found, rfl, hnode⟩
    . rintro ⟨hchild, node, found, rfl, hnode⟩
      have hfound := hcanonical _ ((PathMap.mem_entries_iff _ _ _).mpr hnode)
      rw [isChild_text_iff hpath hfound] at hchild
      obtain ⟨name, rfl⟩ := hchild
      exact ⟨(path ++ [name], node), (PathMap.mem_children_iff _ _ _ _).mpr ⟨name, rfl, hnode⟩, rfl⟩
  . rw [Node.map_fullName_entry, List.pairwise_map]
    have hpairwise := List.Pairwise.and_mem.mp (client.tree.children_pairwise path)
    refine hpairwise.imp ?_
    rintro first second ⟨hfirst, hsecond, hprecedes⟩
    exact Tree.utf8_lt_of_precedes (hchildren _ hfirst) (hchildren _ hsecond) hprecedes
  . intro entry hentry
    rw [List.mem_map] at hentry
    obtain ⟨⟨key, node⟩, hchild, rfl⟩ := hentry
    have hkey := hchildren _ hchild
    rw [PathMap.mem_children_iff] at hchild
    obtain ⟨name, _, hnode⟩ := hchild
    exact entryAt?_fullName hkey hnode
  . rw [PathMap.children_eq_filter_descendants hcanonical hpath]

theorem exists_entryAndBelow (h : client.tree.contents.WellFormed) {path : StorePath} {node : Node}
    (hnode : client.tree.get? path = some node)
    {listBelow : String → ClientM MemoryClient (List Entry)}
    (hbelow : client.tree.contents path = some .directory → ∃ entries,
      (listBelow path.text).outcome client = (.ok entries, client) ∧
        entries.Perm ((client.tree.below path).map fun (key, node) => node.entry key)) :
    ∃ entries,
      (StoreClient.entryAndBelow listBelow (node.entry path)).outcome client =
        (.ok entries, client) ∧
      entries.Perm (((path, node) :: client.tree.below path).map fun (key, node) =>
        node.entry key) := by
  cases node with
  | directory modified =>
    obtain ⟨entries, hlist, hperm⟩ := hbelow (Tree.contents_eq_directory_iff.mpr ⟨modified, hnode⟩)
    exact ⟨_, Step.outcome_bind_ok hlist _, hperm.cons _⟩
  | file data modified =>
    refine ⟨_, rfl, ?_⟩
    rw [Tree.below_file h hnode]
    exact .rfl

theorem exists_listTree (h : client.tree.contents.WellFormed) {depth : Nat} {path : StorePath}
    (hdirectory : client.tree.contents path = some .directory)
    (hdepth : ∀ key, path <+: key → client.tree.contents key ≠ none →
      key.length < path.length + depth) :
    ∃ entries, (StoreClient.listTree depth path.text : ClientM MemoryClient _).outcome client =
        (.ok entries, client) ∧
      entries.Perm ((client.tree.below path).map fun (key, node) => node.entry key) := by
  induction depth generalizing path with
  | zero =>
    have hlength := hdepth path List.prefix_rfl (by simp [hdirectory])
    omega
  | succ depth ih =>
    have hpath : path.Canonical := h.canonical path (by simp [hdirectory])
    have hvisit : ∀ child : StorePath × Node, ∃ entries, child ∈ client.tree.children path →
        (StoreClient.entryAndBelow (StoreClient.listTree depth) (child.2.entry child.1) :
          ClientM MemoryClient _).outcome client = (.ok entries, client) ∧
        entries.Perm ((child :: client.tree.below child.1).map fun (key, node) =>
          node.entry key) := by
      rintro ⟨key, node⟩
      by_cases hchild : (key, node) ∈ client.tree.children path
      . obtain ⟨name, rfl, hnode⟩ := (PathMap.mem_children_iff _ _ _ _).mp hchild
        obtain ⟨entries, hentries⟩ := exists_entryAndBelow h hnode fun hkey => ih hkey (by
          intro key hpre hpresent
          have hlength := hdepth key ((List.prefix_append _ _).trans hpre) hpresent
          rw [List.length_append, List.length_singleton]
          omega)
        exact ⟨entries, fun _ => hentries⟩
      . exact ⟨[], fun hmem => absurd hmem hchild⟩
    choose lists hlists using hvisit
    have hlist : (StoreClient.list path.text : ClientM MemoryClient _).outcome client =
        (.ok ((client.tree.children path).map fun (key, node) => node.entry key), client) := by
      have hself := ofString_text hpath
      rw [list_outcome (by rw [hself, hdirectory]), hself]
    have hmapM := Step.outcome_mapM fun child hchild => (hlists child hchild).1
    refine ⟨((client.tree.children path).map lists).flatten, ?_, ?_⟩
    . unfold StoreClient.listTree
      rw [Step.outcome_bind_ok hlist, List.mapM_map]
      exact Step.outcome_bind_ok hmapM _
    . have hclosed : ∀ key above, client.tree.get? key ≠ none → Below above key →
          client.tree.get? above ≠ none := by
        intro key above hkey habove
        rw [ne_eq, ← Tree.contents_eq_none_iff] at hkey ⊢
        simp [h.closed key above hkey habove]
      have hchildren := (client.tree.flatMap_children_perm hclosed path).map fun (key, node) =>
        node.entry key
      rw [List.map_flatMap] at hchildren
      rw [← List.flatMap_def]
      exact (List.Perm.flatMap_left _ fun child hchild => (hlists child hchild).2).trans hchildren

theorem exists_listTree_root (h : client.tree.contents.WellFormed) :
    ∃ depth, ∀ deeper, depth ≤ deeper → ∃ entries,
      (StoreClient.listTree deeper "/" : ClientM MemoryClient _).outcome client =
        (.ok entries, client) ∧
      (entries.map Entry.fullName).Nodup ∧
      ∀ key, key ∈ entries.map Entry.fullName ↔ key ≠ "/" ∧ ∃ node,
        client.tree.HasKey key node := by
  refine ⟨(client.tree.entries.map (·.1.length)).max?.getD 0 + 1, ?_⟩
  intro deeper hdeeper
  have hcanonical := Tree.canonical_of_mem_entries h
  have hdepth : ∀ key, [] <+: key → client.tree.contents key ≠ none →
      key.length < ([] : StorePath).length + deeper := by
    intro key _ hkey
    rw [ne_eq, Tree.contents_eq_none_iff] at hkey
    obtain ⟨node, hnode⟩ := Option.ne_none_iff_exists'.mp hkey
    rw [← PathMap.mem_entries_iff] at hnode
    have hmem : key.length ∈ client.tree.entries.map (·.1.length) := List.mem_map_of_mem hnode
    have hmax := List.le_max?_getD_of_mem (k := 0) hmem
    rw [List.length_nil]
    omega
  obtain ⟨entries, hlist, hperm⟩ := exists_listTree h h.root hdepth
  have hnames := hperm.map Entry.fullName
  rw [Node.map_fullName_entry] at hnames
  refine ⟨entries, hlist, ?_, ?_⟩
  . rw [hnames.nodup_iff, List.Nodup, List.pairwise_map]
    have hpairwise := List.Pairwise.and_mem.mp (client.tree.below_pairwise [])
    refine hpairwise.imp ?_
    rintro ⟨first, firstNode⟩ ⟨second, secondNode⟩ ⟨hfirst, hsecond, hprecedes⟩ htext
    have hmem := List.mem_of_mem_filter hfirst
    have hmem' := List.mem_of_mem_filter hsecond
    exact hprecedes.1 (eq_of_text_eq (hcanonical _ hmem) (hcanonical _ hmem') htext)
  . intro key
    rw [hnames.mem_iff, List.mem_map]
    constructor
    . rintro ⟨⟨path, node⟩, hmem, rfl⟩
      rw [PathMap.mem_below_iff] at hmem
      refine ⟨?_, node, path, rfl, hmem.2⟩
      intro htext
      have hpath := hcanonical _ ((PathMap.mem_entries_iff _ _ _).mpr hmem.2)
      exact hmem.1.2 (eq_of_text_eq hpath canonical_nil htext).symm
    . rintro ⟨hne, node, path, rfl, hnode⟩
      refine ⟨(path, node), ?_, rfl⟩
      rw [PathMap.mem_below_iff]
      refine ⟨nil_below ?_, hnode⟩
      rintro rfl
      exact hne rfl

/--
In every state that a store reaches, a directory lists exactly the keys that extend its own by one
name, and a listing that goes into every directory from the root on ends, and meets every other key
once.
-/
theorem listing_exact (account : String) {disk : Disk} (h : disk.WellFormed) (events : List Event) :
    let client := (after account disk events).client
    (∀ path modified, client.tree.HasKey (normalize path) (.directory modified) → ∃ entries,
      (StoreClient.list path : ClientM MemoryClient _).outcome client = (.ok entries, client) ∧
      client.Lists (normalize path) entries) ∧
    ∃ depth, ∀ deeper, depth ≤ deeper → ∃ entries,
      (StoreClient.listTree deeper "/" : ClientM MemoryClient _).outcome client =
        (.ok entries, client) ∧
      (entries.map Entry.fullName).Nodup ∧
      ∀ key, key ∈ entries.map Entry.fullName ↔
        key ≠ "/" ∧ ∃ node, client.tree.HasKey key node := by
  intro client
  have hsound : client.Sound account := after_sound account h events
  refine ⟨?_, exists_listTree_root hsound.tree⟩
  rintro path modified ⟨directory, htext, hnode⟩
  have hdirectory := Tree.contents_eq_directory_iff.mpr ⟨modified, hnode⟩
  have hcanonical : directory.Canonical := hsound.tree.canonical directory (by simp [hdirectory])
  have heq : directory = ofString path := eq_of_text_eq hcanonical (ofString_canonical path) htext
  subst heq
  exact ⟨_, list_outcome hdirectory, lists_children hsound.tree hcanonical⟩

theorem listing_exact_siblings :
    let client := (after "acct" (Disk.empty default)
      [.called (.createFile "d/a/b" .fail), .called (.createDirectory "d-x"),
        .called (.createFile "d.x" .fail),
        .called (.createFile "/d/./c" .fail)]).client
    (Disk.empty default).WellFormed ∧
      (∃ modified, client.tree.HasKey (normalize "d/") (.directory modified)) ∧
      (∃ entries,
        (StoreClient.list "d/" : ClientM MemoryClient _).outcome client = (.ok entries, client) ∧
        client.Lists (normalize "d/") entries) ∧
      ∃ depth entries, (StoreClient.listTree depth "/" : ClientM MemoryClient _).outcome client =
          (.ok entries, client) ∧
        (entries.map Entry.fullName).Nodup ∧
        ∀ key, key ∈ entries.map Entry.fullName ↔
          key ≠ "/" ∧ ∃ node, client.tree.HasKey key node := by
  intro client
  have hdisk := Disk.empty_wellFormed default
  have hkey : client.tree.HasKey (normalize "d/") (.directory (some (Disk.empty default).clock)) :=
    ⟨["d"], by decide, by rfl⟩
  obtain ⟨hlist, depth, htree⟩ := listing_exact "acct" hdisk _
  obtain ⟨entries, hentries⟩ := htree depth (Nat.le_refl depth)
  exact ⟨hdisk, ⟨_, hkey⟩, hlist "d/" _ hkey, depth, entries, hentries⟩

end MemoryClient

end LakeStore
