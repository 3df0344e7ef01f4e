import LakeStore.Proofs.Memory.Keys
import LakeStore.Proofs.PathMap

/-!
A deletion takes from a store in memory the entry that it names, and a recursive one the keys that a
scan of the sorted keys finds below it. Every other key keeps its entry, siblings whose keys begin
with the same characters among them.
-/

namespace LakeStore

open StorePath

namespace PathMap

variable {β : Type}

def eraseScanned (map : PathMap β) (path : StorePath) : PathMap β :=
  ((map.descendants path.text).foldl (fun map found => map.erase found.1) map).erase path

theorem foldl_erase (entries : List (StorePath × β)) (map : PathMap β) :
    entries.foldl (fun map found => map.erase found.1) map =
      map.filter (· ∉ entries.map Prod.fst) := by
  induction entries generalizing map with
  | nil => simp [filter]
  | cons entry rest ih =>
    rw [List.foldl_cons, ih, erase, filter_filter]
    apply filter_congr
    intro found _
    rw [List.map_cons, Bool.eq_iff_iff]
    simp only [Bool.and_eq_true, decide_eq_true_eq, List.mem_cons, not_or, ne_eq]
    exact and_comm

theorem eraseScanned_eq_eraseFrom {map : PathMap β} (h : ∀ entry ∈ map.entries, entry.1.Canonical)
    {path : StorePath} (hpath : path.Canonical) : map.eraseScanned path = map.eraseFrom path := by
  unfold eraseScanned
  rw [foldl_erase, descendants_eq_below h hpath, ← erase_filter_below]
  congr 1
  apply filter_congr
  rintro ⟨key, value⟩ hentry
  rw [mem_entries_iff] at hentry
  rw [Bool.eq_iff_iff, decide_eq_true_eq, decide_eq_true_eq, not_iff_not, List.mem_map]
  constructor
  . rintro ⟨⟨found, other⟩, hmem, rfl⟩
    exact ((mem_below_iff map path found other).mp hmem).1
  . intro hbelow
    exact ⟨(key, value), (mem_below_iff map path key value).mpr ⟨hbelow, hentry⟩, rfl⟩

end PathMap

namespace Memory

variable {tree : Tree} {path : StorePath}

theorem Tree.hasKey_text_iff (h : tree.contents.WellFormed) (hpath : path.Canonical) {node : Node} :
    tree.HasKey path.text node ↔ tree.get? path = some node := by
  constructor
  . rintro ⟨other, htext, hnode⟩
    have hother :=
      canonical_of_mem_entries h _ ((PathMap.mem_entries_iff tree other node).mpr hnode)
    rw [← eq_of_text_eq hother hpath htext]
    exact hnode
  . exact fun hnode => ⟨path, rfl, hnode⟩

theorem Tree.hasKey_filter_iff (h : tree.contents.WellFormed) {keep : StorePath → Bool}
    {Gone : String → Prop} (hgone : ∀ other : StorePath,
      other.Canonical → (keep other ↔ ¬ Gone other.text)) {key : String} {node : Node} :
    Tree.HasKey (tree.filter keep) key node ↔ tree.HasKey key node ∧ ¬ Gone key := by
  constructor
  . rintro ⟨other, rfl, hnode⟩
    rw [PathMap.get?_filter] at hnode
    split at hnode
    . next hkeep =>
      have hother :=
        canonical_of_mem_entries h _ ((PathMap.mem_entries_iff tree other node).mpr hnode)
      exact ⟨⟨other, rfl, hnode⟩, (hgone other hother).mp hkeep⟩
    . cases hnode
  . rintro ⟨⟨other, rfl, hnode⟩, hkept⟩
    have hother :=
      canonical_of_mem_entries h _ ((PathMap.mem_entries_iff tree other node).mpr hnode)
    refine ⟨other, rfl, ?_⟩
    rw [PathMap.get?_filter, if_pos ((hgone other hother).mpr hkept)]
    exact hnode

end Memory

namespace MemoryClient

open Memory

variable {client : MemoryClient} {account : String}

theorem hasKey_normalize_iff (h : client.tree.contents.WellFormed) (text : String) {node : Node} :
    client.tree.HasKey (normalize text) node ↔ client.tree.get? (ofString text) = some node :=
  Tree.hasKey_text_iff h (ofString_canonical text)

theorem deleteRecursive_outcome (text : String) (client : MemoryClient) :
    (StoreClient.deleteRecursive text : ClientM MemoryClient Bool).outcome client =
      if ofString text ≠ [] && client.tree.contains (ofString text) then
        (.ok true, { client with tree := client.tree.eraseFrom (ofString text) })
      else (.ok false, client) := by
  change (onTree fun _ =>
    Tree.deleteRecursive (ofString text) : ClientM MemoryClient Bool).outcome client = _
  rw [onTree_outcome, Step.outcome_liftM, Tree.deleteRecursive_run]
  split
  all_goals rfl

theorem delete_outcome (text : String) (client : MemoryClient) :
    (StoreClient.delete text : ClientM MemoryClient Bool).outcome client =
      if client.tree.removable (ofString text) then
        (.ok true, { client with tree := client.tree.erase (ofString text) })
      else (.ok false, client) := by
  change (onTree fun _ => Tree.delete (ofString text) : ClientM MemoryClient Bool).outcome client =
    _
  rw [onTree_outcome, Step.outcome_liftM, Tree.delete_run]
  split
  all_goals rfl

/--
Whether a removal is done exactly when `Can` holds, and then takes exactly the keys of which `Gone`
holds. Every other key keeps its entry, with its type, its bytes and its time.
-/
structure Removal (old : Tree) (Can : Prop) (Gone : String → Prop) (done : Bool) (new : Tree) :
    Prop where
  done_iff : done ↔ Can
  hasKey_iff : ∀ key node, new.HasKey key node ↔ old.HasKey key node ∧ ¬ (done ∧ Gone key)

theorem Removal.refused {tree : Tree} {Can : Prop} {Gone : String → Prop} (h : ¬ Can) :
    Removal tree Can Gone false tree := by
  constructor
  . simpa using h
  . simp

theorem Removal.filter {tree : Tree} (h : tree.contents.WellFormed) {Can : Prop}
    {Gone : String → Prop} {keep : StorePath → Bool} (hcan : Can)
    (hgone : ∀ other : StorePath, other.Canonical → (keep other ↔ ¬ Gone other.text)) :
    Removal tree Can Gone true (tree.filter keep) := by
  constructor
  . simpa using hcan
  . intro key node
    rw [Tree.hasKey_filter_iff h hgone]
    simp

theorem contains_iff_hasKey (h : client.tree.contents.WellFormed) (text : String) :
    ofString text ≠ [] ∧ client.tree.contains (ofString text) ↔
      normalize text ≠ "/" ∧ ∃ node, client.tree.HasKey (normalize text) node := by
  rw [PathMap.contains_iff, ne_eq, ofString_eq_nil_iff]
  simp only [hasKey_normalize_iff h]

theorem removable_iff_hasKey (h : client.tree.contents.WellFormed) (text : String) :
    client.tree.removable (ofString text) ↔
      normalize text ≠ "/" ∧ ∃ node, client.tree.HasKey (normalize text) node ∧
        (node.isDirectory → ∀ key found,
          client.tree.HasKey key found → ¬ IsAbove (normalize text) key) := by
  have hbelow : (client.tree.below (ofString text)).isEmpty ↔
      ∀ key found, client.tree.HasKey key found → ¬ IsAbove (normalize text) key := by
    rw [List.isEmpty_iff, List.eq_nil_iff_forall_not_mem]
    constructor
    . rintro hnone key found ⟨path, rfl, hfound⟩ habove
      have hpath := Tree.canonical_of_mem_entries h _ ((PathMap.mem_entries_iff _ _ _).mpr hfound)
      have hpathBelow := (isAbove_text_iff (ofString_canonical text) hpath).mp habove
      exact hnone (path, found) ((PathMap.mem_below_iff _ _ _ _).mpr ⟨hpathBelow, hfound⟩)
    . rintro hnone ⟨path, found⟩ hmem
      rw [PathMap.mem_below_iff] at hmem
      have hpath := Tree.canonical_of_mem_entries h _ ((PathMap.mem_entries_iff _ _ _).mpr hmem.2)
      exact hnone path.text found ⟨path, rfl, hmem.2⟩
        ((isAbove_text_iff (ofString_canonical text) hpath).mpr hmem.1)
  unfold Tree.removable
  rw [Bool.and_eq_true, decide_eq_true_eq, ne_eq, ofString_eq_nil_iff]
  simp only [hasKey_normalize_iff h]
  cases client.tree.get? (ofString text) with
  | none => simp
  | some node =>
    cases node with
    | directory modified => simp [hbelow, Node.isDirectory]
    | file data modified => simp [Node.isDirectory]

/--
In every state that a store reaches, a deletion takes exactly the entry that it names, and a
recursive one that entry and those below it, which are the ones that a scan of the sorted keys
finds. A deletion is refused at the root, where there is no entry, and, unless it is recursive, at a
directory that is above another key.
-/
theorem deletion_exact (account : String) {disk : Disk} (h : disk.WellFormed) (events : List Event)
    (text : String) :
    let client := (after account disk events).client
    let key := normalize text
    (∃ done tree, (StoreClient.deleteRecursive text : ClientM MemoryClient Bool).outcome client =
        (.ok done, { client with tree := tree }) ∧
      Removal client.tree (key ≠ "/" ∧ ∃ node, client.tree.HasKey key node)
        (fun other => other = key ∨ IsAbove key other) done tree ∧
      (done → tree = client.tree.eraseScanned (ofString text))) ∧
    (∃ done tree, (StoreClient.delete text : ClientM MemoryClient Bool).outcome client =
        (.ok done, { client with tree := tree }) ∧
      Removal client.tree (key ≠ "/" ∧ ∃ node, client.tree.HasKey key node ∧
          (node.isDirectory → ∀ other found, client.tree.HasKey other found → ¬ IsAbove key other))
        (· = key) done tree) ∧
    client.tree.descendants key = client.tree.below (ofString text) := by
  intro client key
  have hsound : client.Sound account := after_sound account h events
  have hcanonical := Tree.canonical_of_mem_entries hsound.tree
  have hpath : (ofString text).Canonical := ofString_canonical text
  have hsame : ∀ other : StorePath,
      other.Canonical → (ofString text = other ↔ other.text = key) := by
    intro other hother
    constructor
    . rintro rfl
      rfl
    . exact fun heq => (eq_of_text_eq hother hpath heq).symm
  refine ⟨?_, ?_, PathMap.descendants_eq_below hcanonical hpath⟩
  . rw [deleteRecursive_outcome]
    have hcan := contains_iff_hasKey hsound.tree text
    split
    . next hdone =>
      rw [Bool.and_eq_true, decide_eq_true_eq, hcan] at hdone
      refine ⟨true, _, rfl, Removal.filter hsound.tree hdone ?_, ?_⟩
      . intro other hother
        rw [decide_eq_true_eq, not_iff_not, prefix_iff_eq_or_below, hsame other hother]
        rw [← isAbove_text_iff hpath hother]
        rfl
      . exact fun _ => (PathMap.eraseScanned_eq_eraseFrom hcanonical hpath).symm
    . next hrefused =>
      rw [Bool.and_eq_true, decide_eq_true_eq, hcan] at hrefused
      exact ⟨false, client.tree, rfl, .refused hrefused, by simp⟩
  . rw [delete_outcome]
    have hcan := removable_iff_hasKey hsound.tree text
    split
    . next hdone =>
      rw [hcan] at hdone
      refine ⟨true, _, rfl, Removal.filter hsound.tree hdone ?_⟩
      intro other hother
      rw [decide_eq_true_eq, ne_eq, ← hsame other hother, eq_comm]
    . next hrefused =>
      rw [hcan] at hrefused
      exact ⟨false, client.tree, rfl, .refused hrefused⟩

theorem deletion_exact_siblings :
    let client := (after "acct" (Disk.empty default)
      [.called (.createFile "d/x/y" .fail), .called (.createFile "d-x" .fail),
        .called (.createDirectory "dd"),
        .called (.createFile "d0" .fail)]).client
    (Disk.empty default).WellFormed ∧
      ∃ tree, (StoreClient.deleteRecursive "./d/" : ClientM MemoryClient Bool).outcome client =
          (.ok true, { client with tree := tree }) ∧
        (∀ key node, tree.HasKey key node ↔
          client.tree.HasKey key node ∧ ¬ (key = "/d" ∨ IsAbove "/d" key)) := by
  intro client
  have hdisk := Disk.empty_wellFormed default
  have hkey : normalize "./d/" = "/d" := by decide
  obtain ⟨⟨done, tree, houtcome, hremoval, _⟩, _⟩ := deletion_exact "acct" hdisk
    [.called (.createFile "d/x/y" .fail), .called (.createFile "d-x" .fail),
      .called (.createDirectory "dd"),
      .called (.createFile "d0" .fail)] "./d/"
  have hdone : done = true := by
    apply hremoval.done_iff.mpr
    exact ⟨by decide, .directory (some default), ["d"], by decide, by rfl⟩
  subst hdone
  refine ⟨hdisk, tree, houtcome, ?_⟩
  intro key node
  have hleft := hremoval.hasKey_iff key node
  rw [hkey] at hleft
  simpa using hleft

end MemoryClient

end LakeStore
