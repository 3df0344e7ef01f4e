import LakeStore.Proofs.Memory.Client
import LakeStore.Proofs.Path.Host

/-!
The tree in memory as a map from texts, which are the texts of its paths. In every state that a
store reaches the root is there as a directory, each key is a normal path, and each text above a key
is the key of a directory.
-/

namespace LakeStore

namespace Memory

open StorePath

/-- Whether a text above another one leads to a directory that the other text leads through. -/
def IsAbove (above key : String) : Prop :=
  key ≠ "/" ∧ (above = "/" ∨ above ≠ "" ∧ ∃ rest, key = above ++ "/" ++ rest)

def Tree.HasKey (tree : Tree) (key : String) (node : Node) : Prop :=
  ∃ path : StorePath, path.text = key ∧ tree.get? path = some node

structure Tree.IsTree (tree : Tree) : Prop where
  unique : ∀ key node other, tree.HasKey key node → tree.HasKey key other → node = other
  root : ∃ modified, tree.HasKey "/" (.directory modified)
  normal : ∀ key node, tree.HasKey key node →
    (∃ text, normalize text = key) ∧ ∃ names, Canonical names ∧ rooted names = key
  closed : ∀ key node above, tree.HasKey key node → IsAbove above key →
    ∃ modified, tree.HasKey above (.directory modified)

theorem exists_below_of_isAbove {path : StorePath} (hpath : path.Canonical) {above : String}
    (h : IsAbove above path.text) : ∃ front : StorePath, front.text = above ∧ Below front path := by
  have hne : path ≠ [] := by
    rintro rfl
    exact h.1 rfl
  cases h.2 with
  | inl hroot => exact ⟨[], hroot.symm, nil_below hne⟩
  | inr hinner =>
    obtain ⟨hnonempty, rest, htext⟩ := hinner
    have hpieces : "" :: path = pieces above ++ pieces rest := by
      rw [← pieces_append_slash, ← htext, StorePath.text, rooted_of_ne_nil hne]
      rw [← String.empty_append (s := slashed path),
        pieces_append_slashed "" hpath.resolved.noSlash]
      rfl
    obtain ⟨first, front, habove⟩ := List.exists_cons_of_ne_nil (pieces_ne_nil above)
    rw [habove, List.cons_append, List.cons.injEq] at hpieces
    have hfirst := hpieces.1
    subst hfirst
    have hfront : above = slashed front := by
      rw [append_slashed_of_pieces habove, String.empty_append]
    have hfrontNe : front ≠ [] := by
      rintro rfl
      exact hnonempty hfront
    refine ⟨front, ?_, ?_⟩
    . rw [hfront, StorePath.text, rooted_of_ne_nil hfrontNe]
    . rw [hpieces.2]
      exact below_append (pieces_ne_nil rest)

theorem isAbove_text_iff {path key : StorePath} (hpath : path.Canonical) (hkey : key.Canonical) :
    IsAbove path.text key.text ↔ Below path key := by
  constructor
  . intro habove
    obtain ⟨front, htext, hbelow⟩ := exists_below_of_isAbove hkey habove
    have heq := eq_of_text_eq (hbelow.canonical hkey) hpath htext
    subst heq
    exact hbelow
  . rintro ⟨⟨rest, rfl⟩, hne⟩
    cases rest with
    | nil => exact absurd (List.append_nil path).symm hne
    | cons name rest =>
      constructor
      . intro htext
        have hnil := eq_of_text_eq hkey canonical_nil htext
        simp at hnil
      . by_cases hnil : path = []
        . subst hnil
          exact .inl rfl
        . right
          have htext : path.text = slashed path := rooted_of_ne_nil hnil
          constructor
          . intro hempty
            have hnames := names_text hpath
            rw [hempty] at hnames
            exact hnil hnames.symm
          . refine ⟨name ++ slashed rest, ?_⟩
            rw [htext, StorePath.text, rooted_append_cons]

theorem Tree.canonical_of_mem_entries {tree : Tree} (h : tree.contents.WellFormed) :
    ∀ entry ∈ tree.entries, entry.1.Canonical := by
  rintro ⟨path, node⟩ hentry
  rw [PathMap.mem_entries_iff] at hentry
  apply h.canonical path
  rw [ne_eq, contents_eq_none_iff, hentry]
  simp

theorem Tree.isTree_of_wellFormed {tree : Tree} (h : tree.contents.WellFormed) : tree.IsTree := by
  have hcontents : ∀ path node, tree.get? path = some node → tree.contents path ≠ none := by
    intro path node hnode
    rw [ne_eq, contents_eq_none_iff, hnode]
    simp
  have hcanonical : ∀ path node, tree.get? path = some node → path.Canonical :=
    fun path node hnode => h.canonical path (hcontents path node hnode)
  refine ⟨?_, ?_, ?_, ?_⟩
  . rintro key node other ⟨path, hpath, hnode⟩ ⟨path', hpath', hother⟩
    have heq : path = path' := by
      apply eq_of_text_eq
      . exact hcanonical path node hnode
      . exact hcanonical path' other hother
      . rw [hpath, hpath']
    rw [heq, hother, Option.some_inj] at hnode
    exact hnode.symm
  . obtain ⟨modified, hroot⟩ := contents_eq_directory_iff.mp h.root
    exact ⟨modified, [], rfl, hroot⟩
  . rintro key node ⟨path, rfl, hnode⟩
    have hpath := hcanonical path node hnode
    exact ⟨⟨path.text, normalize_text hpath⟩, path, hpath, rfl⟩
  . rintro key node above ⟨path, rfl, hnode⟩ habove
    obtain ⟨front, rfl, hbelow⟩ := exists_below_of_isAbove (hcanonical path node hnode) habove
    have hdirectory := h.closed path front (hcontents path node hnode) hbelow
    obtain ⟨modified, hfront⟩ := contents_eq_directory_iff.mp hdirectory
    exact ⟨modified, front, rfl, hfront⟩

end Memory

namespace MemoryClient

theorem isTree_after (account : String) {disk : Disk} (h : disk.WellFormed) (events : List Event) :
    (after account disk events).client.tree.IsTree :=
  Memory.Tree.isTree_of_wellFormed (after_sound account h events).tree

theorem isTree_after_stale_write :
    (Disk.empty default).WellFormed ∧
      (after "acct" (Disk.empty default)
        [.called (.createFile "a/./b//c" .fail), .called (.deleteRecursive "/a"),
          .called (.createDirectory "a/b"), .called (.write 0 "x".toUTF8),
          .markedPendingDelete "a", .called (.upload "/" "up/..")]).client.tree.IsTree := by
  have hdisk := Disk.empty_wellFormed default
  exact ⟨hdisk, isTree_after "acct" hdisk _⟩

end MemoryClient

end LakeStore
