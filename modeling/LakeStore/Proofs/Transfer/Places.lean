import LakeStore.Proofs.Memory.Client
import LakeStore.Proofs.Path.Parents
import LakeStore.Proofs.Path.Target

/-!
The two translations of a transfer undo each other. What lies by some names below a path of a store
is found behind the same names at a local path, and the other way round. So a download keeps the
entries of a store apart, and below one another as they are there.
-/

namespace LakeStore

open StorePath

theorem HostPath.components_join (base : String) {path : StorePath} (h : path.Canonical)
    (hne : path ≠ []) :
    components (join base (ofComponents path)) = components base ++ path := by
  by_cases hbase : base = ""
  . subst hbase
    have hjoin : join "" (ofComponents path) = ofComponents path := if_pos (.inr rfl)
    rw [hjoin, components_ofComponents h]
    rfl
  . cases path with
    | nil => exact absurd rfl hne
    | cons name rest =>
      have hpath := canonical_cons.mp h
      rw [ofComponents_cons hpath.1, ← below_cons hbase hpath.1 hpath.2, components_below hbase h]

theorem components_localTarget (target : String) {root rest : StorePath} (hroot : root.Canonical)
    (hrest : rest.Canonical) :
    HostPath.components (localTarget target root.text (root ++ rest).text) =
      HostPath.components target ++ rest := by
  have hempty := HostPath.ofComponents_eq_empty_iff hrest
  rw [localTarget_eq target hroot hrest]
  split
  . next hnone => rw [hempty.mp hnone, List.append_nil]
  . next hsome => exact HostPath.components_join target hrest fun hnil => hsome (hempty.mpr hnil)

/-- How a download from `root` to `target` places what a store holds at `root` and below it. -/
structure Memory.Tree.Placed (tree : Memory.Tree) (root : StorePath) (target : String)
    (place : StorePath → String) :
    Prop where
  below : ∀ key, tree.contains key → root <+: key → ∃ rest, key = root ++ rest ∧
    (∀ name ∈ rest, IsName name) ∧
      HostPath.components (place key) = HostPath.components target ++ rest
  apart : ∀ key other, tree.contains key → tree.contains other → root <+: key → root <+: other →
    key ≠ other →
    HostPath.components (place key) ≠ HostPath.components (place other)
  ancestry : ∀ key other, tree.contains key → tree.contains other → root <+: key → root <+: other →
    (Below key other ↔ Below (HostPath.components (place key)) (HostPath.components (place other)))

theorem Memory.Tree.placed_localTarget {tree : Memory.Tree} (h : tree.contents.WellFormed)
    {root : StorePath} (hroot : root.Canonical) (target : String) :
    tree.Placed root target fun key => localTarget target root.text key.text := by
  have hrest : ∀ rest, tree.contains (root ++ rest) → rest.Canonical := by
    intro rest hkey
    have hsome : tree.contents (root ++ rest) ≠ none := by
      rw [ne_eq, contents_eq_none_iff, Option.eq_none_iff_forall_ne_some]
      intro hnone
      obtain ⟨node, hnode⟩ := (PathMap.contains_iff tree _).mp hkey
      exact hnone node hnode
    exact (canonical_append.mp (h.canonical _ hsome)).2
  constructor
  . rintro _ hkey ⟨rest, rfl⟩
    exact ⟨rest, rfl, hrest rest hkey, components_localTarget target hroot (hrest rest hkey)⟩
  . rintro _ _ hkey hother ⟨rest, rfl⟩ ⟨others, rfl⟩ hne heq
    rw [components_localTarget target hroot (hrest rest hkey),
      components_localTarget target hroot (hrest others hother), List.append_cancel_left_eq] at heq
    rw [heq] at hne
    exact hne rfl
  . rintro _ _ hkey hother ⟨rest, rfl⟩ ⟨others, rfl⟩
    rw [components_localTarget target hroot (hrest rest hkey),
      components_localTarget target hroot (hrest others hother), below_append_iff, below_append_iff]

/--
Names that go behind a normal path of a store are its names then, and go behind a local path when
the path is translated back. In every state that a store in memory reaches, a download so places
each entry at or below the target, two entries at two places, and one entry below another exactly
when it is below it in the store.
-/
theorem translations_inverse :
    (∀ base path, Canonical path →
      let relative := "/".intercalate path
      let remote := joinRemote (normalize base) relative
      normalize remote = remote ∧ names remote = names (normalize base) ++ path ∧
        ∀ target, localTarget target (normalize base) remote =
          if relative = "" then target else HostPath.join target relative) ∧
    ∀ account (host : Disk) events, host.WellFormed → ∀ base target,
      (MemoryClient.after account host events).client.tree.Placed (ofString base) target fun key =>
        localTarget target (normalize base) key.text := by
  constructor
  . intro base path hpath relative remote
    have hbase := ofString_canonical base
    have hall : Canonical (ofString base ++ path) := canonical_append.mpr ⟨hbase, hpath⟩
    have hrelative : relative = HostPath.ofComponents path :=
      (HostPath.ofComponents_eq_intercalate hpath).symm
    have hremote : remote = (ofString base ++ path).text := by
      change joinRemote (ofString base).text relative = _
      rw [hrelative, joinRemote_ofComponents hbase hpath]
    rw [hremote, hrelative]
    refine ⟨normalize_text hall, ?_, fun target => localTarget_eq target hbase hpath⟩
    rw [names_text hall]
    exact congrArg (· ++ path) (names_text hbase).symm
  . intro account host events hhost base target
    have hsound := MemoryClient.after_sound account hhost events
    exact Memory.Tree.placed_localTarget hsound.tree (ofString_canonical base) target

theorem translations_inverse_to_parent :
    let events := [MemoryClient.Event.called (.createFile "d/a:b/f?" .fail),
      .called (.createFile "d/g" .fail)]
    let tree := (MemoryClient.after "acct" (.empty default) events).client.tree
    let place := fun key : StorePath => localTarget "../out/" (normalize "x/../d") key.text
    tree.contains ["d", "a:b"] ∧ tree.contains ["d", "a:b", "f?"] ∧ tree.contains ["d", "g"] ∧
      joinRemote (normalize "x/../d") "a:b/f?" = "/d/a:b/f?" ∧
      place ["d", "a:b", "f?"] = "../out/a:b/f?" ∧
      HostPath.components (place ["d", "g"]) ≠ HostPath.components (place ["d", "a:b"]) ∧
      Below (HostPath.components (place ["d", "a:b"]))
      (HostPath.components (place ["d", "a:b", "f?"])) := by
  intro events tree place
  have hdirectory : tree.contains ["d", "a:b"] := by decide
  have hfile : tree.contains ["d", "a:b", "f?"] := by decide
  have hother : tree.contains ["d", "g"] := by decide
  obtain ⟨hinverse, hplaced⟩ := translations_inverse
  have hback := (hinverse "x/../d" ["a:b", "f?"] (by decide)).2.2 "../out/"
  have htree :=
    hplaced "acct" (.empty default) events (Disk.empty_wellFormed default) "x/../d" "../out/"
  have hapart := htree.apart _ _ hother hdirectory (by decide) (by decide) (by decide)
  have hancestry := htree.ancestry _ _ hdirectory hfile (by decide) (by decide)
  exact ⟨hdirectory, hfile, hother, by decide, hback, hapart, hancestry.mp (by decide)⟩

end LakeStore
