import LakeStore.Host.Disk
import LakeStore.Proofs.Path.Below
import Mathlib.Data.List.Induction

/-!
What makes a disk an ordinary one, and what a lookup on such a disk can answer: a place that it
calls free is free, has a directory to be in, and has the name of an entry.
-/

namespace LakeStore.Disk

open StorePath

def IsDirectoryAt (disk : Disk) (location : Location) : Prop :=
  ∃ modified, disk.nodes.get? location = some (.directory modified)

/-- Entries are in directories and have names, and the files that they stand for are there. -/
structure WellFormed (disk : Disk) : Prop where
  root : disk.IsDirectoryAt []
  here : disk.IsDirectoryAt disk.here
  parent : ∀ location name node,
    disk.nodes.get? (location ++ [name]) = some node → disk.IsDirectoryAt location
  name : ∀ location name node, disk.nodes.get? (location ++ [name]) = some node → IsName name
  file : ∀ location id, disk.nodes.get? location = some (.file id) → id < disk.files.size

structure IsPlace (disk : Disk) (location : Location) (name : String) : Prop where
  parent : disk.IsDirectoryAt location
  isName : IsName name
  free : disk.nodes.get? (location ++ [name]) = none

variable {disk : Disk}

theorem WellFormed.canonical (h : disk.WellFormed) {location : Location} {node : Node}
    (hnode : disk.nodes.get? location = some node) : location.Canonical := by
  induction location using List.reverseRecOn generalizing node with
  | nil => exact canonical_nil
  | append_singleton location name ih =>
    obtain ⟨modified, hparent⟩ := h.parent location name node hnode
    rw [canonical_append, canonical_singleton]
    exact ⟨ih hparent, h.name location name node hnode⟩

theorem WellFormed.above (h : disk.WellFormed) {location above : Location} {node : Node}
    (hnode : disk.nodes.get? location = some node) (habove : Below above location) :
    disk.IsDirectoryAt above := by
  induction location using List.reverseRecOn generalizing node with
  | nil => exact absurd habove (not_below_nil above)
  | append_singleton location name ih =>
    have hparent := h.parent location name node hnode
    rw [below_concat_iff, prefix_iff_eq_or_below] at habove
    cases habove with
    | inl heq => rw [heq]; exact hparent
    | inr hbelow =>
      obtain ⟨modified, hparent⟩ := hparent
      exact ih hparent hbelow

theorem WellFormed.directory_of_prefix (h : disk.WellFormed) {location above : Location}
    (hlocation : disk.IsDirectoryAt location) (hpre : above <+: location) :
    disk.IsDirectoryAt above := by
  rw [prefix_iff_eq_or_below] at hpre
  rcases hpre with rfl | hbelow
  . exact hlocation
  . obtain ⟨modified, hnode⟩ := hlocation
    exact h.above hnode hbelow

theorem WellFormed.directory_dropLast (h : disk.WellFormed) {location : Location}
    (hlocation : disk.IsDirectoryAt location) : disk.IsDirectoryAt location.dropLast := by
  cases location using List.reverseRecOn with
  | nil => exact hlocation
  | append_singleton location name =>
    obtain ⟨modified, hnode⟩ := hlocation
    rw [List.dropLast_concat]
    exact h.parent location name _ hnode

theorem WellFormed.start (h : disk.WellFormed) (path : String) :
    disk.IsDirectoryAt (disk.start path) := by
  unfold Disk.start
  split
  . exact h.root
  . exact h.here

theorem empty_wellFormed (clock : Time) : (empty clock).WellFormed := by
  have hget : ∀ location, (empty clock).nodes.get? location =
      if location = [] then some (.directory clock) else none := by
    intro location
    exact PathMap.get?_insert ∅ [] location (Node.directory clock)
  have hroot : (empty clock).IsDirectoryAt [] := ⟨clock, hget []⟩
  have hnone : ∀ location name node, (empty clock).nodes.get? (location ++ [name]) ≠ some node := by
    intro location name node
    rw [hget, if_neg (by simp)]
    simp
  refine ⟨hroot, hroot, ?_, ?_, ?_⟩
  . intro location name node hnode
    exact absurd hnode (hnone location name node)
  . intro location name node hnode
    exact absurd hnode (hnone location name node)
  . intro location id hnode
    rw [hget] at hnode
    split at hnode
    all_goals cases hnode

theorem checkText_eq_ok_iff {text : String} :
    checkText text = .ok () ↔ '\x00' ∉ text.toList ∧ text ≠ "" ∧ text.utf8ByteSize < maxPath := by
  unfold checkText
  split
  . next hzero => simp [hzero]
  . next hzero =>
    split
    . next hempty => simp [hempty]
    . next hempty =>
      split
      . next hlong =>
        have hnot : ¬ text.utf8ByteSize < maxPath := by omega
        simp [hnot]
      . next hshort =>
        have hlt : text.utf8ByteSize < maxPath := by omega
        simp [hzero, hempty, hlt]

theorem checkText_of_append {before after : String} (h : checkText (before ++ after) = .ok ())
    (hne : before ≠ "") : checkText before = .ok () := by
  rw [checkText_eq_ok_iff] at h ⊢
  obtain ⟨hzero, _, hshort⟩ := h
  rw [String.toList_append, List.mem_append, not_or] at hzero
  rw [String.utf8ByteSize_append] at hshort
  refine ⟨hzero.1, hne, ?_⟩
  omega

def AreParts (parts : List String) : Prop :=
  ∀ part ∈ parts, part ≠ "" ∧ '/' ∉ part.toList

theorem areParts_names (text : String) : AreParts (names text) := by
  intro part hpart
  unfold names at hpart
  rw [List.mem_filter] at hpart
  refine ⟨by simpa using hpart.2, ?_⟩
  exact slash_notMem_of_mem_pieces hpart.1

theorem areParts_append {parts rest : List String} (hparts : AreParts parts)
    (hrest : AreParts rest) :
    AreParts (parts ++ rest) := by
  intro part hpart
  rw [List.mem_append] at hpart
  cases hpart with
  | inl h => exact hparts part h
  | inr h => exact hrest part h

section follow

variable {expand : Location → String → List String → LastName → Except HostError Spot}
  {last : LastName} {directory : Location} {name : String} {rest : List String}

theorem follow_dot :
    disk.follow expand last directory ("." :: rest) = disk.follow expand last directory rest := by
  rw [follow]

theorem follow_dots :
    disk.follow expand last directory (".." :: rest) =
      disk.follow expand last directory.dropLast rest := by
  rw [follow]

theorem follow_name (hdot : name ≠ ".") (hdots : name ≠ "..") :
    disk.follow expand last directory (name :: rest) =
      if rest = [] ∧ last.directory ∧ last.creates then .error .isDirectory
      else if maxName < name.utf8ByteSize then .error .nameTooLong
      else match disk.nodes.get? (directory ++ [name]) with
        | none => if rest = [] then .ok (.free directory name) else .error .notFound
        | some (.directory _) => disk.follow expand last (directory ++ [name]) rest
        | some (.file id) =>
          if rest = [] ∧ ¬ last.directory then .ok (.taken (directory ++ [name]) (.file id))
          else .error .notDirectory
        | some (.link target modified) =>
          if rest = [] ∧ ¬ last.follow ∧ ¬ last.directory then
            .ok (.taken (directory ++ [name]) (.link target modified))
          else expand directory target rest last := by
  rw [follow]
  all_goals first | rfl | assumption

end follow

end LakeStore.Disk
