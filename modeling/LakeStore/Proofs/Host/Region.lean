import LakeStore.Proofs.Contents
import LakeStore.Proofs.Host.Lookup

/-!
What a disk holds below a location without links, and what a lookup from there answers: it depends
on the names alone, and on what is at them and above them.
-/

namespace LakeStore.Disk

open StorePath

variable {disk : Disk} {location : Location} {path : StorePath}

def content (disk : Disk) : Node → Content
  | .directory _ => .directory
  | .file id => .file (disk.contents id)
  | .link target _ => .link target

def contentsAt (disk : Disk) (location : Location) : Contents := fun path =>
  (disk.nodes.get? (location ++ path)).map disk.content

theorem contentsAt_append (disk : Disk) (location : Location) (path : StorePath) :
    disk.contentsAt (location ++ path) = (disk.contentsAt location).under path := by
  funext rest
  unfold Contents.under contentsAt
  rw [List.append_assoc]

theorem contentsAt_eq_directory_iff :
    disk.contentsAt location path = some .directory ↔ disk.IsDirectoryAt (location ++ path) := by
  unfold contentsAt IsDirectoryAt
  cases disk.nodes.get? (location ++ path) with
  | none => simp
  | some node => cases node <;> simp [content]

theorem contentsAt_eq_file_iff {data : ByteArray} :
    disk.contentsAt location path = some (.file data) ↔
      ∃ id, disk.nodes.get? (location ++ path) = some (.file id) ∧ disk.contents id = data := by
  unfold contentsAt
  cases disk.nodes.get? (location ++ path) with
  | none => simp
  | some node => cases node <;> simp [content]

theorem contentsAt_eq_link_iff {target : String} :
    disk.contentsAt location path = some (.link target) ↔
      ∃ modified, disk.nodes.get? (location ++ path) = some (.link target modified) := by
  unfold contentsAt
  cases disk.nodes.get? (location ++ path) with
  | none => simp
  | some node => cases node <;> simp [content, eq_comm]

theorem contentsAt_eq_none_iff :
    disk.contentsAt location path = none ↔ disk.nodes.get? (location ++ path) = none := by
  simp [contentsAt]

/-- Whether the file at a place, if there is one, is at no other place. -/
def Alone (disk : Disk) (place : Location) : Prop :=
  ∀ id other, disk.nodes.get? place = some (.file id) → disk.nodes.get? other = some (.file id) →
  other = place

theorem Alone.of_none {place : Location} (h : disk.nodes.get? place = none) : disk.Alone place := by
  intro id other hnode
  rw [h] at hnode
  cases hnode

structure IsRegion (disk : Disk) (location : Location) : Prop where
  wellFormed : disk.WellFormed
  root : disk.IsDirectoryAt location
  noLink : ∀ path target modified,
    disk.nodes.get? (location ++ path) ≠ some (.link target modified)

theorem isTree_contentsAt (h : disk.WellFormed) (location : Location) :
    (disk.contentsAt location).IsTree := by
  have hget : ∀ path, disk.contentsAt location path ≠ none →
      ∃ node, disk.nodes.get? (location ++ path) = some node := by
    intro path hpath
    rw [ne_eq, contentsAt_eq_none_iff] at hpath
    exact Option.ne_none_iff_exists'.mp hpath
  constructor
  . intro path hpath
    obtain ⟨node, hnode⟩ := hget path hpath
    exact (canonical_append.mp (h.canonical hnode)).2
  . intro path above hpath habove
    obtain ⟨node, hnode⟩ := hget path hpath
    rw [contentsAt_eq_directory_iff]
    exact h.above hnode (below_append_iff.mpr habove)

theorem IsRegion.contents_wellFormed (h : disk.IsRegion location) :
    (disk.contentsAt location).WellFormed := by
  have htree := isTree_contentsAt h.wellFormed location
  refine ⟨?_, htree.canonical, htree.closed, ?_⟩
  . rw [contentsAt_eq_directory_iff, List.append_nil]
    exact h.root
  . intro path target
    rw [ne_eq, contentsAt_eq_link_iff]
    rintro ⟨modified, hlink⟩
    exact h.noLink path target modified hlink

def Short (path : StorePath) : Prop :=
  ∀ name ∈ path, name.utf8ByteSize ≤ maxName

instance (path : StorePath) : Decidable (Short path) :=
  inferInstanceAs (Decidable (∀ name ∈ path, name.utf8ByteSize ≤ maxName))

section follow

variable {expand : Location → String → List String → LastName → Except HostError Spot}
  {last : LastName} {name : String} {rest : List String}

theorem follow_nil_of_get? {node : Node} (hnode : disk.nodes.get? location = some node) :
    disk.follow expand last location [] = .ok (.taken location node) := by
  unfold follow
  rw [hnode]

theorem follow_isName (hname : IsName name) (hshort : name.utf8ByteSize ≤ maxName)
    (hlast : last.directory = false) :
    disk.follow expand last location (name :: rest) =
      match disk.nodes.get? (location ++ [name]) with
      | none => if rest = [] then .ok (.free location name) else .error .notFound
      | some (.directory _) => disk.follow expand last (location ++ [name]) rest
      | some (.file id) =>
        if rest = [] then .ok (.taken (location ++ [name]) (.file id)) else .error .notDirectory
      | some (.link target modified) =>
        if rest = [] ∧ ¬ last.follow then .ok (.taken (location ++ [name]) (.link target modified))
        else expand location target rest last := by
  rw [follow_name hname.notDot hname.notDotDot, if_neg (by simp [hlast]),
    if_neg (Nat.not_lt.mpr hshort)]
  cases disk.nodes.get? (location ++ [name]) with
  | none => rfl
  | some node => cases node <;> simp [hlast]

theorem follow_through (h : disk.WellFormed) (hpath : path.Canonical) (hshort : Short path)
    (hlast : last.directory = false) (hdirectory : disk.IsDirectoryAt (location ++ path)) :
    disk.follow expand last location (path ++ rest) =
      disk.follow expand last (location ++ path) rest := by
  induction path generalizing location with
  | nil => simp
  | cons name path ih =>
    rw [canonical_cons] at hpath
    have hsplit : location ++ name :: path = location ++ [name] ++ path := by simp
    rw [hsplit] at hdirectory ⊢
    have hname : disk.IsDirectoryAt (location ++ [name]) := by
      by_cases hnil : path = []
      . rw [hnil, List.append_nil] at hdirectory
        exact hdirectory
      . obtain ⟨modified, hnode⟩ := hdirectory
        exact h.above hnode (below_append hnil)
    rw [List.cons_append, follow_isName hpath.1 (hshort name (.head _)) hlast]
    obtain ⟨modified, hnode⟩ := hname
    rw [hnode]
    exact ih hpath.2 (fun other hother => hshort other (.tail _ hother)) hdirectory

theorem follow_of_get? (h : disk.WellFormed) (hpath : path.Canonical) (hshort : Short path)
    (hlast : last.directory = false) {node : Node}
    (hlink : ∀ target modified, node ≠ .link target modified)
    (hnode : disk.nodes.get? (location ++ path) = some node) :
    disk.follow expand last location path = .ok (.taken (location ++ path) node) := by
  cases path using List.reverseRecOn with
  | nil =>
    rw [List.append_nil] at hnode ⊢
    exact follow_nil_of_get? hnode
  | append_singleton path name =>
    rw [canonical_append, canonical_singleton] at hpath
    have hshortPath : Short path := fun other hother => hshort other (by simp [hother])
    rw [← List.append_assoc] at hnode ⊢
    have hdirectory := h.parent _ _ _ hnode
    rw [follow_through h hpath.1 hshortPath hlast hdirectory,
      follow_isName hpath.2 (hshort name (by simp)) hlast, hnode]
    cases node with
    | directory modified => exact follow_nil_of_get? hnode
    | file id => rfl
    | link target modified => exact absurd rfl (hlink target modified)

theorem IsRegion.follow_location (h : disk.IsRegion location) (hpath : path.Canonical)
    {found : Location} {node : Node}
    (hfollow : disk.follow expand last location path = .ok (.taken found node)) :
    found = location ++ path := by
  have hnoLink := h.noLink
  clear h
  induction path generalizing location with
  | nil =>
    unfold follow at hfollow
    split at hfollow
    . cases hfollow
      rw [List.append_nil]
    . cases hfollow
  | cons name path ih =>
    rw [canonical_cons] at hpath
    rw [follow_name hpath.1.notDot hpath.1.notDotDot] at hfollow
    have hsplit : location ++ name :: path = location ++ [name] ++ path := by simp
    split at hfollow
    . cases hfollow
    . split at hfollow
      . cases hfollow
      . split at hfollow
        . split at hfollow
          all_goals cases hfollow
        . rw [hsplit]
          apply ih hpath.2 hfollow
          intro rest target modified
          rw [List.append_assoc]
          exact hnoLink _ target modified
        . split at hfollow
          . next hlast =>
            cases hfollow
            rw [hlast.1]
          . cases hfollow
        . next target modified hlink => exact absurd hlink (hnoLink [name] target modified)

end follow

end LakeStore.Disk
