import LakeStore.Proofs.Host.Place
import LakeStore.Proofs.Trees

/-!
Host paths that lead to nothing yet. Such a path names a place that takes each tree.
-/

namespace LakeStore.Disk

open StorePath

variable {disk : Disk} {text : String} {directory : Location} {path : StorePath}

theorem WellFormed.get?_below_none (h : disk.WellFormed) {location : Location}
    (hnone : disk.nodes.get? location = none) (rest : StorePath) :
    disk.nodes.get? (location ++ rest) = none := by
  by_cases hnil : rest = []
  . rw [hnil, List.append_nil]
    exact hnone
  . cases hnode : disk.nodes.get? (location ++ rest) with
    | none => rfl
    | some node =>
      obtain ⟨modified, hdirectory⟩ := h.above hnode (below_append hnil)
      rw [hnone] at hdirectory
      cases hdirectory

structure Vacant (disk : Disk) (text : String) (directory : Location) (path : StorePath) :
    Prop where
  checked : checkText text = .ok ()
  noSlash : HostPath.endsInSlash text = false
  leads : ∃ front parts name modified, names text = front ++ (parts ++ [name]) ∧
    parts.filter (· ≠ ".") ++ [name] = path ∧
    disk.followLinks maxLinks ⟨true, false, false⟩ (disk.start text) front =
      .ok (.taken directory (.directory modified))
  canonical : path.Canonical
  short : Short path
  absent : ∀ name ∈ path.head?, disk.nodes.get? (directory ++ [name]) = none

theorem Vacant.ne_nil (h : Vacant disk text directory path) : path ≠ [] := by
  obtain ⟨front, parts, name, modified, _, hparts, _⟩ := h.leads
  rw [← hparts]
  simp

theorem Vacant.approaches (h : Vacant disk text directory path) :
    Approaches disk text directory path := by
  obtain ⟨front, parts, name, modified, hnames, hparts, hfront⟩ := h.leads
  have hname : name ≠ "." := (h.canonical name (by simp [← hparts])).notDot
  rw [← List.append_assoc] at hnames
  have hstart := HostPath.exists_starts_concat h.noSlash hnames hname
  refine ⟨h.checked, hstart, front, parts ++ [name], modified, ?_, ?_, hfront⟩
  . rw [hnames, List.append_assoc]
  . rw [List.filter_append, List.filter_cons_of_pos (by simpa using hname)]
    exact hparts

theorem Vacant.get?_eq_none (h : Vacant disk text directory path) (hdisk : disk.WellFormed)
    {front rest : StorePath} (hne : front ≠ []) (hpre : front <+: path ++ rest) :
    disk.nodes.get? (directory ++ front) = none := by
  obtain ⟨name, others, rfl⟩ := List.exists_cons_of_ne_nil hne
  obtain ⟨first, missing, rfl⟩ := List.exists_cons_of_ne_nil h.ne_nil
  rw [List.cons_append, List.cons_prefix_cons] at hpre
  rw [List.append_cons, hpre.1]
  exact hdisk.get?_below_none (h.absent first rfl) others

theorem Vacant.get?_below_eq_none (h : Vacant disk text directory path) (hdisk : disk.WellFormed)
    (rest : StorePath) :
    disk.nodes.get? (directory ++ path ++ rest) = none := by
  rw [List.append_assoc]
  exact h.get?_eq_none hdisk (by simp [h.ne_nil]) List.prefix_rfl

theorem Vacant.plain (h : Vacant disk text directory path) (hdisk : disk.WellFormed)
    (rest : StorePath) :
    disk.Plain (directory ++ path ++ rest) := by
  rw [List.append_assoc]
  apply plain_of_isDirectoryAt hdisk (h.approaches.isDirectoryAt hdisk)
  intro front target modified hne hpre
  rw [h.get?_eq_none hdisk hne hpre]
  simp

theorem Vacant.reaches (h : Vacant disk text directory path) (hdisk : disk.WellFormed) :
    Reaches disk text directory path := by
  refine ⟨h.approaches, h.ne_nil, h.canonical, h.short, ?_⟩
  have hplain := h.plain hdisk []
  rw [List.append_nil] at hplain
  exact hplain

theorem Vacant.takes (h : Vacant disk text directory path) (hdisk : disk.WellFormed)
    (tree : Contents) :
    (disk.contentsAt []).Takes (directory ++ path) tree := by
  have hnone : ∀ rest, disk.contentsAt [] (directory ++ path ++ rest) = none :=
    fun rest => contentsAt_eq_none_iff.mpr (h.get?_below_eq_none hdisk rest)
  refine ⟨?_, .inl ⟨?_, ?_⟩⟩
  . intro other hbelow
    obtain ⟨rest, rfl⟩ := hbelow.1
    exact hnone rest
  . have hroot := hnone []
    rw [List.append_nil] at hroot
    exact hroot
  . rintro ⟨above, data, hbelow, hcontent⟩
    obtain ⟨id, hnode, _⟩ := contentsAt_eq_file_iff.mp hcontent
    rw [List.nil_append] at hnode
    rcases prefix_or_prefix_of_append hbelow.1 with hpre | ⟨front, rfl⟩
    . obtain ⟨modified, hdirectory⟩ :=
        hdisk.directory_of_prefix (h.approaches.isDirectoryAt hdisk) hpre
      rw [hdirectory] at hnode
      cases hnode
    . by_cases hnil : front = []
      . obtain ⟨modified, hdirectory⟩ := h.approaches.isDirectoryAt hdisk
        rw [hnil, List.append_nil, hdirectory] at hnode
        cases hnode
      . have hfront := (below_append_iff.mp hbelow).1
        rw [h.get?_eq_none hdisk hnil (hfront.trans (List.prefix_append path []))] at hnode
        cases hnode

end LakeStore.Disk
