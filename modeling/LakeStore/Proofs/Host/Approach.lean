import LakeStore.Proofs.Host.Region
import LakeStore.Proofs.Host.Growth
import LakeStore.Proofs.Path.Starts

/-!
A host path leads to a directory and goes on from there by names, whatever links, slashes and dot
segments lead up to the directory.
-/

namespace LakeStore.Disk

open StorePath

variable {disk : Disk} {text : String} {directory : Location} {name : String}

theorem follow_directories (h : disk.WellFormed)
    {expand : Location → String → List String → LastName → Except HostError Spot} {last : LastName}
    {parts rest : List String} (hpath : Canonical (parts.filter (· ≠ ".")))
    (hshort : Short (parts.filter (· ≠ "."))) (hlast : last.directory = false)
    (hdirectory : disk.IsDirectoryAt (directory ++ parts.filter (· ≠ "."))) :
    disk.follow expand last directory (parts ++ rest) =
      disk.follow expand last (directory ++ parts.filter (· ≠ ".")) rest := by
  induction parts generalizing directory with
  | nil => simp
  | cons part parts ih =>
    rw [List.cons_append]
    by_cases hdot : part = "."
    . subst hdot
      rw [List.filter_cons_of_neg (by simp)] at hpath hshort hdirectory ⊢
      rw [follow_dot]
      exact ih hpath hshort hdirectory
    . rw [List.filter_cons_of_pos (by simpa using hdot)] at hpath hshort hdirectory ⊢
      have hthrough : disk.follow expand last directory ([part] ++ (parts ++ rest)) =
          disk.follow expand last (directory ++ [part]) (parts ++ rest) := by
        apply follow_through h _ _ hlast
        . rw [List.append_cons] at hdirectory
          by_cases hnil : parts.filter (· ≠ ".") = []
          . rw [hnil, List.append_nil] at hdirectory
            exact hdirectory
          . obtain ⟨modified, hnode⟩ := hdirectory
            exact h.above hnode (below_append hnil)
        . exact canonical_singleton.mpr (canonical_cons.mp hpath).1
        . intro other hother
          exact hshort other (by simp [List.mem_singleton.mp hother])
      rw [List.singleton_append] at hthrough
      rw [List.append_cons] at hdirectory ⊢
      rw [hthrough]
      exact ih (canonical_cons.mp hpath).2 (fun other hother =>
        hshort other (.tail _ hother)) hdirectory

structure Approaches (disk : Disk) (text : String) (directory : Location) (path : StorePath) :
    Prop where
  checked : checkText text = .ok ()
  start : ∃ above, HostPath.starts text = above ++ [text]
  leads : ∃ front parts modified, names text = front ++ parts ∧ parts.filter (· ≠ ".") = path ∧
    disk.followLinks maxLinks ⟨true, false, false⟩ (disk.start text) front =
      .ok (.taken directory (.directory modified))

variable {path : StorePath}

theorem start_of_leads {top : String} (h : HostPath.Leads top text) :
    disk.start top = disk.start text := by
  unfold Disk.start
  rw [h.isAbsolute_eq]

theorem filter_dots_eq_nil_iff {parts : List String} : parts.filter (· ≠ ".") = [] ↔ ∀ part ∈ parts,
      part = "." := by
  simp

theorem Approaches.init (h : Approaches disk text directory (path ++ [name])) (hne : path ≠ []) :
    ∃ above top,
      HostPath.starts text = above ++ [top, text] ∧ Approaches disk top directory path := by
  obtain ⟨above, hstart⟩ := h.start
  obtain ⟨front, parts, modified, hnames, hparts, hfront⟩ := h.leads
  obtain ⟨init, last, rfl, hlast⟩ :=
    HostPath.exists_concat_of_starts hstart hnames (by rw [hparts]; simp)
  have hinit : init.filter (· ≠ ".") = path := by
    rw [List.filter_append, List.filter_cons_of_pos (by simpa using hlast)] at hparts
    exact List.append_inj_left' hparts rfl
  cases above using List.reverseRecOn with
  | nil =>
    have hlength := HostPath.length_names_of_starts hstart
    have hinitNe : init ≠ [] := by
      rintro rfl
      exact hne hinit.symm
    have hpos := List.length_pos_iff.mpr hinitNe
    rw [hnames, List.length_append, List.length_append, List.length_singleton] at hlength
    omega
  | append_singleton above top =>
    rw [List.append_assoc] at hstart
    have hleads := HostPath.leads_of_starts hstart
    obtain ⟨dots, found, hfound, hdots, _⟩ := hleads.nextName
    obtain ⟨rest, htext⟩ := hleads.longer
    have hchecked := h.checked
    rw [htext] at hchecked
    refine ⟨above, top, hstart, checkText_of_append hchecked hleads.nonempty,
      ⟨above, HostPath.starts_of_mem hstart⟩, ?_⟩
    rw [hnames, ← List.append_assoc, ← List.append_assoc] at hfound
    have heq := List.append_inj_left' hfound rfl
    have hdotsNil := filter_dots_eq_nil_iff.mpr hdots
    rw [List.append_eq_append_iff] at heq
    rcases heq with ⟨between, htop, hinitEq⟩ | ⟨between, _, hdotsEq⟩
    . refine ⟨front, between, modified, htop, ?_, ?_⟩
      . rw [← hinit, hinitEq, List.filter_append, hdotsNil, List.append_nil]
      . rw [start_of_leads hleads]
        exact hfront
    . -- All the names behind the directory would be `.`.
      rw [hdotsEq, List.filter_append, List.append_eq_nil_iff] at hdotsNil
      rw [hdotsNil.2] at hinit
      exact absurd hinit.symm hne

theorem Approaches.of_keeps (h : Approaches disk text directory path) {new : Disk}
    (hkeeps : disk.Keeps new) (hhere : new.here = disk.here) :
    Approaches new text directory path := by
  obtain ⟨front, parts, modified, hnames, hparts, hfront⟩ := h.leads
  refine ⟨h.checked, h.start, front, parts, modified, hnames, hparts, ?_⟩
  have hstart : new.start text = disk.start text := by
    unfold Disk.start
    rw [hhere]
  rw [hstart]
  exact followLinks_keeps hkeeps hfront

theorem Approaches.findWith (h : Approaches disk text directory path) (hne : path ≠ [])
    (last : LastName) :
    ∃ expand parts name, parts.filter (· ≠ ".") ++ [name] = path ∧
      disk.findWith last text = disk.follow expand last directory (parts ++ [name]) := by
  obtain ⟨above, hstart⟩ := h.start
  obtain ⟨front, parts, modified, hnames, hparts, hfront⟩ := h.leads
  obtain ⟨init, name, rfl, hname⟩ :=
    HostPath.exists_concat_of_starts hstart hnames (by rw [hparts]; exact hne)
  obtain ⟨expand, hfollow⟩ := followLinks_append (by simp : init ++ [name] ≠ []) hfront last
  refine ⟨expand, init, name, ?_, ?_⟩
  . rw [← hparts, List.filter_append, List.filter_cons_of_pos (by simpa using hname)]
    rfl
  . unfold Disk.findWith
    rw [h.checked, hnames]
    exact hfollow

theorem areParts_of_names {front parts : List String} (hnames : names text = front ++ parts) :
    AreParts front := by
  intro part hpart
  apply areParts_names text
  rw [hnames]
  exact List.mem_append_left _ hpart

theorem Approaches.isDirectoryAt (h : Approaches disk text directory path)
    (hdisk : disk.WellFormed) :
    disk.IsDirectoryAt directory := by
  obtain ⟨front, parts, modified, hnames, _, hfront⟩ := h.leads
  exact ⟨modified, followLinks_holds hdisk (hdisk.start text) (areParts_of_names hnames) hfront⟩

section lookup

variable {last : LastName}

theorem Approaches.findWith_concat (h : Approaches disk text directory (path ++ [name]))
    (hdisk : disk.WellFormed) (hpath : (path ++ [name]).Canonical) (hshort : Short (path ++ [name]))
    (hlast : last.directory = false) (hdirectory : disk.IsDirectoryAt (directory ++ path)) :
    ∃ expand, disk.findWith last text = disk.follow expand last (directory ++ path) [name] := by
  obtain ⟨expand, parts, found, hparts, hfind⟩ := h.findWith (by simp) last
  have hinit := List.append_inj_left' hparts rfl
  have hname := List.append_inj_right' hparts rfl
  rw [List.singleton_inj] at hname
  rw [canonical_append] at hpath
  refine ⟨expand, ?_⟩
  rw [hfind, hname, ← hinit]
  rw [← hinit] at hpath hdirectory
  apply follow_directories hdisk hpath.1 _ hlast hdirectory
  intro other hother
  rw [hinit] at hother
  exact hshort other (List.mem_append_left _ hother)

theorem Approaches.findWith_of_get? (h : Approaches disk text directory (path ++ [name]))
    (hdisk : disk.WellFormed) (hpath : (path ++ [name]).Canonical) (hshort : Short (path ++ [name]))
    (hlast : last.directory = false) {node : Node}
    (hlink : ∀ target modified, node ≠ .link target modified)
    (hnode : disk.nodes.get? (directory ++ path ++ [name]) = some node) :
    disk.findWith last text = .ok (.taken (directory ++ path ++ [name]) node) := by
  obtain ⟨expand, hfind⟩ := h.findWith_concat hdisk hpath hshort hlast (hdisk.parent _ _ _ hnode)
  rw [canonical_append, canonical_singleton] at hpath
  rw [hfind, follow_isName hpath.2 (hshort name (by simp)) hlast, hnode]
  cases node with
  | directory modified => exact follow_nil_of_get? hnode
  | file id => rfl
  | link target modified => exact absurd rfl (hlink target modified)

end lookup

theorem Approaches.createParents_there (h : Approaches disk text directory [name])
    (hdisk : disk.WellFormed) :
    (createParents text).outcome disk = (.ok (), disk) := by
  obtain ⟨above, hstart⟩ := h.start
  obtain ⟨front, parts, modified, hnames, hparts, hfront⟩ := h.leads
  cases above using List.reverseRecOn with
  | nil =>
    have hne : names text ≠ [] := by
      intro hnil
      rw [hnames, List.append_eq_nil_iff] at hnil
      rw [hnil.2] at hparts
      cases hparts
    rw [createParents_of_parents (HostPath.parents_of_single hstart hne)]
    rfl
  | append_singleton above top =>
    rw [List.append_assoc] at hstart
    have hleads := HostPath.leads_of_starts hstart
    obtain ⟨dots, found, hfound, hdots, _⟩ := hleads.nextName
    obtain ⟨rest, htext⟩ := hleads.longer
    have hchecked := h.checked
    rw [htext] at hchecked
    obtain ⟨init, last, rfl, hlast⟩ :=
      HostPath.exists_concat_of_starts (h.start.choose_spec) hnames (by rw [hparts]; simp)
    have hinit : ∀ part ∈ init, part = "." := by
      rw [List.filter_append, List.filter_cons_of_pos (by simpa using hlast)] at hparts
      exact filter_dots_eq_nil_iff.mp
        (List.append_inj_left' (hparts.trans (List.nil_append _).symm) rfl)
    -- The path above goes as far as all names but the last, perhaps without `.` at the end.
    have hnode := followLinks_holds hdisk (hdisk.start text) (areParts_of_names hnames) hfront
    have hfollow := followLinks_append_dots hinit hfront hnode
    rw [hnames, ← List.append_assoc, ← List.append_assoc] at hfound
    rw [List.append_inj_left' hfound rfl, ← start_of_leads hleads] at hfollow
    obtain ⟨hfind, entry, node, hplace⟩ :=
      find_of_followLinks (checkText_of_append hchecked hleads.nonempty) hdots hfollow
    have hdirectory : disk.isDirectory top := isDirectory_of_find hfind
    rw [createParents_of_parents (HostPath.parents_of_leads hstart)]
    exact (go_of_taken hleads.nonempty hplace).trans (if_pos hdirectory)

end LakeStore.Disk
