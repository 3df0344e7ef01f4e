import LakeStore.Proofs.Host.Arrival
import LakeStore.Proofs.Host.Making

/-!
A host path may lead through names that are missing, and back from them with `..`. It leads nowhere
before the directories above it are made. What brings entries there makes these first, so that it
does the same as on a disk that has them already.
-/

namespace LakeStore.Disk

open StorePath

variable {disk made : Disk} {text : String} {directory place : Location} {path : StorePath}
  {name : String}

/--
Whether a host path leads through a missing name, and is vacant once the directories above it are
made.
-/
structure Detours (disk : Disk) (text : String) (made : Disk) (directory : Location)
    (name : String) : Prop where
  missing : disk.findPlace text = .error .notFound
  parents : (createParents text).outcome disk = (.ok (), made)
  vacant : made.Vacant text directory [name]

/--
Whether nothing is at the place that a host path names, when the directories that lead there are on
the disk. A vacant path needs none.
-/
inductive Awaits (disk : Disk) (text : String) : (made : Disk) → (place : Location) → Prop where
  | vacant {directory : Location} {path : StorePath} (h : disk.Vacant text directory path) :
    Awaits disk text disk (directory ++ path)
  | detour {made : Disk} {directory : Location} {name : String}
    (h : disk.Detours text made directory name) :
    Awaits disk text made (directory ++ [name])

theorem createDirectories_congr {top : String} (hne : text ≠ "")
    (hparents : HostPath.parents text = top :: HostPath.parents top)
    (hmissing : disk.findPlace text = .error .notFound)
    (hmadeMissing : made.findPlace text = .error .notFound)
    (hsame : (createParents text).outcome disk = (createParents text).outcome made) :
    (createDirectories text).outcome disk = (createDirectories text).outcome made := by
  rw [createDirectories_of_missing hne hmissing hparents,
    createDirectories_of_missing hne hmadeMissing hparents,
    Step.outcome_bind, Step.outcome_bind, hsame]

namespace Detours

theorem wellFormed (h : disk.Detours text made directory name) (hdisk : disk.WellFormed) :
    made.WellFormed := by
  have hgrows := createParents_grows hdisk text
  rw [h.parents] at hgrows
  exact hgrows.wellFormed

theorem grows (h : disk.Detours text made directory name) (hdisk : disk.WellFormed) :
    disk.Grows made := by
  have hgrows := createParents_grows hdisk text
  rw [h.parents] at hgrows
  exact hgrows

theorem text_ne_empty (h : disk.Detours text made directory name) : text ≠ "" :=
  (checkText_eq_ok_iff.mp h.vacant.checked).2.1

theorem exists_parents (h : disk.Detours text made directory name) :
    ∃ top, HostPath.parents text = top :: HostPath.parents top := by
  obtain ⟨above, hstarts⟩ := h.vacant.approaches.start
  obtain ⟨front, parts, last, _, hnames, _⟩ := h.vacant.leads
  cases above using List.reverseRecOn with
  | nil => exact ⟨"", HostPath.parents_of_single hstarts (by simp [hnames])⟩
  | append_singleton above top =>
    rw [List.append_assoc] at hstarts
    exact ⟨top, HostPath.parents_of_leads hstarts⟩

theorem parents_made (h : disk.Detours text made directory name) (hdisk : disk.WellFormed) :
    (createParents text).outcome made = (.ok (), made) :=
  h.vacant.approaches.createParents_there (h.wellFormed hdisk)

theorem findPlace_made (h : disk.Detours text made directory name) (hdisk : disk.WellFormed) :
    made.findPlace text = .ok (.free directory name) := by
  have hmade := h.wellFormed hdisk
  have hdirectory := h.vacant.approaches.isDirectoryAt hmade
  have hnone := h.vacant.absent name rfl
  rw [← List.append_nil directory] at hdirectory hnone
  have hreaches : made.Reaches text directory ([] ++ [name]) := h.vacant.reaches hmade
  have hfree : made.findPlace text = .ok (.free (directory ++ []) name) :=
    hreaches.findWith_missing hmade rfl hdirectory hnone
  rw [List.append_nil] at hfree
  exact hfree

variable {rest : StorePath}

theorem findPlace_below (h : disk.Detours text made directory name) (hdisk : disk.WellFormed)
    (hrest : rest.Canonical) (hchecked : checkText (HostPath.below text rest) = .ok ()) :
    disk.findPlace (HostPath.below text rest) = .error .notFound := by
  have hmissing := h.missing
  unfold findPlace findWith at hmissing ⊢
  rw [h.vacant.checked] at hmissing
  rw [hchecked, start_below h.text_ne_empty hrest, HostPath.names_below h.text_ne_empty hrest]
  exact followLinks_missing hdisk (hdisk.start text) hmissing

theorem findPlace_made_below (h : disk.Detours text made directory name) (hdisk : disk.WellFormed)
    (hrest : rest.Canonical) (hne : rest ≠ []) (hshort : Short rest)
    (hchecked : checkText (HostPath.below text rest) = .ok ()) :
    made.findPlace (HostPath.below text rest) = .error .notFound := by
  have hmade := h.wellFormed hdisk
  have hplain := h.vacant.plain hmade rest
  rw [List.append_assoc] at hplain
  have hreaches := (h.vacant.reaches hmade).below hrest hshort hchecked hplain
  have hdirectory := h.vacant.approaches.isDirectoryAt hmade
  have hnone := h.vacant.absent name rfl
  rw [← List.append_nil directory] at hdirectory hnone
  exact (hreaches.findWith_missing hmade rfl hdirectory hnone).trans (if_neg hne)

theorem createParents_concat (h : disk.Detours text made directory name) {last : String}
    (hrest : (rest ++ [last]).Canonical) :
    (∃ top, HostPath.parents (HostPath.below text (rest ++ [last])) = top :: HostPath.parents top) ∧
      createParents (HostPath.below text (rest ++ [last])) =
        createDirectories (HostPath.below text rest) := by
  by_cases hnil : rest = []
  . subst hnil
    obtain ⟨above, hstarts⟩ := h.vacant.approaches.start
    have hleads := HostPath.starts_join h.text_ne_empty (canonical_singleton.mp hrest)
    rw [hstarts, List.append_assoc] at hleads
    have hparents := HostPath.parents_of_leads hleads
    exact ⟨⟨text, hparents⟩, createParents_of_parents hparents⟩
  . obtain ⟨hparents, hsame⟩ := Disk.createParents_concat h.text_ne_empty hrest hnil
    exact ⟨⟨_, hparents⟩, hsame⟩

theorem createDirectories_below (h : disk.Detours text made directory name)
    (hdisk : disk.WellFormed) (hrest : rest.Canonical) (hshort : Short rest)
    (hchecked : checkText (HostPath.below text rest) = .ok ()) :
    (createDirectories (HostPath.below text rest)).outcome disk =
      (createDirectories (HostPath.below text rest)).outcome made := by
  induction rest using List.reverseRecOn with
  | nil =>
    obtain ⟨top, hparents⟩ := h.exists_parents
    have hfree := h.findPlace_made hdisk
    change (createDirectories text).outcome disk = (createDirectories text).outcome made
    rw [createDirectories_of_missing h.text_ne_empty h.missing hparents,
      Step.outcome_bind_ok h.parents, Step.outcome_tryCatch, createDirectory_outcome, hfree]
    exact (go_of_free h.text_ne_empty hfree).symm
  | append_singleton rest last ih =>
    obtain ⟨⟨top, hparents⟩, hcreate⟩ := h.createParents_concat hrest
    have hsame := ih (canonical_append.mp hrest).1 (fun other hother =>
      hshort other (List.mem_append_left _ hother))
      (checkText_below_of_concat h.text_ne_empty hrest hchecked)
    apply createDirectories_congr (HostPath.below_ne_empty h.text_ne_empty hrest) hparents
    . exact h.findPlace_below hdisk hrest hchecked
    . exact h.findPlace_made_below hdisk hrest (by simp) hshort hchecked
    . rw [hcreate]
      exact hsame

theorem createParents_below (h : disk.Detours text made directory name) (hdisk : disk.WellFormed)
    (hrest : rest.Canonical) (hshort : Short rest)
    (hchecked : checkText (HostPath.below text rest) = .ok ()) :
    (createParents (HostPath.below text rest)).outcome disk =
      (createParents (HostPath.below text rest)).outcome made := by
  cases rest using List.reverseRecOn with
  | nil => exact h.parents.trans (h.parents_made hdisk).symm
  | append_singleton rest last =>
    rw [(h.createParents_concat hrest).2]
    apply h.createDirectories_below hdisk (canonical_append.mp hrest).1
    . exact fun other hother => hshort other (List.mem_append_left _ hother)
    . exact checkText_below_of_concat h.text_ne_empty hrest hchecked

end Detours

theorem Awaits.grows (h : disk.Awaits text made place) (hdisk : disk.WellFormed) :
    disk.Grows made := by
  cases h with
  | vacant h => exact .refl hdisk
  | detour h => exact h.grows hdisk

theorem Awaits.exists_vacant (h : disk.Awaits text made place) :
    ∃ directory path, place = directory ++ path ∧ made.Vacant text directory path := by
  cases h with
  | vacant h => exact ⟨_, _, rfl, h⟩
  | detour h => exact ⟨_, _, rfl, h.vacant⟩

theorem Awaits.takes (h : disk.Awaits text made place) (hdisk : disk.WellFormed) (tree : Contents) :
    (made.contentsAt []).Takes place tree := by
  obtain ⟨directory, path, rfl, hvacant⟩ := h.exists_vacant
  exact hvacant.takes (h.grows hdisk).wellFormed tree

theorem Awaits.canPutDirectory (h : disk.Awaits text made place) (hdisk : disk.WellFormed) :
    (made.contentsAt []).CanPutDirectory place :=
  (h.takes hdisk fun _ => none).canPutDirectory (isTree_contentsAt (h.grows hdisk).wellFormed [])

theorem Awaits.contents_eq_none (h : disk.Awaits text made place) (hdisk : disk.WellFormed) :
    made.contentsAt [] place = none := by
  obtain ⟨directory, path, rfl, hvacant⟩ := h.exists_vacant
  have hnone := hvacant.get?_below_eq_none (h.grows hdisk).wellFormed []
  rw [List.append_nil] at hnone
  exact contentsAt_eq_none_iff.mpr hnone

end LakeStore.Disk
