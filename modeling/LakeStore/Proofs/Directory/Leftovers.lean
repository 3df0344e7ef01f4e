import LakeStore.Proofs.Directory.Files
import LakeStore.Proofs.Host.Making

/-!
What a failed creation leaves on the host. A store that is a directory makes what is missing above
an entry first, so that directories stay behind when the host refuses a name further down. Otherwise
nothing is changed.
-/

namespace LakeStore

open StorePath

namespace Disk

variable {disk opened : Disk} {text : String} {ifExists : IfExists}

theorem openToCreate_error {error : HostError}
    (h : (openToCreate ifExists text).outcome disk = (.error error, opened)) :
    opened = disk ∧ ∀ location name,
      disk.findForFile (ifExists ≠ .fail) text ≠ .ok (.free location name) := by
  unfold openToCreate at h
  cases ifExists with
  | fail =>
    rw [if_pos rfl, openNew_outcome] at h
    simp only [ne_eq, not_true_eq_false, decide_false]
    split at h
    . cases h
    . next location node hfind =>
      cases h
      rw [hfind]
      simp
    . next hfind =>
      cases h
      rw [hfind]
      simp
  | overwrite =>
    rw [if_neg (by simp), openForWriting_outcome] at h
    simp only [ne_eq, reduceCtorEq, not_false_eq_true, decide_true]
    split at h
    . cases h
    . cases h
    . next location node _ hfind =>
      cases h
      rw [hfind]
      simp
    . next hfind =>
      cases h
      rw [hfind]
      simp

end Disk

namespace DirectoryClient

variable {client changed : DirectoryClient} {location : Location} {modified : Time}

/--
Whether a failed creation left nothing behind and there is nothing that it could have left behind,
or it left the directories that were made before the host refused a name.
-/
def Leaves (client changed : DirectoryClient) (directories path : StorePath) : Prop :=
  (changed = client ∧ ∀ front made place,
    ¬ client.disk.Strands client.base directories path front made place) ∨
    ∃ front made place, client.disk.Strands client.base directories path front made place ∧
      changed = { client with disk := client.disk.addDirectories place made }

section

variable (hdisk : client.disk.WellFormed)
  (hfind : client.disk.find client.base = .ok (.taken location (.directory modified)))

include hdisk hfind

theorem leaves_of_open {above : StorePath} {name : String} {ifExists : IfExists} {error : HostError}
    {made opened : Disk} (hpath : (above ++ [name]).Canonical)
    (hmakes : client.disk.Makes client.base above (.ok (), made))
    (hopen :
      (Disk.openToCreate ifExists (HostPath.below client.base (above ++ [name]))).outcome made =
        (.error error, opened)) :
    client.Leaves { client with disk := opened } above (above ++ [name]) := by
  obtain ⟨rfl, hfree⟩ := Disk.openToCreate_error hopen
  have hcanonical := canonical_append.mp hpath
  cases hmakes with
  | there hthere =>
    left
    refine ⟨rfl, ?_⟩
    intro front made place hstrands
    rw [hstrands.not_isDirectory_above hcanonical.1 hstrands.checked] at hthere
    cases hthere
  | @made front names place hsplit hmakeable hchecked =>
    right
    refine ⟨front, names, place, ⟨hmakeable, hchecked, name, [], ?_, ?_⟩, rfl⟩
    . rw [hsplit]
    . by_contra htaken
      rw [not_or, not_lt, not_and_not_right] at htaken
      have hname := htaken.2 rfl
      subst hsplit
      obtain ⟨hmade, time, hfound⟩ := hmakeable.find_addDirectories hdisk hcanonical.1 hchecked
      have hplace :
          (client.disk.addDirectories place names).findWith ⟨ifExists ≠ .fail, false, true⟩
            (HostPath.below client.base (front ++ names ++ [name])) =
              .ok (.free (place ++ names) name) := by
        rw [← HostPath.below_below] at hname ⊢
        rw [Disk.findWith_name hfound (canonical_singleton.mp hcanonical.2) hname _ rfl
          (hmade.empty name)]
        exact if_neg (not_lt.mpr htaken.1)
      apply hfree (place ++ names) name
      unfold Disk.findForFile
      rw [HostPath.endsInSlash_below (Disk.ne_empty_of_find hfind) hpath (by simp)]
      exact hplace

theorem leaves_of_createFile {path : String} {ifExists : IfExists} {error : ClientError}
    (h : (createFile path ifExists).outcome client = (.error error, changed)) :
    client.Leaves changed (ofString path).dropLast (ofString path) := by
  have hpath := ofString_canonical path
  rw [createFile_outcome] at h
  split at h
  . next hdirectory =>
    cases h
    left
    refine ⟨rfl, ?_⟩
    intro front made place hstrands
    unfold fullPath at hdirectory
    rw [hstrands.not_isDirectory hpath] at hdirectory
    cases hdirectory
  . next hdirectory =>
    unfold fullPath at h hdirectory
    have hne : ofString path ≠ [] := by
      intro hnil
      rw [hnil] at hdirectory
      exact hdirectory (Disk.isDirectory_of_find hfind)
    obtain ⟨above, name, hsplit⟩ := List.eq_nil_or_concat' (ofString path) |>.resolve_left hne
    rw [hsplit] at h hpath ⊢
    rw [List.dropLast_concat]
    have habove := canonical_append.mp hpath
    have hmakes :=
      Disk.makesAbove hdisk hfind hpath (Disk.makes_createDirectories hdisk hfind habove.1)
    have houtcome := hmakes.makes
    have hwhole := hmakes.whole
    rcases hparents :
      (Disk.createParents (HostPath.below client.base (above ++ [name]))).outcome client.disk with
      ⟨result, made⟩
    rw [hparents] at h houtcome hwhole
    cases result with
    | ok =>
      dsimp only at h
      split at h
      . next cause opened hopen =>
        cases h
        exact leaves_of_open hdisk hfind hpath houtcome hopen
      . cases h
    | error cause =>
      cases h
      cases houtcome with
      | refused hnot =>
        left
        refine ⟨rfl, ?_⟩
        intro front made place hstrands
        obtain heq | hstrands' := hstrands.above hstrands.checked
        . obtain ⟨new, hnew⟩ := hwhole front made place heq hstrands.makeable hstrands.checked
          cases hnew
        . exact hnot front made place hstrands'
      | stranded hstrands =>
        right
        exact ⟨_, _, _, hstrands.concat above hstrands.checked name, rfl⟩

theorem leaves_of_createDirectory {path : String}
    (h : (StoreClient.createDirectory path).outcome client = (.ok false, changed)) :
    client.Leaves changed (ofString path) (ofString path) := by
  have hmakes := Disk.makes_createDirectories hdisk hfind (ofString_canonical path)
  rw [createDirectory_outcome] at h
  unfold fullPath at h
  rcases houtcome :
    (Disk.createDirectories (HostPath.below client.base (ofString path))).outcome client.disk with
    ⟨result, made⟩
  rw [houtcome] at h hmakes
  cases hmakes with
  | there => cases h
  | made => cases h
  | refused hnot =>
    cases h
    exact .inl ⟨rfl, hnot⟩
  | stranded hstrands =>
    cases h
    exact .inr ⟨_, _, _, hstrands, rfl⟩

/--
What a failed creation leaves in a store on the host, whatever the disk holds below the root of the
store: nothing is changed, unless the host takes some missing names and refuses one behind them.
Then the directories that these names stand for are made, and stay.
-/
theorem failed_creation_leaves (path : String) :
    (∀ ifExists error changed,
      (StoreClient.createFile path ifExists).outcome client = (.error error, changed) →
      client.Leaves changed (ofString path).dropLast (ofString path)) ∧
    (∀ changed, (StoreClient.createDirectory path).outcome client = (.ok false, changed) →
      client.Leaves changed (ofString path) (ofString path)) := by
  constructor
  . intro ifExists error changed h
    exact leaves_of_createFile hdisk hfind h
  . intro changed h
    exact leaves_of_createDirectory hdisk hfind h

end

theorem failed_creation_leaves_directory :
    let made : ClientM DirectoryClient _ := StoreClient.createFile "a/\x00" .fail
    sample.Leaves (made.outcome sample).2 ["a"] ["a", "\x00"] ∧
      (made.outcome sample).2.disk.nodes.get? ["s", "a"] = some (.directory default) := by
  intro made
  have hfind : sample.disk.find sample.base = .ok (.taken ["s"] (.directory default)) := by decide
  have hfailed : made.outcome sample = (.error (.createRefused "a/\x00" .zeroInName),
      (made.outcome sample).2) := rfl
  have hpath : ofString "a/\x00" = ["a", "\x00"] := by decide
  have hleaves := (failed_creation_leaves sample_rooted.wellFormed hfind "a/\x00").1 _ _ _ hfailed
  rw [hpath] at hleaves
  exact ⟨hleaves, by decide⟩

end DirectoryClient

end LakeStore
