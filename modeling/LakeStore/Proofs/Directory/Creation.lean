import LakeStore.Proofs.Directory.Files
import LakeStore.Proofs.Host.Making

/-!
Where the entry is after a creation in a store on the host. Whatever links are on the way, the host
finds the path above the entry, and has an entry of the last name there.
-/

namespace LakeStore

open StorePath

namespace Disk

variable {disk old new : Disk} {base text : String} {path : StorePath} {name : String}

structure ComesTo (old new : Disk) (text : String) (last : LastName) (spot : Spot) : Prop where
  wellFormed : old.WellFormed
  grows : old.Grows new
  entry : last.directory = false
  found : old.findWith last text = .ok spot
  added : ∀ location name, spot = .free location name → new.nodes.get? (location ++ [name]) ≠ none

theorem ComesTo.exists_entry {last : LastName} {spot : Spot}
    (h : ComesTo old new (HostPath.below base (path ++ [name])) last spot) (hbase : base ≠ "")
    (hpath : (path ++ [name]).Canonical) :
    ∃ place modified,
      new.find (HostPath.below base path) = .ok (.taken place (.directory modified)) ∧
      new.nodes.get? (place ++ [name]) ≠ none := by
  obtain ⟨place, modified, hfind⟩ := exists_find_above h.wellFormed hbase hpath h.found
  refine ⟨place, modified, findWith_keeps h.grows.keeps h.grows.here hfind, ?_⟩
  cases hnode : old.nodes.get? (place ++ [name]) with
  | some node =>
    rw [h.grows.keeps _ _ hnode]
    simp
  | none =>
    -- Nothing has the name, not even a link that leads on, so that the spot is free.
    have hfound := h.found
    have hname := canonical_singleton.mp (canonical_append.mp hpath).2
    rw [← HostPath.below_below] at hfound
    rw [findWith_name hfind hname (checkText_of_findWith hfound) last h.entry hnode] at hfound
    split at hfound
    . cases hfound
    . cases hfound
      exact h.added place name rfl

theorem comesTo_openForWriting (h : disk.WellFormed) (hslash : HostPath.endsInSlash text = false)
    {id : Nat} (hopen : (openForWriting text).outcome disk = (.ok id, new)) :
    ∃ spot, ComesTo disk new text ⟨true, false, true⟩ spot := by
  have hgrows := openForWriting_grows h text
  rw [hopen] at hgrows
  rw [openForWriting_outcome, findForFile, hslash] at hopen
  split at hopen
  . next location name hfind =>
    cases hopen
    refine ⟨_, h, hgrows, rfl, hfind, ?_⟩
    intro other found hspot
    cases hspot
    have hnode :=
      PathMap.get?_insert_self disk.nodes (location ++ [name]) (Node.file disk.files.size)
    simp [addFile, addNode, hnode]
  . next hfind => exact ⟨_, h, hgrows, rfl, hfind, by simp⟩
  . cases hopen
  . cases hopen

theorem comesTo_createDirectory (h : disk.WellFormed)
    (hmade : (tryCatch (createDirectory text) (createDirectories.unlessThere text)).outcome disk =
      (.ok (), new)) :
    ∃ spot, ComesTo disk new text ⟨false, false, false⟩ spot := by
  rw [Step.outcome_tryCatch, createDirectory_outcome] at hmade
  split at hmade
  . next made hdone =>
    split at hdone
    . next location name hfind =>
      cases hdone
      cases hmade
      refine ⟨_, h, grows_addDirectory h (findWith_holds h hfind) disk.clock, rfl, hfind, ?_⟩
      intro other found hspot
      cases hspot
      have hnode :=
        PathMap.get?_insert_self disk.nodes (location ++ [name]) (Node.directory disk.clock)
      simp [addNode, hnode]
    . cases hdone
    . cases hdone
  . next error tried hrefused =>
    rw [unlessThere_outcome] at hmade
    split at hmade
    . next hdirectory =>
      have htried : tried = disk := by
        split at hrefused
        all_goals cases hrefused
        all_goals rfl
      subst htried
      cases hmade
      obtain ⟨_, entry, node, hfind⟩ := find_of_isDirectory hdirectory
      exact ⟨_, h, .refl h, rfl, hfind, by simp⟩
    . cases hmade

theorem comesTo_createDirectories (h : disk.WellFormed) (hne : text ≠ "")
    (hmade : (createDirectories text).outcome disk = (.ok (), new)) :
    ∃ made spot, ComesTo made new text ⟨false, false, false⟩ spot := by
  by_cases hmissing : disk.findPlace text = .error .notFound
  . -- Those above are made, and then the last one is tried again.
    unfold createDirectories createDirectories.go at hmade
    rw [if_neg hne, Step.outcome_tryCatch, createDirectory_outcome, hmissing] at hmade
    dsimp only at hmade
    rw [if_pos rfl] at hmade
    have hgrows := go_grows h (HostPath.parents text)
    cases habove : (createDirectories.go (HostPath.parents text)).outcome disk with
    | mk result made =>
      rw [habove] at hgrows
      cases result with
      | error error =>
        rw [Step.outcome_bind_error habove] at hmade
        cases hmade
      | ok =>
        rw [Step.outcome_bind_ok habove] at hmade
        exact ⟨made, comesTo_createDirectory hgrows.wellFormed hmade⟩
  . refine ⟨disk, comesTo_createDirectory h ?_⟩
    rw [← hmade]
    unfold createDirectories createDirectories.go
    rw [if_neg hne, Step.outcome_tryCatch, Step.outcome_tryCatch, createDirectory_outcome]
    cases hplace : disk.findPlace text with
    | ok spot => cases spot <;> rfl
    | error error =>
      have herror : error ≠ .notFound := by
        rintro rfl
        exact hmissing hplace
      dsimp only
      rw [if_neg herror]

end Disk

namespace DirectoryClient

variable {client made : DirectoryClient} {directory : StorePath} {name : String}

structure HasEntry (client : DirectoryClient) (directory : StorePath) (name : String) : Prop where
  wellFormed : client.disk.WellFormed
  entry : ∃ place modified,
    client.disk.find (HostPath.below client.base directory) =
      .ok (.taken place (.directory modified)) ∧
      client.disk.nodes.get? (place ++ [name]) ≠ none

section

variable (h : client.disk.WellFormed) (hbase : client.base ≠ "") {path : String}
  (hpath : ofString path = directory ++ [name])

include h hbase hpath

theorem hasEntry_of_createFile {handle : Handle}
    (hcreate : (StoreClient.createFile path .overwrite).outcome client = (.ok handle, made)) :
    made.HasEntry directory name := by
  have hcanonical := ofString_canonical path
  have hparents := Disk.createParents_grows h (client.fullPath path)
  change (createFile path .overwrite).outcome client = _ at hcreate
  rw [createFile_outcome] at hcreate
  unfold fullPath at hcreate hparents
  rw [hpath] at hcanonical hcreate hparents
  split at hcreate
  . cases hcreate
  . split at hcreate
    . cases hcreate
    . next parents hmade =>
      rw [hmade] at hparents
      split at hcreate
      . cases hcreate
      . next id opened hopen =>
        cases hcreate
        have hslash := HostPath.endsInSlash_below hbase hcanonical (by simp)
        obtain ⟨spot, hcomes⟩ := Disk.comesTo_openForWriting hparents.wellFormed hslash hopen
        exact ⟨hcomes.grows.wellFormed, hcomes.exists_entry hbase hcanonical⟩

theorem hasEntry_of_createDirectory
    (hcreate : (StoreClient.createDirectory path).outcome client = (.ok true, made)) :
    made.HasEntry directory name := by
  have hcanonical := ofString_canonical path
  rw [createDirectory_outcome] at hcreate
  unfold fullPath at hcreate
  rw [hpath] at hcanonical hcreate
  cases hdone :
      (Disk.createDirectories (HostPath.below client.base (directory ++ [name]))).outcome
        client.disk with
  | mk result new =>
    rw [hdone] at hcreate
    cases result with
    | error error => cases hcreate
    | ok =>
      cases hcreate
      obtain ⟨old, spot, hcomes⟩ :=
        Disk.comesTo_createDirectories h (HostPath.below_ne_empty hbase hcanonical) hdone
      exact ⟨hcomes.grows.wellFormed, hcomes.exists_entry hbase hcanonical⟩

end

end DirectoryClient

end LakeStore
