import LakeStore.DirectoryClient
import LakeStore.Proofs.Host.Arrival
import LakeStore.Proofs.Host.Removal
import LakeStore.Proofs.Host.Walk

/-!
A client of a directory looks at the host paths of its entries. The root of the store has to be
there, and must not be reached through the store itself, so that no change to the store leads its
path astray.
-/

namespace LakeStore.DirectoryClient

open StorePath

structure Rooted (account : String) (location : Location) (client : DirectoryClient) : Prop where
  account : client.account = account
  wellFormed : client.disk.WellFormed
  outside : ¬ Below location client.disk.here
  base : ∃ modified,
    (client.disk.cleared location).find client.base = .ok (.taken location (.directory modified))
  noLink : ∀ path target modified,
    client.disk.nodes.get? (location ++ path) ≠ some (.link target modified)

variable {client : DirectoryClient} {account : String} {location : Location} {path : StorePath}

theorem rooted_of_empty (h : client.disk.WellFormed) {modified : Time}
    (hfind : client.disk.find client.base = .ok (.taken location (.directory modified)))
    (hempty : client.disk.nodes.below location = []) : client.Rooted client.account location := by
  -- Nothing is below the location, so that no lookup leads through there.
  have hnone : ∀ other node, client.disk.nodes.get? other = some node → ¬ Below location other := by
    intro other node hnode hbelow
    have hmem := (PathMap.mem_below_iff client.disk.nodes location other node).mpr ⟨hbelow, hnode⟩
    rw [hempty] at hmem
    cases hmem
  refine ⟨rfl, h, ?_, ?_, ?_⟩
  . obtain ⟨time, hhere⟩ := h.here
    exact hnone client.disk.here _ hhere
  . refine ⟨modified, ?_⟩
    have hkeeps : client.disk.Keeps (client.disk.cleared location) := by
      intro other node hnode
      unfold Disk.cleared
      rw [Disk.get?_filter, if_pos (by simpa using hnone other node hnode)]
      exact hnode
    exact Disk.findWith_keeps hkeeps rfl hfind
  . intro path target time hlink
    by_cases hpath : path = []
    . rw [hpath, List.append_nil] at hlink
      have hroot : client.disk.nodes.get? location = some (.directory modified) :=
        Disk.findWith_holds h hfind
      rw [hroot] at hlink
      cases hlink
    . exact hnone _ _ hlink (below_append hpath)

theorem Rooted.find_base (h : client.Rooted account location) :
    ∃ modified, client.disk.find client.base = .ok (.taken location (.directory modified)) := by
  obtain ⟨modified, hfind⟩ := h.base
  have hkeeps := Disk.filter_keeps client.disk fun other => ¬ Below location other
  exact ⟨modified, Disk.findWith_keeps hkeeps rfl hfind⟩

theorem Rooted.isRegion (h : client.Rooted account location) : client.disk.IsRegion location := by
  obtain ⟨modified, hfind⟩ := h.find_base
  have hroot := Disk.findWith_holds h.wellFormed hfind
  exact ⟨h.wellFormed, ⟨modified, hroot⟩, h.noLink⟩

theorem Rooted.contents_wellFormed (h : client.Rooted account location) :
    (client.disk.contentsAt location).WellFormed :=
  h.isRegion.contents_wellFormed

theorem Rooted.checkText_base (h : client.Rooted account location) :
    Disk.checkText client.base = .ok () := by
  obtain ⟨modified, hfind⟩ := h.find_base
  exact Disk.checkText_of_findWith hfind

theorem Rooted.base_ne_empty (h : client.Rooted account location) : client.base ≠ "" :=
  (Disk.checkText_eq_ok_iff.mp h.checkText_base).2.1

theorem Rooted.findWith_below (h : client.Rooted account location) (hpath : path.Canonical)
    (hne : path ≠ []) (hcheck : Disk.checkText (HostPath.below client.base path) = .ok ())
    (last : Disk.LastName) :
    ∃ expand, client.disk.findWith last (HostPath.below client.base path) =
      client.disk.follow expand last location path := by
  obtain ⟨modified, hfind⟩ := h.find_base
  exact Disk.findWith_below hfind hpath hne hcheck last

theorem zero_notMem_below {base : String} (hbase : '\x00' ∉ base.toList)
    (hpath : ∀ name ∈ path, '\x00' ∉ name.toList) : '\x00' ∉ (HostPath.below base path).toList := by
  induction path using List.reverseRecOn with
  | nil => exact hbase
  | append_singleton path name ih =>
    have hname := hpath name (by simp)
    have hfront := ih fun other hother => hpath other (by simp [hother])
    rw [HostPath.below_concat]
    unfold HostPath.join
    split
    . exact hname
    . split
      . simp [hfront, hname]
      . simp [hfront, hname]

theorem Rooted.checkText_below (h : client.Rooted account location) (hpath : path.Canonical)
    (hzero : ∀ name ∈ path, '\x00' ∉ name.toList) :
    Disk.checkText (HostPath.below client.base path) =
      if Disk.maxPath ≤ (HostPath.below client.base path).utf8ByteSize then .error .nameTooLong
      else .ok () := by
  have hbaseZero : '\x00' ∉ client.base.toList := by
    intro hmem
    have hcheck := h.checkText_base
    unfold Disk.checkText at hcheck
    rw [if_pos hmem] at hcheck
    cases hcheck
  unfold Disk.checkText
  rw [if_neg (zero_notMem_below hbaseZero hzero),
    if_neg (HostPath.below_ne_empty h.base_ne_empty hpath)]

/-- Whether the host takes the names of a path, and its whole text below the root of the store. -/
structure Accepts (base : String) (path : StorePath) : Prop where
  short : Disk.Short path
  checked : Disk.checkText (HostPath.below base path) = .ok ()

structure HasHostNames (path : StorePath) : Prop where
  short : Disk.Short path
  noZero : ∀ name ∈ path, '\x00' ∉ name.toList

/--
The names of a path are taken by the host, and so is its whole text below the root of the store.
-/
structure HasHostPath (base : String) (path : StorePath) : Prop extends HasHostNames path where
  fits : (HostPath.below base path).utf8ByteSize < Disk.maxPath

theorem Rooted.accepts (h : client.Rooted account location) (hpath : path.Canonical)
    (hhost : HasHostPath client.base path) : Accepts client.base path := by
  refine ⟨hhost.short, ?_⟩
  rw [h.checkText_below hpath hhost.noZero, if_neg (Nat.not_le.mpr hhost.fits)]

theorem Rooted.plain (h : client.Rooted account location) (path : StorePath) :
    client.disk.Plain (location ++ path) := by
  apply Disk.plain_of_isDirectoryAt h.wellFormed h.isRegion.root
  exact fun front target modified _ _ => h.noLink front target modified

theorem Rooted.above_directory (h : client.Rooted account location) (above : Location)
    (hpre : above <+: location) :
    client.disk.contentsAt [] above = some .directory := by
  rw [Disk.contentsAt_eq_directory_iff]
  exact h.wellFormed.directory_of_prefix h.isRegion.root hpre

theorem Rooted.reaches (h : client.Rooted account location) (hpath : path.Canonical)
    (hne : path ≠ []) (haccepts : Accepts client.base path) :
    client.disk.Reaches (HostPath.below client.base path) location path := by
  obtain ⟨modified, hfind⟩ := h.find_base
  exact Disk.reaches_below hfind hpath hne haccepts.short haccepts.checked (h.plain path)

theorem Rooted.arrives (h : client.Rooted account location) (hpath : path.Canonical)
    (haccepts : Accepts client.base path) :
    client.disk.Arrives (HostPath.below client.base path) (location ++ path) := by
  obtain ⟨modified, hfind⟩ := h.find_base
  exact (Disk.Arrives.here hfind).below hpath haccepts.short haccepts.checked (h.plain path)

section lookup

variable {last : Disk.LastName} {front rest : StorePath} {name : String}

theorem Rooted.findWith_of_get? (h : client.Rooted account location) (hpath : path.Canonical)
    (hne : path ≠ []) (haccepts : Accepts client.base path) (hlast : last.directory = false)
    {node : Disk.Node} (hnode : client.disk.nodes.get? (location ++ path) = some node) :
    client.disk.findWith last (HostPath.below client.base path) =
      .ok (.taken (location ++ path) node) :=
  (h.reaches hpath hne haccepts).findWith_of_get? h.wellFormed hlast hnode

theorem Rooted.findWith_missing (h : client.Rooted account location)
    (hpath : (front ++ name :: rest).Canonical)
    (haccepts : Accepts client.base (front ++ name :: rest)) (hlast : last.directory = false)
    (hdirectory : client.disk.contentsAt location front = some .directory)
    (hnone : client.disk.contentsAt location (front ++ [name]) = none) :
    client.disk.findWith last (HostPath.below client.base (front ++ name :: rest)) =
      if rest = [] then .ok (.free (location ++ front) name) else .error .notFound := by
  rw [Disk.contentsAt_eq_directory_iff] at hdirectory
  rw [Disk.contentsAt_eq_none_iff, ← List.append_assoc] at hnone
  exact (h.reaches hpath (by simp) haccepts).findWith_missing h.wellFormed hlast hdirectory hnone

theorem Rooted.findWith_below_file (h : client.Rooted account location) (hpath : path.Canonical)
    (haccepts : Accepts client.base path) (hlast : last.directory = false)
    (hfile : (client.disk.contentsAt location).FileAbove path) :
    client.disk.findWith last (HostPath.below client.base path) = .error .notDirectory := by
  have hne : path ≠ [] := by
    rintro rfl
    obtain ⟨above, _, hbelow, _⟩ := hfile
    exact not_below_nil above hbelow
  apply (h.reaches hpath hne haccepts).findWith_below_file h.wellFormed hlast
  exact (Contents.fileAbove_under_iff h.above_directory).mpr hfile

theorem findWith_of_checkText {full : String} {error : HostError}
    (h : Disk.checkText full = .error error) (disk : Disk) :
    disk.findWith last full = .error error := by
  unfold Disk.findWith
  rw [h]
  rfl

end lookup

def described (client : DirectoryClient) (full : String) : Except ClientError (Option Metadata) :=
  match client.disk.metadata full with
  | .ok found => .ok (some found)
  | .error .notFound => .ok none
  | .error cause => .error (.statRefused full cause)

theorem stat?_outcome (full : String) (client : DirectoryClient) :
    (stat? full).outcome client = (client.described full, client) := by
  unfold stat? described
  rw [Step.outcome_bind_ok (Step.outcome_get client)]
  split
  all_goals simp_all

theorem exists?_outcome (path : String) (client : DirectoryClient) :
    (StoreClient.exists? path : ClientM DirectoryClient Bool).outcome client =
      ((client.described (client.fullPath path)).map Option.isSome, client) := by
  change ((get : ClientM DirectoryClient DirectoryClient) >>= fun client =>
    stat? (client.fullPath path) >>= fun found => pure found.isSome).outcome client = _
  rw [Step.outcome_bind_ok (Step.outcome_get client), Step.outcome_bind_pure, stat?_outcome]

theorem entryAt?_outcome (path : String) (client : DirectoryClient) :
    (StoreClient.entryAt? path : ClientM DirectoryClient (Option Entry)).outcome client =
      ((client.described (client.fullPath path)).map (Option.map (entryOf (normalize path))),
        client) := by
  change ((get : ClientM DirectoryClient DirectoryClient) >>= fun client =>
    stat? (client.fullPath path) >>= fun found =>
      pure (found.map (entryOf (normalize path)))).outcome client = _
  rw [Step.outcome_bind_ok (Step.outcome_get client), Step.outcome_bind_pure, stat?_outcome]

theorem Rooted.isRoot_iff (h : client.Rooted account location) (path : String) :
    client.isRoot (client.fullPath path) ↔ ofString path = [] := by
  unfold isRoot fullPath
  rw [decide_eq_true_eq, HostPath.components_below h.base_ne_empty (ofString_canonical path)]
  simp

theorem Rooted.isRoot_eq_false (h : client.Rooted account location) {path : String}
    (hne : ofString path ≠ []) :
    client.isRoot (client.fullPath path) = false := by
  rw [Bool.eq_false_iff, ne_eq, h.isRoot_iff]
  exact hne

end LakeStore.DirectoryClient
