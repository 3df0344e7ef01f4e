import LakeStore.Proofs.Directory.Removal

/-!
The paths of a store on the host stay below its base. The components of the host path of an entry
are those of the base and then the names of the entry. The calls that remove entries turn the root
down, however it is spelled, and take its directory away in no other way than through a link: one in
the store that leads to a directory above the root.
-/

namespace LakeStore

def Call.removes : Call → Bool
  | .delete _ | .deleteRecursive _ => true
  | _ => false

namespace Disk

open StorePath

variable {disk : Disk} {location root : Location}

theorem removeDirectory_keeps (path : String) (disk : Disk) :
    ((removeDirectory path).outcome disk).2.Keeps disk := by
  have hsame : disk.Keeps disk := fun _ _ hnode => hnode
  rw [removeDirectory_outcome]
  split
  . exact hsame
  . split
    . exact filter_keeps disk _
    . exact hsame
  . exact hsame
  . exact hsame

theorem get?_removeTree_below {path : String} {above : Location} {modified : Time}
    (hbelow : Below above location)
    (hentry : disk.findEntry path = .ok (.taken above (.directory modified))) :
    ((removeTree path).outcome disk).2.nodes.get? location = none := by
  have hcleared : (disk.cleared above).nodes.get? location = none := by
    rw [get?_cleared, if_pos hbelow]
  have hgone : ((removeDirectory path).outcome (disk.cleared above)).2.nodes.get? location =
      none := by
    rw [Option.eq_none_iff_forall_ne_some] at hcleared ⊢
    exact fun node hnode => hcleared node (removeDirectory_keeps path _ location node hnode)
  rw [removeTree_outcome, hentry]
  dsimp only
  split
  all_goals
    next houtcome =>
      rw [houtcome] at hgone
      exact hgone

structure Remains (root : Location) (old new : Disk) : Prop where
  keeps : new.Keeps old
  here : new.here = old.here
  root : new.IsDirectoryAt root

theorem Remains.filter {old new : Disk} (h : Remains root old new) {keep : Location → Bool}
    (hroot : keep root) :
    Remains root old (new.filter keep) := by
  refine ⟨?_, h.here, isDirectoryAt_filter hroot h.root⟩
  intro other node hnode
  apply h.keeps
  exact filter_keeps new keep other node hnode

theorem get?_ne_none_of_follow
    {expand : Location → String → List String → LastName → Except HostError Spot} {last : LastName}
    {name : String} {rest : StorePath} {found : Location} {node : Node} (hname : IsName name)
    (hfollow : disk.follow expand last location (name :: rest) = .ok (.taken found node)) :
    disk.nodes.get? (location ++ [name]) ≠ none := by
  intro hnone
  rw [follow_name hname.notDot hname.notDotDot, hnone] at hfollow
  split at hfollow
  . cases hfollow
  . split at hfollow
    . cases hfollow
    . dsimp only at hfollow
      split at hfollow
      all_goals cases hfollow

structure Guards (disk : Disk) (base : String) (root : Location) (path : StorePath) : Prop where
  wellFormed : disk.WellFormed
  found : ∃ modified, disk.find base = .ok (.taken root (.directory modified))
  canonical : path.Canonical
  nonempty : path ≠ []
  notAbove : ∀ above modified,
    disk.findEntry (HostPath.below base path) = .ok (.taken above (.directory modified)) →
    ¬ Below above root

section remains

variable {base : String} {path : StorePath} {current : Disk}

theorem Remains.root_ne (h : Remains root disk current) (hguards : disk.Guards base root path)
    {found : Location} {node : Node} (hkind : ∀ modified, node ≠ .directory modified)
    (hentry : current.findEntry (HostPath.below base path) = .ok (.taken found node)) :
    root ≠ found := by
  rintro rfl
  obtain ⟨modified, hroot⟩ := h.root
  have hnode := findWith_holds hguards.wellFormed (findWith_keeps h.keeps h.here.symm hentry)
  have hdirectory := h.keeps _ _ hroot
  change disk.nodes.get? root = some node at hnode
  rw [hdirectory, Option.some_inj] at hnode
  exact hkind modified hnode.symm

theorem Remains.removeFile (h : Remains root disk current) (hguards : disk.Guards base root path) :
    Remains root disk ((Disk.removeFile (HostPath.below base path)).outcome current).2 := by
  rw [removeFile_outcome]
  split
  . exact h
  . exact h
  . next found node hkind hentry =>
    apply h.filter
    rw [decide_eq_true_eq]
    exact h.root_ne hguards hkind hentry
  . exact h

theorem Remains.removeDirectory (h : Remains root disk current)
    (hguards : disk.Guards base root path) :
    Remains root disk ((Disk.removeDirectory (HostPath.below base path)).outcome current).2 := by
  rw [removeDirectory_outcome]
  split
  . exact h
  . next found modified hentry =>
    split
    . next hempty =>
      apply h.filter
      rw [decide_eq_true_eq]
      rintro rfl
      obtain ⟨time, hbase⟩ := hguards.found
      obtain ⟨next, hfollow⟩ :=
        findWith_passes h.keeps h.here.symm hbase hguards.canonical hguards.nonempty hentry
      obtain ⟨name, rest, hpath⟩ := List.exists_cons_of_ne_nil hguards.nonempty
      rw [hpath] at hfollow
      have hname : IsName name := hguards.canonical name (by simp [hpath])
      obtain ⟨node, hnode⟩ := Option.ne_none_iff_exists'.mp (get?_ne_none_of_follow hname hfollow)
      have hmem :=
        (PathMap.mem_below_iff current.nodes root _ node).mpr ⟨below_append (by simp), hnode⟩
      rw [List.isEmpty_iff] at hempty
      rw [hempty] at hmem
      cases hmem
    . exact h
  . exact h
  . exact h

theorem Remains.removeTree (h : Remains root disk current) (hguards : disk.Guards base root path) :
    Remains root disk ((Disk.removeTree (HostPath.below base path)).outcome current).2 := by
  rw [removeTree_outcome]
  split
  . exact h
  . next found modified hentry =>
    have hnot := hguards.notAbove found modified (findWith_keeps h.keeps h.here.symm hentry)
    have hcleared : Remains root disk (current.cleared found) := h.filter (by simpa using hnot)
    have hremoved := hcleared.removeDirectory hguards
    split
    all_goals
      next houtcome =>
        rw [houtcome] at hremoved
        exact hremoved
  . next found target modified hentry =>
    apply h.filter
    rw [decide_eq_true_eq]
    exact h.root_ne hguards (by simp) hentry
  . exact h
  . exact h

end remains

end Disk

namespace DirectoryClient

open StorePath

variable {client : DirectoryClient} {root : Location} {modified : Time}

theorem components_fullPath (client : DirectoryClient) (path : String) :
    HostPath.components (client.fullPath path) = HostPath.components client.base ++ ofString path :=
  HostPath.components_below_append client.base (ofString_canonical path)

theorem isRoot_iff (client : DirectoryClient) (path : String) :
    client.isRoot (client.fullPath path) ↔ normalize path = "/" := by
  unfold isRoot
  rw [decide_eq_true_eq, components_fullPath, ← ofString_eq_nil_iff]
  simp

/-- Whether a path of the store leads to a directory above its root. -/
def LeadsAbove (client : DirectoryClient) (root : Location) : Prop :=
  ∃ path above modified,
    client.disk.findEntry (client.fullPath path) = .ok (.taken above (.directory modified)) ∧
    Below above root

theorem described_directory_of_findEntry {full : String} {above : Location}
    (hentry : client.disk.findEntry full = .ok (.taken above (.directory modified))) :
    client.described full = .ok (some ⟨.directory, 0, modified⟩) := by
  have hfind := Disk.find_of_findEntry (by simp) hentry
  unfold described Disk.metadata
  rw [hfind]
  rfl

theorem ofString_ne_nil_of_above
    (hfind : client.disk.find client.base = .ok (.taken root (.directory modified))) {path : String}
    {above : Location} {time : Time} (hbelow : Below above root)
    (hentry : client.disk.findEntry (client.fullPath path) = .ok (.taken above (.directory time))) :
    ofString path ≠ [] := by
  intro hnil
  unfold fullPath at hentry
  rw [hnil] at hentry
  have hroot := Disk.find_of_findEntry (by simp) hentry
  change client.disk.find client.base = _ at hroot
  rw [hfind] at hroot
  cases hroot
  exact hbelow.2 rfl

theorem not_leadsAbove (h : client.disk.IsRegion root)
    (hfind : client.disk.find client.base = .ok (.taken root (.directory modified))) :
    ¬ client.LeadsAbove root := by
  rintro ⟨path, above, time, hentry, hbelow⟩
  have hne := ofString_ne_nil_of_above hfind hbelow hentry
  obtain ⟨expand, hfollow⟩ :=
    Disk.findWith_below hfind (ofString_canonical path) hne (Disk.checkText_of_findWith hentry)
    ⟨false, HostPath.endsInSlash (client.fullPath path), false⟩
  have hlocation := h.follow_location (ofString_canonical path) (hfollow.symm.trans hentry)
  rw [hlocation] at hbelow
  exact hbelow.not_prefix (List.prefix_append _ _)

theorem get?_root_deleteRecursive
    (hfind : client.disk.find client.base = .ok (.taken root (.directory modified))) {path : String}
    {above : Location} {time : Time}
    (hentry : client.disk.findEntry (client.fullPath path) = .ok (.taken above (.directory time)))
    (hbelow : Below above root) :
    ((Session.start client).run [.deleteRecursive path]).client.disk.nodes.get? root = none := by
  change ((remove Disk.removeTree Disk.removeFile path).outcome client).2.disk.nodes.get? root =
    none
  have hroot : client.isRoot (client.fullPath path) = false := by
    rw [Bool.eq_false_iff, ne_eq, isRoot_iff, ← ofString_eq_nil_iff]
    exact ofString_ne_nil_of_above hfind hbelow hentry
  rw [remove_outcome_of_described _ _ hroot, described_directory_of_findEntry hentry]
  dsimp only
  rw [if_pos rfl, onDisk_succeeds_outcome]
  exact Disk.get?_removeTree_below hbelow hentry

structure Left (root : Location) (client changed : DirectoryClient) : Prop where
  base : changed.base = client.base
  remains : Disk.Remains root client.disk changed.disk

section Left

variable {changed : DirectoryClient} (hwellFormed : client.disk.WellFormed)
  (hfind : client.disk.find client.base = .ok (.taken root (.directory modified)))

include hwellFormed hfind

theorem guards_of_not_leadsAbove (hnot : ¬ client.LeadsAbove root) {path : String}
    (hne : ofString path ≠ []) :
    client.disk.Guards client.base root (ofString path) := by
  refine ⟨hwellFormed, ⟨modified, hfind⟩, ofString_canonical path, hne, ?_⟩
  intro above time hentry hbelow
  exact hnot ⟨path, above, time, hentry, hbelow⟩

theorem Left.remove (h : Left root client changed) (hnot : ¬ client.LeadsAbove root)
    {directory : String → Step Disk HostError Unit} {path : String}
    (hdirectory : client.disk.Guards client.base root (ofString path) →
      Disk.Remains root client.disk
        ((directory (HostPath.below client.base (ofString path))).outcome changed.disk).2) :
    Left root client ((DirectoryClient.remove directory Disk.removeFile path).outcome
      changed).2 := by
  have hfull : changed.fullPath path = HostPath.below client.base (ofString path) := by
    unfold fullPath
    rw [h.base]
  apply remove_state (P := Left root client) h
  . intro hroot
    have hguards := guards_of_not_leadsAbove hwellFormed hfind hnot (path_ne_nil hroot)
    refine ⟨h.base, ?_⟩
    rw [hfull]
    exact hdirectory hguards
  . intro hroot
    have hguards := guards_of_not_leadsAbove hwellFormed hfind hnot (path_ne_nil hroot)
    refine ⟨h.base, ?_⟩
    rw [hfull]
    exact h.remains.removeFile hguards

theorem Left.run {session : Session DirectoryClient} (h : Left root client session.client)
    (hnot : ¬ client.LeadsAbove root) {calls : List Call} (hcalls : ∀ call ∈ calls, call.removes) :
    Left root client (session.run calls).client := by
  unfold Session.run
  induction calls generalizing session with
  | nil => exact h
  | cons call calls ih =>
    rw [List.foldl_cons]
    refine ih ?_ fun other hother => hcalls other (.tail _ hother)
    have hcall := hcalls call (.head _)
    cases call with
    | delete path => exact h.remove hwellFormed hfind hnot h.remains.removeDirectory
    | deleteRecursive path => exact h.remove hwellFormed hfind hnot h.remains.removeTree
    | _ => cases hcall

end Left

/--
The host path of an entry is that of the base with the names of the entry behind it, however the
path of the entry is spelled, so that it tells entries apart as their normal forms do. The root is
turned down in every spelling. Removals take the directory of the root away exactly when some path
leads to a directory above it, which none does where the store holds no link.
-/
theorem paths_stay_below_base (client : DirectoryClient) :
    (∀ path, (∀ name ∈ names (normalize path), IsName name) ∧
      HostPath.components (client.fullPath path) =
        HostPath.components client.base ++ names (normalize path)) ∧
    (∀ path other,
      HostPath.components (client.fullPath path) = HostPath.components (client.fullPath other) ↔
        normalize path = normalize other) ∧
    (∀ path, client.isRoot (client.fullPath path) ↔ normalize path = "/") ∧
    (∀ path, normalize path = "/" →
      (StoreClient.delete path : ClientM DirectoryClient Bool).outcome client =
        (.ok false, client) ∧
      (StoreClient.deleteRecursive path : ClientM DirectoryClient Bool).outcome client =
        (.ok false, client)) ∧
    (client.disk.WellFormed → ∀ root modified,
      client.disk.find client.base = .ok (.taken root (.directory modified)) →
      ((∀ calls, (∀ call ∈ calls, Call.removes call) →
          ((Session.start client).run calls).client.disk.IsDirectoryAt root) ↔
        ¬ client.LeadsAbove root) ∧
        ((∀ path target time, client.disk.nodes.get? (root ++ path) ≠ some (.link target time)) →
          ¬ client.LeadsAbove root)) := by
  refine ⟨?_, ?_, client.isRoot_iff, ?_, ?_⟩
  . intro path
    have hnames : names (normalize path) = ofString path := names_text (ofString_canonical path)
    rw [hnames]
    exact ⟨ofString_canonical path, components_fullPath client path⟩
  . intro path other
    rw [components_fullPath, components_fullPath, List.append_cancel_left_eq, ofString_eq_iff]
  . intro path hpath
    have hroot := (client.isRoot_iff path).mpr hpath
    exact ⟨remove_root hroot, remove_root hroot⟩
  . intro hwellFormed root modified hfind
    have hdirectory := Disk.findWith_holds hwellFormed hfind
    have hroot : client.disk.IsDirectoryAt root := ⟨modified, hdirectory⟩
    constructor
    . constructor
      . rintro hruns ⟨path, above, time, hentry, hbelow⟩
        have hgone := get?_root_deleteRecursive hfind hentry hbelow
        obtain ⟨kept, hkept⟩ := hruns [.deleteRecursive path] (by simp [Call.removes])
        rw [hgone] at hkept
        cases hkept
      . intro hnot calls hcalls
        have hstart : Left root client (Session.start client).client :=
          ⟨rfl, fun _ _ hnode => hnode, rfl, hroot⟩
        have hleft := hstart.run hwellFormed hfind hnot hcalls
        exact hleft.remains.root
    . exact fun hnoLink => not_leadsAbove ⟨hwellFormed, hroot, hnoLink⟩ hfind

theorem paths_stay_below_base_sample :
    normalize "../x/.." = "/" ∧
      (StoreClient.delete "../x/.." : ClientM DirectoryClient Bool).outcome sample =
        (.ok false, sample) ∧
      sample.disk.WellFormed ∧
      sample.disk.find sample.base = .ok (.taken ["s"] (.directory default)) ∧
      (∀ path target time, sample.disk.nodes.get? (["s"] ++ path) ≠ some (.link target time)) ∧
      ∀ calls, (∀ call ∈ calls, Call.removes call) →
        ((Session.start sample).run calls).client.disk.IsDirectoryAt ["s"] := by
  have hnormal : normalize "../x/.." = "/" := by decide
  have hfind : sample.disk.find sample.base = .ok (.taken ["s"] (.directory default)) := by decide
  obtain ⟨_, _, _, hrefused, hruns⟩ := paths_stay_below_base sample
  obtain ⟨hiff, hplain⟩ := hruns sample_rooted.wellFormed ["s"] default hfind
  have hnot := hplain sample_rooted.noLink
  exact ⟨hnormal, (hrefused _ hnormal).1, sample_rooted.wellFormed, hfind, sample_rooted.noLink,
    hiff.mpr hnot⟩

def linked : DirectoryClient :=
  let above := ((Disk.createDirectory "/a").outcome (.empty default)).2
  let root := ((Disk.createDirectory "/a/s").outcome above).2
  ⟨"acct", "/a/s", ((Disk.createLink "/a/s/l" "../..").outcome root).2⟩

theorem linked_wellFormed : linked.disk.WellFormed := by
  have habove := (Disk.createDirectory_grows (Disk.empty_wellFormed default) "/a").wellFormed
  have hroot := (Disk.createDirectory_grows habove "/a/s").wellFormed
  exact Disk.createLink_wellFormed hroot "/a/s/l" "../.."

theorem root_removed_through_link :
    linked.disk.WellFormed ∧
      linked.disk.find linked.base = .ok (.taken ["a", "s"] (.directory default)) ∧
      normalize "l/a" ≠ "/" ∧
      ((Session.start linked).run [.deleteRecursive "l/a"]).client.disk.nodes.get? ["a", "s"] =
        none := by
  have hfind : linked.disk.find linked.base =
      .ok (.taken ["a", "s"] (.directory default)) := by decide +kernel
  have hentry : linked.disk.findEntry (linked.fullPath "l/a") =
      .ok (.taken ["a"] (.directory default)) := by decide +kernel
  exact ⟨linked_wellFormed, hfind, by decide +kernel,
    get?_root_deleteRecursive hfind hentry (by decide)⟩

end DirectoryClient

end LakeStore
