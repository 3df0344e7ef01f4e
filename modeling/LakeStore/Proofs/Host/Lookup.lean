import LakeStore.Proofs.Host.Disk
import LakeStore.Proofs.Path.Host

/-!
Where lookups lead. A lookup that finds an entry finds it again on a disk that has more entries.
Behind a path to a directory, a longer path goes on from there; and where there are no links, it
leads to the location that it spells.
-/

namespace LakeStore.Disk

open StorePath

variable {disk : Disk}

def Holds (disk : Disk) : Spot → Prop
  | .taken location node => disk.nodes.get? location = some node
  | .free location name => disk.IsPlace location name

theorem follow_holds (h : disk.WellFormed)
    {expand : Location → String → List String → LastName → Except HostError Spot}
    (hexpand : ∀ location target rest last spot, disk.IsDirectoryAt location → AreParts rest →
      expand location target rest last = .ok spot → disk.Holds spot)
    {last : LastName} {location : Location} {parts : List String} {spot : Spot}
    (hlocation : disk.IsDirectoryAt location) (hparts : AreParts parts)
    (hfollow : disk.follow expand last location parts = .ok spot) : disk.Holds spot := by
  induction parts generalizing location with
  | nil =>
    unfold follow at hfollow
    split at hfollow
    . next node hnode =>
      cases hfollow
      exact hnode
    . cases hfollow
  | cons part rest ih =>
    have hrest : AreParts rest := fun other hother => hparts other (.tail _ hother)
    by_cases hdot : part = "."
    . subst hdot
      rw [follow_dot] at hfollow
      exact ih hlocation hrest hfollow
    . by_cases hdots : part = ".."
      . subst hdots
        rw [follow_dots] at hfollow
        exact ih (h.directory_dropLast hlocation) hrest hfollow
      . rw [follow_name hdot hdots] at hfollow
        split at hfollow
        . cases hfollow
        . split at hfollow
          . cases hfollow
          . split at hfollow
            . next hnone =>
              split at hfollow
              . cases hfollow
                have hpart := hparts part (.head _)
                exact ⟨hlocation, ⟨hpart.1, hpart.2, hdot, hdots⟩, hnone⟩
              . cases hfollow
            . next modified hnode => exact ih ⟨modified, hnode⟩ hrest hfollow
            . next id hnode =>
              split at hfollow
              . cases hfollow
                exact hnode
              . cases hfollow
            . next target modified hnode =>
              split at hfollow
              . cases hfollow
                exact hnode
              . exact hexpand location target rest last spot hlocation hrest hfollow

theorem followLinks_holds (h : disk.WellFormed) {links : Nat} {last : LastName}
    {location : Location} {parts : List String} {spot : Spot}
    (hlocation : disk.IsDirectoryAt location) (hparts : AreParts parts)
    (hfollow : disk.followLinks links last location parts = .ok spot) :
    disk.Holds spot := by
  induction links generalizing last location parts spot with
  | zero =>
    unfold followLinks at hfollow
    refine follow_holds h ?_ hlocation hparts hfollow
    intro _ _ _ _ _ _ _ herror
    cases herror
  | succ links ih =>
    unfold followLinks at hfollow
    refine follow_holds h ?_ hlocation hparts hfollow
    intro location target rest last spot hlocation hrest hexpand
    dsimp only at hexpand
    refine ih ?_ (areParts_append (areParts_names target) hrest) hexpand
    split
    . exact h.root
    . exact hlocation

theorem findWith_holds (h : disk.WellFormed) {last : LastName} {path : String} {spot : Spot}
    (hfind : disk.findWith last path = .ok spot) : disk.Holds spot := by
  unfold findWith at hfind
  cases hcheck : checkText path with
  | error error =>
    rw [hcheck] at hfind
    cases hfind
  | ok =>
    rw [hcheck] at hfind
    exact followLinks_holds h (h.start path) (areParts_names path) hfind

def Keeps (old new : Disk) : Prop :=
  ∀ location node, old.nodes.get? location = some node → new.nodes.get? location = some node

theorem follow_keeps {old new : Disk} (hkeeps : old.Keeps new)
    {expand expand' : Location → String → List String → LastName → Except HostError Spot}
    {found : Location} {node : Node}
    (hexpand : ∀ location target rest last,
      expand location target rest last = .ok (.taken found node) →
        expand' location target rest last = .ok (.taken found node))
    {last : LastName} {location : Location} {parts : List String}
    (hfollow : old.follow expand last location parts = .ok (.taken found node)) :
    new.follow expand' last location parts = .ok (.taken found node) := by
  induction parts generalizing location with
  | nil =>
    unfold follow at hfollow ⊢
    split at hfollow
    . next node hnode =>
      rw [hkeeps location node hnode]
      exact hfollow
    . cases hfollow
  | cons part rest ih =>
    by_cases hdot : part = "."
    . subst hdot
      rw [follow_dot] at hfollow ⊢
      exact ih hfollow
    . by_cases hdots : part = ".."
      . subst hdots
        rw [follow_dots] at hfollow ⊢
        exact ih hfollow
      . rw [follow_name hdot hdots] at hfollow ⊢
        split at hfollow
        . cases hfollow
        . next hcreates =>
          rw [if_neg hcreates]
          split at hfollow
          . cases hfollow
          . next hshort =>
            rw [if_neg hshort]
            split at hfollow
            . split at hfollow
              all_goals cases hfollow
            . next modified hnode =>
              rw [hkeeps _ _ hnode]
              exact ih hfollow
            . next id hnode =>
              rw [hkeeps _ _ hnode]
              exact hfollow
            . next target modified hnode =>
              rw [hkeeps _ _ hnode]
              dsimp only
              split at hfollow
              . next hlink =>
                rw [if_pos hlink]
                exact hfollow
              . next hlink =>
                rw [if_neg hlink]
                exact hexpand location target rest last hfollow

theorem followLinks_keeps {old new : Disk} (hkeeps : old.Keeps new) {links : Nat} {last : LastName}
    {location found : Location} {parts : List String} {node : Node}
    (hfollow : old.followLinks links last location parts = .ok (.taken found node)) :
    new.followLinks links last location parts = .ok (.taken found node) := by
  induction links generalizing last location parts with
  | zero =>
    unfold followLinks at hfollow ⊢
    refine follow_keeps hkeeps ?_ hfollow
    intro _ _ _ _ herror
    cases herror
  | succ links ih =>
    unfold followLinks at hfollow ⊢
    refine follow_keeps hkeeps ?_ hfollow
    intro _ _ _ _ hexpand
    exact ih hexpand

theorem findWith_keeps {old new : Disk} (hkeeps : old.Keeps new) (hhere : new.here = old.here)
    {last : LastName} {path : String} {found : Location} {node : Node}
    (hfind : old.findWith last path = .ok (.taken found node)) :
    new.findWith last path = .ok (.taken found node) := by
  unfold findWith at hfind ⊢
  cases hcheck : checkText path with
  | error error =>
    rw [hcheck] at hfind
    cases hfind
  | ok =>
    rw [hcheck] at hfind
    have hstart : new.start path = old.start path := by
      unfold Disk.start
      rw [hhere]
    rw [hstart]
    exact followLinks_keeps hkeeps hfind

theorem follow_passes {old new : Disk} (hkeeps : old.Keeps new)
    {expand expand' : Location → String → List String → LastName → Except HostError Spot}
    {found other : Location} {modified : Time} {node : Node} {last : LastName} {rest : List String}
    {slash : Bool} (hrest : rest ≠ []) (hexpand : ∀ location target parts,
      expand location target parts ⟨true, slash, false⟩ = .ok (.taken found (.directory modified)) →
        expand' location target (parts ++ rest) last = .ok (.taken other node) →
          ∃ next, old.follow next last found rest = .ok (.taken other node))
    {location : Location} {parts : List String}
    (hfront : new.follow expand ⟨true, slash, false⟩ location parts =
      .ok (.taken found (.directory modified)))
    (hfollow : old.follow expand' last location (parts ++ rest) = .ok (.taken other node)) :
    ∃ next, old.follow next last found rest = .ok (.taken other node) := by
  induction parts generalizing location with
  | nil =>
    unfold follow at hfront
    split at hfront
    . cases hfront
      exact ⟨expand', hfollow⟩
    . cases hfront
  | cons part parts ih =>
    rw [List.cons_append] at hfollow
    by_cases hdot : part = "."
    . subst hdot
      rw [follow_dot] at hfront hfollow
      exact ih hfront hfollow
    . by_cases hdots : part = ".."
      . subst hdots
        rw [follow_dots] at hfront hfollow
        exact ih hfront hfollow
      . have hmore : parts ++ rest ≠ [] := by simp [hrest]
        rw [follow_name hdot hdots] at hfront hfollow
        rw [if_neg (by simp)] at hfront
        rw [if_neg (by simp [hmore])] at hfollow
        split at hfollow
        . cases hfollow
        . next hshort =>
          rw [if_neg hshort] at hfront
          split at hfollow
          . cases hfollow
          . next time hnode =>
            rw [hkeeps _ _ hnode] at hfront
            exact ih hfront hfollow
          . rw [if_neg (by simp [hmore])] at hfollow
            cases hfollow
          . next target time hnode =>
            rw [hkeeps _ _ hnode] at hfront
            dsimp only at hfront
            rw [if_neg (by simp)] at hfront
            rw [if_neg (by simp [hmore])] at hfollow
            exact hexpand location target parts hfront hfollow

theorem followLinks_passes {old new : Disk} (hkeeps : old.Keeps new) {links : Nat} {slash : Bool}
    {location found other : Location} {parts rest : List String} {modified : Time} {node : Node}
    {last : LastName} (hrest : rest ≠ [])
    (hfront : new.followLinks links ⟨true, slash, false⟩ location parts =
      .ok (.taken found (.directory modified)))
    (hfollow : old.followLinks links last location (parts ++ rest) = .ok (.taken other node)) :
    ∃ next, old.follow next last found rest = .ok (.taken other node) := by
  induction links generalizing slash location parts with
  | zero =>
    unfold followLinks at hfront hfollow
    refine follow_passes hkeeps hrest ?_ hfront hfollow
    intro _ _ _ herror
    cases herror
  | succ links ih =>
    unfold followLinks at hfront hfollow
    refine follow_passes hkeeps hrest ?_ hfront hfollow
    intro location target parts hfront hfollow
    have hmore : (decide (parts ++ rest = []) && HostPath.endsInSlash target) = false := by
      simp [hrest]
    dsimp only at hfront hfollow
    rw [hmore, Bool.or_false, ← List.append_assoc] at hfollow
    exact ih hfront hfollow

theorem follow_append
    {expand expand' : Location → String → List String → LastName → Except HostError Spot}
    {found : Location} {modified : Time} {last : LastName} {rest : List String} {slash : Bool}
    (hrest : rest ≠ [])
    (hexpand : ∀ location target parts,
      expand location target parts ⟨true, slash, false⟩ = .ok (.taken found (.directory modified)) →
        ∃ next, expand' location target (parts ++ rest) last = disk.follow next last found rest)
    {location : Location} {parts : List String}
    (hfollow : disk.follow expand ⟨true, slash, false⟩ location parts =
      .ok (.taken found (.directory modified))) :
    ∃ next, disk.follow expand' last location (parts ++ rest) =
      disk.follow next last found rest := by
  induction parts generalizing location with
  | nil =>
    unfold follow at hfollow
    split at hfollow
    . cases hfollow
      exact ⟨expand', rfl⟩
    . cases hfollow
  | cons part parts ih =>
    rw [List.cons_append]
    by_cases hdot : part = "."
    . subst hdot
      rw [follow_dot] at hfollow ⊢
      exact ih hfollow
    . by_cases hdots : part = ".."
      . subst hdots
        rw [follow_dots] at hfollow ⊢
        exact ih hfollow
      . have hmore : parts ++ rest ≠ [] := by simp [hrest]
        rw [follow_name hdot hdots, if_neg (by simp)] at hfollow
        rw [follow_name hdot hdots, if_neg (by simp [hmore])]
        split at hfollow
        . cases hfollow
        . next hshort =>
          rw [if_neg hshort]
          split at hfollow
          . split at hfollow
            all_goals cases hfollow
          . exact ih hfollow
          . split at hfollow
            all_goals cases hfollow
          . next target _ _ =>
            rw [if_neg (by simp)] at hfollow
            rw [if_neg (by simp [hmore])]
            exact hexpand location target parts hfollow

theorem followLinks_append {links : Nat} {slash : Bool} {location found : Location}
    {parts rest : List String} {modified : Time} (hrest : rest ≠ [])
    (hfollow : disk.followLinks links ⟨true, slash, false⟩ location parts =
      .ok (.taken found (.directory modified))) (last : LastName) :
    ∃ next, disk.followLinks links last location (parts ++ rest) =
      disk.follow next last found rest := by
  induction links generalizing slash location parts with
  | zero =>
    unfold followLinks at hfollow ⊢
    refine follow_append hrest ?_ hfollow
    intro _ _ _ herror
    cases herror
  | succ links ih =>
    unfold followLinks at hfollow ⊢
    refine follow_append hrest ?_ hfollow
    intro location target parts hexpand
    have hmore : (decide (parts ++ rest = []) && HostPath.endsInSlash target) = false := by
      simp [hrest]
    dsimp only
    rw [hmore, Bool.or_false, ← List.append_assoc]
    exact ih hexpand

theorem follow_missing (h : disk.WellFormed)
    {expand expand' : Location → String → List String → LastName → Except HostError Spot}
    {last : LastName} {rest : List String}
    (hexpand : ∀ location target parts, parts ≠ [] → disk.IsDirectoryAt location →
      expand location target parts ⟨false, false, false⟩ = .error .notFound →
        expand' location target (parts ++ rest) last = .error .notFound)
    {location : Location} (hlocation : disk.IsDirectoryAt location) {parts : List String}
    (hfollow : disk.follow expand ⟨false, false, false⟩ location parts = .error .notFound) :
    disk.follow expand' last location (parts ++ rest) = .error .notFound := by
  induction parts generalizing location with
  | nil =>
    obtain ⟨modified, hnode⟩ := hlocation
    unfold follow at hfollow
    rw [hnode] at hfollow
    cases hfollow
  | cons part parts ih =>
    rw [List.cons_append]
    by_cases hdot : part = "."
    . subst hdot
      rw [follow_dot] at hfollow ⊢
      exact ih hlocation hfollow
    . by_cases hdots : part = ".."
      . subst hdots
        rw [follow_dots] at hfollow ⊢
        exact ih (h.directory_dropLast hlocation) hfollow
      . rw [follow_name hdot hdots, if_neg (by simp)] at hfollow
        have hmore : parts ≠ [] := by
          rintro rfl
          split at hfollow
          . cases hfollow
          . split at hfollow
            . cases hfollow
            . next modified hnode =>
              unfold follow at hfollow
              rw [hnode] at hfollow
              cases hfollow
            . cases hfollow
            . cases hfollow
        rw [follow_name hdot hdots, if_neg (by simp [hmore])]
        split at hfollow
        . cases hfollow
        . next hshort =>
          rw [if_neg hshort]
          split at hfollow
          . simp [hmore]
          . next modified hnode => exact ih ⟨modified, hnode⟩ hfollow
          . rw [if_neg (by simp [hmore])] at hfollow
            cases hfollow
          . next target _ _ =>
            rw [if_neg (by simp [hmore])] at hfollow
            rw [if_neg (by simp [hmore])]
            exact hexpand location target parts hmore hlocation hfollow

theorem followLinks_missing (h : disk.WellFormed) {links : Nat} {last : LastName}
    {location : Location} {parts rest : List String} (hlocation : disk.IsDirectoryAt location)
    (hfollow : disk.followLinks links ⟨false, false, false⟩ location parts = .error .notFound) :
    disk.followLinks links last location (parts ++ rest) = .error .notFound := by
  induction links generalizing location parts with
  | zero =>
    unfold followLinks at hfollow ⊢
    refine follow_missing h ?_ hlocation hfollow
    intro _ _ _ _ _ herror
    cases herror
  | succ links ih =>
    unfold followLinks at hfollow ⊢
    refine follow_missing h ?_ hlocation hfollow
    intro location target parts hne hlocation hexpand
    -- With names behind the link, a slash at the end of its target does not count.
    dsimp only at hexpand ⊢
    rw [decide_eq_false hne] at hexpand
    rw [decide_eq_false (by simp [hne]), Bool.false_and, Bool.or_false, ← List.append_assoc]
    refine ih ?_ hexpand
    split
    . exact h.root
    . exact hlocation

theorem follow_skip_dots
    {expand : Location → String → List String → LastName → Except HostError Spot} {last : LastName}
    {location : Location} {dots rest : List String} (hdots : ∀ part ∈ dots, part = ".") :
    disk.follow expand last location (dots ++ rest) = disk.follow expand last location rest := by
  induction dots with
  | nil => rfl
  | cons dot dots ih =>
    rw [List.forall_mem_cons] at hdots
    rw [hdots.1, List.cons_append, follow_dot]
    exact ih hdots.2

theorem followLinks_append_dots {links : Nat} {slash : Bool} {location found : Location}
    {parts dots : List String} {modified : Time} (hdots : ∀ part ∈ dots, part = ".")
    (hfollow : disk.followLinks links ⟨true, slash, false⟩ location parts =
      .ok (.taken found (.directory modified)))
    (hnode : disk.nodes.get? found = some (.directory modified)) :
    disk.followLinks links ⟨true, slash, false⟩ location (parts ++ dots) =
      .ok (.taken found (.directory modified)) := by
  by_cases hnil : dots = []
  . rw [hnil, List.append_nil]
    exact hfollow
  . obtain ⟨expand, hgoes⟩ := followLinks_append hnil hfollow ⟨true, slash, false⟩
    rw [hgoes, ← List.append_nil dots, follow_skip_dots hdots]
    unfold follow
    rw [hnode]

theorem follow_without_dots
    {expand expand' : Location → String → List String → LastName → Except HostError Spot}
    {found : Location} {modified : Time} {slash slash' : Bool} {dots : List String}
    (hdots : ∀ part ∈ dots, part = ".")
    (hexpand : ∀ location target parts,
      expand location target (parts ++ dots) ⟨true, slash, false⟩ =
          .ok (.taken found (.directory modified)) →
        expand' location target parts ⟨true, slash', false⟩ =
          .ok (.taken found (.directory modified)))
    {location : Location} {parts : List String}
    (hfollow : disk.follow expand ⟨true, slash, false⟩ location (parts ++ dots) =
      .ok (.taken found (.directory modified))) :
    disk.follow expand' ⟨true, slash', false⟩ location parts =
      .ok (.taken found (.directory modified)) := by
  induction parts generalizing location with
  | nil =>
    rw [List.nil_append, ← List.append_nil dots, follow_skip_dots hdots] at hfollow
    unfold follow at hfollow ⊢
    exact hfollow
  | cons part parts ih =>
    rw [List.cons_append] at hfollow
    by_cases hdot : part = "."
    . subst hdot
      rw [follow_dot] at hfollow ⊢
      exact ih hfollow
    . by_cases hdotdot : part = ".."
      . subst hdotdot
        rw [follow_dots] at hfollow ⊢
        exact ih hfollow
      . rw [follow_name hdot hdotdot, if_neg (by simp)] at hfollow ⊢
        split at hfollow
        . cases hfollow
        . next hshort =>
          rw [if_neg hshort]
          split at hfollow
          . split at hfollow
            all_goals cases hfollow
          . exact ih hfollow
          . split at hfollow
            all_goals cases hfollow
          . next target _ _ =>
            rw [if_neg (by simp)] at hfollow ⊢
            exact hexpand location target parts hfollow

theorem followLinks_without_dots {links : Nat} {slash : Bool} (slash' : Bool) {dots : List String}
    (hdots : ∀ part ∈ dots, part = ".") {location found : Location} {parts : List String}
    {modified : Time}
    (hfollow : disk.followLinks links ⟨true, slash, false⟩ location (parts ++ dots) =
      .ok (.taken found (.directory modified))) :
    disk.followLinks links ⟨true, slash', false⟩ location parts =
      .ok (.taken found (.directory modified)) := by
  induction links generalizing slash slash' location parts with
  | zero =>
    unfold followLinks at hfollow ⊢
    refine follow_without_dots hdots ?_ hfollow
    intro _ _ _ herror
    cases herror
  | succ links ih =>
    unfold followLinks at hfollow ⊢
    refine follow_without_dots hdots ?_ hfollow
    intro location target parts hexpand
    dsimp only at hexpand ⊢
    rw [← List.append_assoc] at hexpand
    exact ih _ hexpand

theorem follow_entry
    {expand expand' : Location → String → List String → LastName → Except HostError Spot}
    {found : Location} {node : Node} {slash slash' : Bool}
    (hslash : slash' = slash ∨ ∃ modified, node = .directory modified)
    (hexpand : ∀ location target parts, parts ≠ [] ∨ slash' →
      expand location target parts ⟨true, slash, false⟩ = .ok (.taken found node) →
        ∃ entry node,
          expand' location target parts ⟨false, slash', false⟩ = .ok (.taken entry node))
    {location : Location} {parts : List String}
    (hfollow : disk.follow expand ⟨true, slash, false⟩ location parts = .ok (.taken found node)) :
    ∃ entry node,
      disk.follow expand' ⟨false, slash', false⟩ location parts = .ok (.taken entry node) := by
  induction parts generalizing location with
  | nil =>
    refine ⟨found, node, ?_⟩
    unfold follow at hfollow ⊢
    exact hfollow
  | cons part parts ih =>
    by_cases hdot : part = "."
    . subst hdot
      rw [follow_dot] at hfollow ⊢
      exact ih hfollow
    . by_cases hdotdot : part = ".."
      . subst hdotdot
        rw [follow_dots] at hfollow ⊢
        exact ih hfollow
      . rw [follow_name hdot hdotdot, if_neg (by simp)] at hfollow ⊢
        split at hfollow
        . cases hfollow
        . next hshort =>
          rw [if_neg hshort]
          split at hfollow
          . split at hfollow
            all_goals cases hfollow
          . exact ih hfollow
          . next id _ =>
            split at hfollow
            . next hlast =>
              cases hfollow
              refine ⟨location ++ [part], .file id, ?_⟩
              rcases hslash with rfl | ⟨modified, hdirectory⟩
              . exact if_pos hlast
              . cases hdirectory
            . cases hfollow
          . next target time _ =>
            rw [if_neg (by simp)] at hfollow
            by_cases hlast : parts = [] ∧ ¬ slash'
            . refine ⟨location ++ [part], .link target time, ?_⟩
              rw [if_pos (by simpa using hlast)]
            . rw [if_neg (by simpa using hlast)]
              apply hexpand location target parts _ hfollow
              rw [not_and_or, not_not] at hlast
              exact hlast

theorem followLinks_entry {links : Nat} {slash slash' : Bool} {location found : Location}
    {parts : List String} {node : Node}
    (hslash : slash' = slash ∨ ∃ modified, node = .directory modified)
    (hfollow : disk.followLinks links ⟨true, slash, false⟩ location parts =
      .ok (.taken found node)) :
    ∃ entry node,
      disk.followLinks links ⟨false, slash', false⟩ location parts = .ok (.taken entry node) := by
  induction links generalizing slash slash' location parts with
  | zero =>
    unfold followLinks at hfollow ⊢
    refine follow_entry hslash ?_ hfollow
    intro _ _ _ _ herror
    cases herror
  | succ links ih =>
    unfold followLinks at hfollow ⊢
    refine follow_entry hslash ?_ hfollow
    intro location target parts _ hexpand
    apply ih _ hexpand
    exact hslash.imp_left fun heq => by rw [heq]

theorem find_of_followLinks {top : String} {slash : Bool} {found : Location} {modified : Time}
    {dots : List String} (hcheck : checkText top = .ok ()) (hdots : ∀ part ∈ dots, part = ".")
    (hfollow : disk.followLinks maxLinks ⟨true, slash, false⟩ (disk.start top) (names top ++ dots) =
      .ok (.taken found (.directory modified))) :
    disk.find top = .ok (.taken found (.directory modified)) ∧
      ∃ entry node, disk.findPlace top = .ok (.taken entry node) := by
  have hfound := followLinks_without_dots (HostPath.endsInSlash top) hdots hfollow
  unfold find findPlace findWith
  rw [hcheck]
  exact ⟨hfound, followLinks_entry (.inr ⟨modified, rfl⟩) hfound⟩

theorem find_start {base top : String} {found : Location} {modified : Time} {dots : List String}
    (hfind : disk.find base = .ok (.taken found (.directory modified)))
    (hcheck : checkText top = .ok ())
    (habsolute : HostPath.isAbsolute top = HostPath.isAbsolute base)
    (hnames : names base = names top ++ dots) (hdots : ∀ part ∈ dots, part = ".") :
    disk.find top = .ok (.taken found (.directory modified)) ∧
      ∃ entry node, disk.findPlace top = .ok (.taken entry node) := by
  have hstart : disk.start top = disk.start base := by
    unfold Disk.start
    rw [habsolute]
  unfold find findWith at hfind
  cases hbase : checkText base with
  | error error =>
    rw [hbase] at hfind
    cases hfind
  | ok =>
    rw [hbase, hnames, ← hstart] at hfind
    exact find_of_followLinks hcheck hdots hfind

theorem checkText_of_findWith {last : LastName} {text : String} {spot : Spot}
    (hfind : disk.findWith last text = .ok spot) : checkText text = .ok () := by
  unfold findWith at hfind
  cases hcheck : checkText text with
  | ok => rfl
  | error error =>
    rw [hcheck] at hfind
    cases hfind

theorem followLinks_of_find {text : String} {spot : Spot} (hfind : disk.find text = .ok spot) :
    disk.followLinks maxLinks ⟨true, HostPath.endsInSlash text, false⟩ (disk.start text)
      (names text) = .ok spot := by
  have hcheck := checkText_of_findWith hfind
  unfold find findWith at hfind
  rw [hcheck] at hfind
  exact hfind

theorem start_below {base : String} (hbase : base ≠ "") {path : StorePath}
    (hpath : path.Canonical) :
    disk.start (HostPath.below base path) = disk.start base := by
  unfold Disk.start
  rw [HostPath.isAbsolute_below hbase hpath]

theorem findWith_below {base : String} {location : Location} {modified : Time} {path : StorePath}
    (hfind : disk.find base = .ok (.taken location (.directory modified))) (hpath : path.Canonical)
    (hne : path ≠ []) (hcheck : checkText (HostPath.below base path) = .ok ()) (last : LastName) :
    ∃ expand,
      disk.findWith last (HostPath.below base path) = disk.follow expand last location path := by
  have hchecked := checkText_of_findWith hfind
  have hbase := (checkText_eq_ok_iff.mp hchecked).2.1
  obtain ⟨expand, hfollow⟩ := followLinks_append hne (followLinks_of_find hfind) last
  refine ⟨expand, ?_⟩
  unfold findWith
  rw [hcheck, start_below hbase hpath, HostPath.names_below hbase hpath]
  exact hfollow

theorem findWith_passes {old new : Disk} (hkeeps : old.Keeps new) (hhere : new.here = old.here)
    {base : String} {found other : Location} {modified : Time} {node : Node} {path : StorePath}
    {last : LastName} (hfind : new.find base = .ok (.taken found (.directory modified)))
    (hpath : path.Canonical) (hne : path ≠ [])
    (hbelow : old.findWith last (HostPath.below base path) = .ok (.taken other node)) :
    ∃ next, old.follow next last found path = .ok (.taken other node) := by
  have hbase := (checkText_eq_ok_iff.mp (checkText_of_findWith hfind)).2.1
  have hcheck := checkText_of_findWith hbelow
  have hstart : new.start base = old.start base := by
    unfold Disk.start
    rw [hhere]
  unfold findWith at hbelow
  rw [hcheck, start_below hbase hpath, HostPath.names_below hbase hpath, ← hstart] at hbelow
  exact followLinks_passes hkeeps hne (followLinks_of_find hfind) hbelow

theorem exists_findEntry {text : String} {found : Location} {node : Node}
    (hfind : disk.find text = .ok (.taken found node)) :
    ∃ entry node, disk.findEntry text = .ok (.taken entry node) := by
  unfold findEntry findWith
  rw [checkText_of_findWith hfind]
  exact followLinks_entry (.inl rfl) (followLinks_of_find hfind)

theorem follow_front (h : disk.WellFormed)
    {expand expand' : Location → String → List String → LastName → Except HostError Spot}
    {last : LastName} {spot : Spot} {rest : List String} (hrest : rest ≠ [])
    (hexpand : ∀ location target parts slash, disk.IsDirectoryAt location →
      expand location target (parts ++ rest) last = .ok spot →
        ∃ found modified,
          expand' location target parts ⟨true, slash, false⟩ =
            .ok (.taken found (.directory modified)))
    {location : Location} (hlocation : disk.IsDirectoryAt location) {parts : List String}
    (slash : Bool) (hfollow : disk.follow expand last location (parts ++ rest) = .ok spot) :
    ∃ found modified,
      disk.follow expand' ⟨true, slash, false⟩ location parts =
        .ok (.taken found (.directory modified)) := by
  induction parts generalizing location with
  | nil =>
    obtain ⟨modified, hnode⟩ := hlocation
    refine ⟨location, modified, ?_⟩
    unfold follow
    rw [hnode]
  | cons part parts ih =>
    rw [List.cons_append] at hfollow
    by_cases hdot : part = "."
    . subst hdot
      rw [follow_dot] at hfollow ⊢
      exact ih hlocation hfollow
    . by_cases hdotdot : part = ".."
      . subst hdotdot
        rw [follow_dots] at hfollow ⊢
        exact ih (h.directory_dropLast hlocation) hfollow
      . have hmore : parts ++ rest ≠ [] := by simp [hrest]
        rw [follow_name hdot hdotdot] at hfollow
        rw [follow_name hdot hdotdot, if_neg (by simp)]
        simp only [hmore, false_and, if_false] at hfollow
        split at hfollow
        . cases hfollow
        . next hshort =>
          rw [if_neg hshort]
          split at hfollow
          . cases hfollow
          . next modified hnode => exact ih ⟨modified, hnode⟩ hfollow
          . cases hfollow
          . next target _ _ =>
            rw [if_neg (by simp)]
            exact hexpand location target parts slash hlocation hfollow

theorem followLinks_front (h : disk.WellFormed) {links : Nat} {last : LastName} {spot : Spot}
    {rest : List String} (hrest : rest ≠ []) {location : Location}
    (hlocation : disk.IsDirectoryAt location) {parts : List String} (slash : Bool)
    (hfollow : disk.followLinks links last location (parts ++ rest) = .ok spot) :
    ∃ found modified, disk.followLinks links ⟨true, slash, false⟩ location parts =
      .ok (.taken found (.directory modified)) := by
  induction links generalizing last slash location parts with
  | zero =>
    unfold followLinks at hfollow ⊢
    refine follow_front h hrest ?_ hlocation slash hfollow
    intro _ _ _ _ _ herror
    cases herror
  | succ links ih =>
    unfold followLinks at hfollow ⊢
    refine follow_front h hrest ?_ hlocation slash hfollow
    intro location target parts slash hlocation hexpand
    dsimp only at hexpand ⊢
    rw [← List.append_assoc] at hexpand
    refine ih ?_ _ hexpand
    split
    . exact h.root
    . exact hlocation

theorem follow_followed
    {expand expand' : Location → String → List String → LastName → Except HostError Spot}
    {found : Location} {node : Node} {slash : Bool}
    (hlink : ∀ target modified, node ≠ .link target modified) (hexpand : ∀ location target rest,
      expand location target rest ⟨false, slash, false⟩ = .ok (.taken found node) →
        expand' location target rest ⟨true, slash, false⟩ = .ok (.taken found node))
    {location : Location} {parts : List String}
    (hfollow : disk.follow expand ⟨false, slash, false⟩ location parts = .ok (.taken found node)) :
    disk.follow expand' ⟨true, slash, false⟩ location parts = .ok (.taken found node) := by
  induction parts generalizing location with
  | nil =>
    unfold follow at hfollow ⊢
    exact hfollow
  | cons part rest ih =>
    by_cases hdot : part = "."
    . subst hdot
      rw [follow_dot] at hfollow ⊢
      exact ih hfollow
    . by_cases hdots : part = ".."
      . subst hdots
        rw [follow_dots] at hfollow ⊢
        exact ih hfollow
      . rw [follow_name hdot hdots, if_neg (by simp)] at hfollow ⊢
        split at hfollow
        . cases hfollow
        . next hshort =>
          rw [if_neg hshort]
          split at hfollow
          . split at hfollow
            all_goals cases hfollow
          . exact ih hfollow
          . exact hfollow
          . next target modified _ =>
            rw [if_neg (by simp)]
            split at hfollow
            . cases hfollow
              exact absurd rfl (hlink target modified)
            . exact hexpand location target rest hfollow

theorem followLinks_followed {links : Nat} {slash : Bool} {location found : Location}
    {parts : List String} {node : Node} (hlink : ∀ target modified, node ≠ .link target modified)
    (hfollow : disk.followLinks links ⟨false, slash, false⟩ location parts =
      .ok (.taken found node)) :
    disk.followLinks links ⟨true, slash, false⟩ location parts = .ok (.taken found node) := by
  induction links generalizing slash location parts with
  | zero =>
    unfold followLinks at hfollow ⊢
    refine follow_followed hlink ?_ hfollow
    intro _ _ _ herror
    cases herror
  | succ links ih =>
    unfold followLinks at hfollow ⊢
    refine follow_followed hlink ?_ hfollow
    intro _ _ _ hexpand
    exact ih hexpand

theorem find_of_findEntry {text : String} {found : Location} {node : Node}
    (hlink : ∀ target modified, node ≠ .link target modified)
    (hfind : disk.findEntry text = .ok (.taken found node)) :
    disk.find text = .ok (.taken found node) := by
  have hcheck := checkText_of_findWith hfind
  unfold findEntry findWith at hfind
  unfold find findWith
  rw [hcheck] at hfind ⊢
  exact followLinks_followed hlink hfind

theorem follow_resolved (h : disk.WellFormed)
    {expand : Location → String → List String → LastName → Except HostError Spot} {last : LastName}
    (hlast : last.follow = true) {found : Location} {node : Node}
    (hexpand : ∀ location target rest, disk.IsDirectoryAt location →
      expand location target rest last = .ok (.taken found node) → ∀ target modified,
        node ≠ .link target modified)
    {location : Location} (hlocation : disk.IsDirectoryAt location) {parts : List String}
    (hfollow : disk.follow expand last location parts = .ok (.taken found node)) (target : String)
    (modified : Time) :
    node ≠ .link target modified := by
  induction parts generalizing location with
  | nil =>
    obtain ⟨time, hnode⟩ := hlocation
    unfold follow at hfollow
    rw [hnode] at hfollow
    cases hfollow
    simp
  | cons part rest ih =>
    by_cases hdot : part = "."
    . subst hdot
      rw [follow_dot] at hfollow
      exact ih hlocation hfollow
    . by_cases hdots : part = ".."
      . subst hdots
        rw [follow_dots] at hfollow
        exact ih (h.directory_dropLast hlocation) hfollow
      . rw [follow_name hdot hdots] at hfollow
        split at hfollow
        . cases hfollow
        . split at hfollow
          . cases hfollow
          . split at hfollow
            . split at hfollow
              all_goals cases hfollow
            . next time hnode => exact ih ⟨time, hnode⟩ hfollow
            . split at hfollow
              . cases hfollow
                simp
              . cases hfollow
            . rw [if_neg (by simp [hlast])] at hfollow
              exact hexpand location _ rest hlocation hfollow target modified

theorem followLinks_resolved (h : disk.WellFormed) {links : Nat} {last : LastName}
    (hlast : last.follow = true) {location found : Location}
    (hlocation : disk.IsDirectoryAt location) {parts : List String} {node : Node}
    (hfollow : disk.followLinks links last location parts = .ok (.taken found node)) :
    ∀ target modified, node ≠ .link target modified := by
  induction links generalizing last location parts with
  | zero =>
    unfold followLinks at hfollow
    refine follow_resolved h hlast ?_ hlocation hfollow
    intro _ _ _ _ herror
    cases herror
  | succ links ih =>
    unfold followLinks at hfollow
    refine follow_resolved h hlast ?_ hlocation hfollow
    intro location target rest hlocation hexpand
    dsimp only at hexpand
    refine ih ?_ ?_ hexpand
    . exact hlast
    . split
      . exact h.root
      . exact hlocation

theorem find_resolved (h : disk.WellFormed) {text : String} {found : Location} {node : Node}
    (hfind : disk.find text = .ok (.taken found node)) :
    ∀ target modified, node ≠ .link target modified :=
  followLinks_resolved h rfl (h.start text) (followLinks_of_find hfind)

theorem openForReading_of_find {text : String} {found : Location} {id : Nat}
    (hfind : disk.find text = .ok (.taken found (.file id))) :
    disk.openForReading text = .ok id := by
  unfold openForReading
  rw [hfind]
  rfl

theorem readFile_of_find {text : String} {found : Location} {id : Nat}
    (hfind : disk.find text = .ok (.taken found (.file id))) :
    disk.readFile text = .ok (disk.contents id) := by
  unfold readFile
  rw [openForReading_of_find hfind]
  rfl

theorem isDirectory_of_find {text : String} {found : Location} {node : Node}
    (hfind : disk.find text = .ok (.taken found node)) :
    disk.isDirectory text = node.isDirectory := by
  unfold isDirectory metadata
  rw [hfind]
  cases node with
  | directory modified => rfl
  | link target modified => rfl
  | file id =>
    have hkind : (disk.describe (.file id)).kind = .file := by
      unfold describe
      dsimp only
      split <;> rfl
    change decide ((disk.describe (.file id)).kind = Kind.directory) = _
    rw [hkind]
    rfl

end LakeStore.Disk
