import LakeStore.Proofs.Memory.Invariant
import Mathlib.Data.List.Find

/-!
The steps on a tree are local. What a step at a path answers and changes depends on no more than
what is at the path and below it, and on the files above it. So steps at paths that are apart from
each other can be taken in any order.
-/

namespace LakeStore

open StorePath

namespace StorePath

structure Apart (path other : StorePath) : Prop where
  left : ¬ path <+: other
  right : ¬ other <+: path

variable {path other key : StorePath}

instance : Decidable (Apart path other) :=
  decidable_of_iff (¬ path <+: other ∧ ¬ other <+: path) ⟨fun h => ⟨h.1, h.2⟩, fun h =>
    ⟨h.left, h.right⟩⟩

theorem Apart.symm (h : Apart path other) : Apart other path :=
  ⟨h.right, h.left⟩

theorem Apart.not_prefix (h : Apart path other) (hkey : path <+: key) : ¬ other <+: key := by
  intro hother
  cases List.prefix_or_prefix_of_prefix hkey hother with
  | inl hpre => exact h.left hpre
  | inr hpre => exact h.right hpre

theorem Apart.not_below (h : Apart path other) (hkey : path <+: key) : ¬ Below key other :=
  fun hbelow => h.left (hkey.trans hbelow.1)

end StorePath

inductive Change where
  | nothing
  | put (content : Content)
  | remove

namespace Change

variable {contents : Contents} {path other key : StorePath}

def apply (path : StorePath) (contents : Contents) : Change → Contents
  | nothing => contents
  | put content => fun key =>
    if key = path then some content else if Below key path then some .directory else contents key
  | remove => contents.without path

def Possible (path : StorePath) (contents : Contents) : Change → Prop
  | put _ => ¬ contents.FileAbove path
  | _ => True

theorem apply_of_apart (h : Apart path other) (change : Change) (hkey : path <+: key) :
    change.apply other contents key = contents key := by
  cases change with
  | nothing => rfl
  | put content =>
    have hne : key ≠ other := fun heq => h.left (heq ▸ hkey)
    unfold apply
    dsimp only
    rw [if_neg hne, if_neg (h.not_below hkey)]
  | remove =>
    unfold apply Contents.without
    dsimp only
    rw [if_neg (h.not_prefix hkey)]

theorem apply_congr {contents other : Contents} (change : Change) (h : other key = contents key) :
    change.apply path other key = change.apply path contents key := by
  cases change with
  | nothing => exact h
  | put content =>
    unfold apply
    dsimp only
    rw [h]
  | remove =>
    unfold apply Contents.without
    dsimp only
    rw [h]

def isPut : Change → Bool
  | put _ => true
  | _ => false

theorem apply_outside (change : Change) (hkey : ¬ path <+: key) :
    change.apply path contents key =
      if change.isPut ∧ Below key path then some .directory else contents key := by
  cases change with
  | nothing => simp [apply, isPut]
  | put content =>
    have hne : key ≠ path := fun heq => hkey (heq ▸ List.prefix_rfl)
    simp [apply, isPut, hne]
  | remove => simp [apply, isPut, Contents.without, hkey]

theorem apply_comm (h : Apart path other) (first second : Change) (contents : Contents) :
    first.apply path (second.apply other contents) =
      second.apply other (first.apply path contents) := by
  funext key
  by_cases hpath : path <+: key
  . rw [apply_of_apart h second hpath]
    exact apply_congr first (apply_of_apart h second hpath)
  . by_cases hother : other <+: key
    . rw [apply_of_apart h.symm first hother]
      exact (apply_congr second (apply_of_apart h.symm first hother)).symm
    . rw [apply_outside first hpath, apply_outside second hother, apply_outside second hother,
        apply_outside first hpath]
      by_cases hfirst : first.isPut ∧ Below key path
      . rw [if_pos hfirst, if_pos hfirst, ite_self]
      . rw [if_neg hfirst, if_neg hfirst]

theorem apply_put_directory (contents : Contents) (path : StorePath) :
    (put .directory).apply path contents = contents.putDirectory path := by
  funext key
  unfold apply Contents.putDirectory
  dsimp only
  by_cases heq : key = path
  . rw [if_pos heq, if_pos (heq ▸ List.prefix_rfl)]
  . simp [heq, prefix_iff_eq_or_below]

end Change

namespace Contents

structure Alike (path : StorePath) (contents other : Contents) : Prop where
  within : ∀ key, path <+: key → other key = contents key
  above : ∀ key data,
    Below key path → (other key = some (.file data) ↔ contents key = some (.file data))

variable {contents other : Contents} {path : StorePath}

theorem alike_of_eq (h : contents = other) (path : StorePath) : Alike path contents other := by
  subst h
  exact ⟨fun _ _ => rfl, fun _ _ _ => Iff.rfl⟩

theorem Alike.here (h : Alike path contents other) : other path = contents path :=
  h.within path List.prefix_rfl

theorem Alike.fileAbove_iff (h : Alike path contents other) :
    other.FileAbove path ↔ contents.FileAbove path := by
  unfold FileAbove
  constructor
  . rintro ⟨above, data, hbelow, hfile⟩
    exact ⟨above, data, hbelow, (h.above above data hbelow).mp hfile⟩
  . rintro ⟨above, data, hbelow, hfile⟩
    exact ⟨above, data, hbelow, (h.above above data hbelow).mpr hfile⟩

theorem Alike.canPutDirectory_iff (h : Alike path contents other) :
    other.CanPutDirectory path ↔ contents.CanPutDirectory path := by
  unfold CanPutDirectory
  rw [h.here, h.fileAbove_iff]

theorem Alike.canDelete_iff (h : Alike path contents other) :
    other.CanDelete path ↔ contents.CanDelete path := by
  have hbelow : (∀ key, Below path key → other key = none) ↔ ∀ key,
      Below path key → contents key = none := by
    constructor
    . intro hnone key hkey
      rw [← h.within key hkey.1]
      exact hnone key hkey
    . intro hnone key hkey
      rw [h.within key hkey.1]
      exact hnone key hkey
  unfold CanDelete
  rw [h.here, hbelow]

theorem alike_apply {place : StorePath} (h : Apart path place)
    {change : Change} (hchange : change.Possible place contents) :
    Alike path contents (change.apply place contents) := by
  constructor
  . intro key hkey
    exact change.apply_of_apart h hkey
  . intro key data hkey
    have hplace : ¬ place <+: key := fun hpre => h.right (hpre.trans hkey.1)
    rw [change.apply_outside hplace]
    split
    . next hput =>
      -- No file is on the way to a place where something can be put.
      have hfile : ¬ contents.FileAbove place := by
        cases change with
        | put content => exact hchange
        | nothing => cases hput.1
        | remove => cases hput.1
      constructor
      . intro hdirectory
        cases hdirectory
      . intro hfound
        exact absurd ⟨key, data, hput.2, hfound⟩ hfile
    . exact Iff.rfl

end Contents

namespace Memory.Tree

variable {ρ : Type} {tree other : Tree} {path : StorePath}

structure LocalAt (path : StorePath) (step : Time → Tree → ρ × Tree) : Prop where
  wellFormed : ∀ {tree}, tree.contents.WellFormed → ∀ now, (step now tree).2.contents.WellFormed
  alike : ∀ {tree other}, tree.contents.WellFormed → other.contents.WellFormed →
    Contents.Alike path tree.contents other.contents →
      ∃ change : Change, change.Possible path tree.contents ∧
      ∀ now now', (step now' other).1 = (step now tree).1 ∧
        (step now tree).2.contents = change.apply path tree.contents ∧
        (step now' other).2.contents = change.apply path other.contents

theorem LocalAt.map {ρ' : Type} {step : Time → Tree → ρ × Tree} (h : LocalAt path step)
    (describe : ρ → ρ') :
    LocalAt path fun now tree => (describe (step now tree).1, (step now tree).2) := by
  constructor
  . exact h.wellFormed
  . intro tree other htree hother halike
    obtain ⟨change, hchange, hstep⟩ := h.alike htree hother halike
    refine ⟨change, hchange, fun now now' => ?_⟩
    obtain ⟨hanswer, hafter⟩ := hstep now now'
    exact ⟨congrArg describe hanswer, hafter⟩

theorem fileAbove?_of_alike (h : Contents.Alike path tree.contents other.contents) :
    other.fileAbove? path = tree.fileAbove? path := by
  unfold fileAbove?
  apply List.find?_congr
  intro above hmem
  rw [mem_ancestors] at hmem
  rw [Bool.eq_iff_iff, isFile_iff, isFile_iff]
  exact exists_congr fun data => h.above above data hmem.2

theorem get?_of_alike (h : Contents.Alike path tree.contents other.contents) :
    match tree.get? path with
    | some (.directory _) => ∃ modified, other.get? path = some (.directory modified)
    | some (.file data _) => ∃ modified, other.get? path = some (.file data modified)
    | none => other.get? path = none := by
  split
  . next modified hnode =>
    rw [← contents_eq_directory_iff, h.here, contents_eq_directory_iff]
    exact ⟨modified, hnode⟩
  . next data modified hnode =>
    rw [← contents_eq_file_iff, h.here, contents_eq_file_iff]
    exact ⟨modified, hnode⟩
  . next hnone =>
    rw [← contents_eq_none_iff, h.here, contents_eq_none_iff]
    exact hnone

theorem putRefusal?_of_alike (h : Contents.Alike path tree.contents other.contents)
    (ifExists : IfExists) :
    other.putRefusal? path ifExists = tree.putRefusal? path ifExists := by
  have hnode := get?_of_alike h
  unfold putRefusal?
  rw [fileAbove?_of_alike h]
  split at hnode
  . next hdirectory =>
    obtain ⟨modified, hother⟩ := hnode
    rw [hdirectory, hother]
  . next hfile =>
    obtain ⟨modified, hother⟩ := hnode
    rw [hfile, hother]
    rfl
  . next hnone => rw [hnone, hnode]

theorem putFile_local (hpath : path.Canonical) (data : ByteArray) (ifExists : IfExists) :
    LocalAt path fun now tree => (putFile now path data ifExists).outcome tree := by
  constructor
  . intro tree h now
    exact putFile_wellFormed h hpath now data ifExists
  . intro tree other htree hother halike
    simp only [putFile_outcome, putRefusal?_of_alike halike]
    cases hrefusal : tree.putRefusal? path ifExists with
    | some error => exact ⟨.nothing, trivial, fun _ _ => ⟨rfl, rfl, rfl⟩⟩
    | none =>
      have hrefusal' := putRefusal?_of_alike halike ifExists
      rw [hrefusal, putRefusal?_eq_none_iff hother] at hrefusal'
      rw [putRefusal?_eq_none_iff htree] at hrefusal
      refine ⟨.put (.file data), hrefusal.1.2, fun now now' => ⟨rfl, ?_, ?_⟩⟩
      . exact contents_putFile htree hrefusal.1 now data
      . exact contents_putFile hother hrefusal'.1 now' data

theorem createDirectory_local (hpath : path.Canonical) :
    LocalAt path fun now tree => (createDirectory now path).run tree := by
  constructor
  . intro tree h now
    exact createDirectory_wellFormed h hpath now
  . intro tree other htree hother halike
    by_cases hput : tree.contents.CanPutDirectory path
    . refine ⟨.put .directory, hput.2, fun now now' => ?_⟩
      obtain ⟨after, hrun, hafter⟩ := createDirectory_of_canPut htree hput now
      obtain ⟨after', hrun', hafter'⟩ :=
        createDirectory_of_canPut hother (halike.canPutDirectory_iff.mpr hput) now'
      simp only [hrun, hrun', Change.apply_put_directory]
      exact ⟨trivial, hafter, hafter'⟩
    . have hput' : ¬ other.contents.CanPutDirectory path := fun hcan =>
        hput (halike.canPutDirectory_iff.mp hcan)
      refine ⟨.nothing, trivial, fun now now' => ?_⟩
      simp only [createDirectory_of_not_canPut htree hput,
        createDirectory_of_not_canPut hother hput']
      exact ⟨trivial, rfl, rfl⟩

theorem delete_local (path : StorePath) : LocalAt path fun _ tree => (delete path).run tree := by
  constructor
  . intro tree h _
    exact delete_wellFormed h path
  . intro tree other htree hother halike
    have hremovable : other.removable path = tree.removable path := by
      rw [Bool.eq_iff_iff, removable_iff hother, removable_iff htree]
      exact halike.canDelete_iff
    simp only [delete_run, hremovable]
    split
    . next hdelete =>
      have hdelete' := hdelete
      rw [← hremovable, removable_iff hother] at hdelete'
      rw [removable_iff htree] at hdelete
      refine ⟨.remove, trivial, fun _ _ => ⟨rfl, ?_, ?_⟩⟩
      . exact contents_erase_of_canDelete hdelete
      . exact contents_erase_of_canDelete hdelete'
    . exact ⟨.nothing, trivial, fun _ _ => ⟨rfl, rfl, rfl⟩⟩

theorem deleteRecursive_local (path : StorePath) :
    LocalAt path fun _ tree => (deleteRecursive path).run tree := by
  constructor
  . intro tree h _
    exact deleteRecursive_wellFormed h path
  . intro tree other htree hother halike
    have hcontains : other.contains path = tree.contains path := by
      rw [Bool.eq_iff_iff, contains_iff_contents, contains_iff_contents, halike.here]
    simp only [deleteRecursive_run, hcontains]
    split
    . refine ⟨.remove, trivial, fun _ _ => ⟨rfl, ?_, ?_⟩⟩
      . exact contents_eraseFrom tree path
      . exact contents_eraseFrom other path
    . exact ⟨.nothing, trivial, fun _ _ => ⟨rfl, rfl, rfl⟩⟩

theorem contents_ne_none {node : Node} (h : tree.get? path = some node) :
    tree.contents path ≠ none := by
  rw [ne_eq, contents_eq_none_iff, h]
  simp

theorem contents_insert_present (h : tree.contents.WellFormed) {old : Node}
    (hold : tree.get? path = some old) (new : Node) :
    Tree.contents (tree.insert path new) = (Change.put new.content).apply path tree.contents := by
  rw [contents_insert]
  funext key
  unfold Change.apply
  dsimp only
  split
  . rfl
  . split
    . next hbelow => exact h.closed path key (contents_ne_none hold) hbelow
    . rfl

theorem append_local (path : StorePath) (data : ByteArray) :
    LocalAt path fun now tree => (append now path data).outcome tree := by
  constructor
  . intro tree h now
    exact append_wellFormed h now path data
  . intro tree other htree hother halike
    simp only [append_outcome]
    have hnode := get?_of_alike halike
    split at hnode
    . next hdirectory =>
      obtain ⟨modified, hnode'⟩ := hnode
      rw [hdirectory, hnode']
      exact ⟨.nothing, trivial, fun _ _ => ⟨rfl, rfl, rfl⟩⟩
    . next old _ hfile =>
      obtain ⟨modified, hfile'⟩ := hnode
      rw [hfile, hfile']
      refine ⟨.put (.file (old ++ data)), ?_, fun now now' => ⟨rfl, ?_, ?_⟩⟩
      . exact htree.isTree.not_fileAbove (contents_ne_none hfile)
      . exact contents_insert_present htree hfile _
      . exact contents_insert_present hother hfile' _
    . next hnone =>
      rw [hnone, hnode]
      exact ⟨.nothing, trivial, fun _ _ => ⟨rfl, rfl, rfl⟩⟩

section

variable {ρ' : Type} {step first : Time → Tree → ρ × Tree} {second : Time → Tree → ρ' × Tree}
  {place : StorePath}

theorem LocalAt.of_contents_eq (h : LocalAt path step) (htree : tree.contents.WellFormed)
    (heq : other.contents = tree.contents) (now now' : Time) :
    (step now' other).1 = (step now tree).1 ∧ (step now' other).2.contents =
      (step now tree).2.contents := by
  have hother : other.contents.WellFormed := heq ▸ htree
  obtain ⟨change, _, hstep⟩ := h.alike htree hother (Contents.alike_of_eq heq.symm path)
  obtain ⟨hanswer, hafter, hafter'⟩ := hstep now now'
  refine ⟨hanswer, ?_⟩
  rw [hafter, hafter', heq]

theorem LocalAt.commute (hfirst : LocalAt path first) (hsecond : LocalAt place second)
    (h : Apart path place) (htree : tree.contents.WellFormed) (now now' : Time) :
    (second now' (first now tree).2).1 = (second now' tree).1 ∧
      (second now' (first now tree).2).2.contents =
        (first now (second now' tree).2).2.contents := by
  have hself := Contents.alike_of_eq (rfl : tree.contents = tree.contents)
  obtain ⟨change, hchange, hmake⟩ := hfirst.alike htree htree (hself path)
  obtain ⟨change', hchange', hmake'⟩ := hsecond.alike htree htree (hself place)
  have hafter := (hmake now now).2.1
  have hafter' := (hmake' now' now').2.1
  have halike : Contents.Alike place tree.contents (first now tree).2.contents := by
    rw [hafter]
    exact Contents.alike_apply h.symm hchange
  have halike' : Contents.Alike path tree.contents (second now' tree).2.contents := by
    rw [hafter']
    exact Contents.alike_apply h hchange'
  obtain ⟨again, _, hagain⟩ := hsecond.alike htree (hfirst.wellFormed htree now) halike
  obtain ⟨again', _, hagain'⟩ := hfirst.alike htree (hsecond.wellFormed htree now') halike'
  refine ⟨(hagain now' now').1, ?_⟩
  rw [(hagain now' now').2.2, (hagain' now now).2.2, (hagain now' now').2.1, (hagain' now now).2.1]
  exact Change.apply_comm h.symm again again' tree.contents

end

end Memory.Tree

end LakeStore
