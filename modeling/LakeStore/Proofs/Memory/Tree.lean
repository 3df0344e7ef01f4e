import LakeStore.Memory.Tree
import LakeStore.Proofs.Contents

/-!
The steps on a tree in memory, each with its outcome as one equation and with what the tree holds
afterwards. A step that is refused leaves the tree as it was.
-/

namespace LakeStore.Memory

def Node.content : Node → Content
  | .directory _ => .directory
  | .file data _ => .file data

def Node.modified : Node → Option Time
  | .directory modified => modified
  | .file _ modified => modified

namespace Tree

open StorePath

def contents (tree : Tree) : Contents := fun path =>
  (tree.get? path).map Node.content

variable {tree : Tree} {path : StorePath}

theorem contents_eq_directory_iff :
    tree.contents path = some .directory ↔ ∃ modified,
      tree.get? path = some (.directory modified) := by
  unfold contents
  cases tree.get? path with
  | none => simp
  | some node => cases node <;> simp [Node.content]

theorem contents_eq_file_iff {data : ByteArray} :
    tree.contents path = some (.file data) ↔
      ∃ modified, tree.get? path = some (.file data modified) := by
  unfold contents
  cases tree.get? path with
  | none => simp
  | some node => cases node <;> simp [Node.content, eq_comm]

theorem contents_eq_none_iff : tree.contents path = none ↔ tree.get? path = none := by
  simp [contents]

theorem contents_ne_link (tree : Tree) (path : StorePath) (target : String) :
    tree.contents path ≠ some (.link target) := by
  unfold contents
  cases tree.get? path with
  | none => simp
  | some node => cases node <;> simp [Node.content]

theorem contains_iff_contents : tree.contains path ↔ tree.contents path ≠ none := by
  simp [PathMap.contains, contents, Option.isSome_iff_ne_none]

theorem contents_insert (tree : Tree) (path : StorePath) (node : Node) :
    Tree.contents (tree.insert path node) =
      fun other => if other = path then some node.content else tree.contents other := by
  funext other
  unfold contents
  rw [PathMap.get?_insert]
  split
  all_goals rfl

theorem contents_erase (tree : Tree) (path : StorePath) :
    Tree.contents (tree.erase path) =
      fun other => if other = path then none else tree.contents other := by
  funext other
  unfold contents
  rw [PathMap.get?_erase]
  split
  all_goals rfl

theorem contents_eraseFrom (tree : Tree) (path : StorePath) :
    Tree.contents (tree.eraseFrom path) = tree.contents.without path := by
  funext other
  unfold contents Contents.without
  rw [PathMap.get?_eraseFrom]
  split
  all_goals rfl

theorem isFile_iff : tree.isFile path ↔ ∃ data, tree.contents path = some (.file data) := by
  unfold isFile contents
  cases tree.get? path with
  | none => simp
  | some node => cases node <;> simp [Node.content, Node.isDirectory]

theorem fileAbove?_eq_none_iff (h : tree.contents.WellFormed) :
    tree.fileAbove? path = none ↔ ¬ tree.contents.FileAbove path := by
  unfold fileAbove?
  rw [List.find?_eq_none, h.fileAbove_iff]
  simp only [isFile_iff, not_exists, not_and]

theorem get?_addParents (tree : Tree) (now : Time) (path other : StorePath) :
    (tree.addParents now path).get? other =
      if other ∈ path.ancestors then some ((tree.get? other).getD (.directory (some now)))
      else tree.get? other := by
  unfold addParents
  induction path.ancestors generalizing tree with
  | nil => simp
  | cons above rest ih =>
    rw [List.foldl_cons, ih]
    simp only [List.mem_cons]
    rw [PathMap.get?_insertIfNew]
    by_cases hrest : other ∈ rest
    . by_cases habove : other = above <;> simp [hrest, habove]
    . by_cases habove : other = above <;> simp [hrest, habove]

theorem makeParents_outcome (now : Time) (path : StorePath) (tree : Tree) :
    (makeParents now path).outcome tree =
      match fileAbove? tree path with
      | some parent => (.error (.parentIsFile path.text parent.text), tree)
      | none => (.ok (), tree.addParents now path) := by
  unfold makeParents
  rw [Step.outcome_bind_ok (Step.outcome_get tree)]
  cases fileAbove? tree path with
  | none => rfl
  | some parent => rfl

def putRefusal? (tree : Tree) (path : StorePath) (ifExists : IfExists) : Option ClientError :=
  match tree.get? path with
  | some (.directory _) => some (.directoryInTheWay path.text)
  | found =>
    if found.isSome ∧ ifExists = .fail then some (.alreadyExists path.text)
    else (tree.fileAbove? path).map fun parent => .parentIsFile path.text parent.text

theorem putFile_outcome (now : Time) (path : StorePath) (data : ByteArray) (ifExists : IfExists)
    (tree : Tree) :
    (putFile now path data ifExists).outcome tree =
      match tree.putRefusal? path ifExists with
      | some error => (.error error, tree)
      | none => (.ok (), (tree.addParents now path).insert path (.file data (some now))) := by
  have hparents : ∀ next : Unit → Step Tree ClientError Unit,
      (makeParents now path >>= next).outcome tree =
        match tree.fileAbove? path with
        | some parent => (.error (.parentIsFile path.text parent.text), tree)
        | none => (next ()).outcome (tree.addParents now path) := by
    intro next
    rw [Step.outcome_bind, makeParents_outcome]
    cases tree.fileAbove? path with
    | none => rfl
    | some parent => rfl
  unfold putFile putRefusal?
  rw [Step.outcome_bind_ok (Step.outcome_get tree)]
  cases hnode : tree.get? path with
  | none =>
    dsimp only
    rw [hparents]
    cases hfile : tree.fileAbove? path <;> simp
  | some node =>
    cases node with
    | directory modified => rfl
    | file old modified =>
      cases ifExists with
      | fail => rfl
      | overwrite =>
        dsimp only
        rw [if_neg (by simp), hparents]
        cases hfile : tree.fileAbove? path <;> simp

theorem createDirectory_run (now : Time) (path : StorePath) (tree : Tree) :
    (createDirectory now path).run tree =
      match tree.get? path with
      | some (.directory _) => (true, tree)
      | some (.file ..) => (false, tree)
      | none =>
        if (tree.fileAbove? path).isSome then (false, tree)
        else (true, (tree.addParents now path).insert path (.directory (some now))) := by
  unfold createDirectory
  cases hnode : tree.get? path with
  | none =>
    simp only [StateT.run_bind, StateT.run_get, pure_bind, hnode, Step.run_succeeds,
      makeParents_outcome]
    cases hfile : tree.fileAbove? path <;> rfl
  | some node =>
    cases node <;> simp only [StateT.run_bind, StateT.run_get, pure_bind, hnode] <;> rfl

def removable (tree : Tree) (path : StorePath) : Bool :=
  path ≠ [] && match tree.get? path with
    | none => false
    | some (.directory _) => (tree.below path).isEmpty
    | some (.file ..) => true

theorem delete_run (path : StorePath) (tree : Tree) :
    (delete path).run tree =
      if tree.removable path then (true, tree.erase path) else (false, tree) := by
  change StateT.run (if tree.removable path then
    (do set (tree.erase path); pure (tree.removable path)) else pure (tree.removable path)) tree = _
  cases tree.removable path <;> rfl

theorem deleteRecursive_run (path : StorePath) (tree : Tree) :
    (deleteRecursive path).run tree =
      if path ≠ [] && tree.contains path then (true, tree.eraseFrom path) else (false, tree) := by
  unfold deleteRecursive
  simp only [StateT.run_bind, StateT.run_get, pure_bind]
  cases (path ≠ [] && tree.contains path : Bool) <;> rfl

theorem append_outcome (now : Time) (path : StorePath) (data : ByteArray) (tree : Tree) :
    (append now path data).outcome tree =
      match tree.get? path with
      | some (.file old _) => (.ok (), tree.insert path (.file (old ++ data) (some now)))
      | _ => (.error (.removed path.text), tree) := by
  unfold append
  rw [Step.outcome_bind_ok (Step.outcome_get tree)]
  cases tree.get? path with
  | none => rfl
  | some node => cases node <;> rfl

theorem read_outcome (path : StorePath) (tree : Tree) :
    (read path).outcome tree =
      match tree.get? path with
      | some (.file data _) => (.ok data, tree)
      | some (.directory _) => (.error (.isDirectory path.text), tree)
      | none => (.error (.fileNotFound path.text none), tree) := by
  unfold read
  rw [Step.outcome_bind_ok (Step.outcome_get tree)]
  cases tree.get? path with
  | none => rfl
  | some node => cases node <;> rfl

theorem list_outcome (path : StorePath) (tree : Tree) :
    (list path).outcome tree =
      match tree.get? path with
      | some (.directory _) =>
        (.ok ((tree.children path).map fun (key, node) => node.entry key), tree)
      | some (.file ..) => (.error (.notDirectory path.text), tree)
      | none => (.error (.directoryNotFound path.text), tree) := by
  unfold list
  rw [Step.outcome_bind_ok (Step.outcome_get tree)]
  cases tree.get? path with
  | none => rfl
  | some node => cases node <;> rfl

theorem markPendingDelete_run (path : StorePath) (tree : Tree) :
    (markPendingDelete path).run tree =
      match tree.get? path with
      | some node => (true, tree.insert path node.withoutTime)
      | none => (false, tree) := by
  unfold markPendingDelete
  simp only [StateT.run_bind, StateT.run_get, pure_bind]
  cases tree.get? path <;> rfl

theorem putRefusal?_eq_none_iff (h : tree.contents.WellFormed) (ifExists : IfExists) :
    tree.putRefusal? path ifExists = none ↔
      tree.contents.CanPut path ∧ (ifExists = .fail → tree.contents path = none) := by
  have hfile : tree.fileAbove? path = none ↔ ¬ tree.contents.FileAbove path :=
    fileAbove?_eq_none_iff h
  unfold putRefusal? Contents.CanPut
  cases hnode : tree.get? path with
  | none =>
    have hnone := contents_eq_none_iff.mpr hnode
    simp [hfile, hnone]
  | some node =>
    have hsome : tree.contents path = some node.content := by
      rw [contents, hnode, Option.map_some]
    cases node with
    | directory modified => simp [hsome, Node.content]
    | file data modified => cases ifExists <;> simp [hfile, hsome, Node.content]

theorem contents_insert_addParents (h : tree.contents.WellFormed)
    (hfile : ¬ tree.contents.FileAbove path) (now : Time) (node : Node) :
    Tree.contents ((tree.addParents now path).insert path node) = fun other =>
      if other = path then some node.content
      else if Below other path then some .directory
      else tree.contents other := by
  rw [contents_insert]
  funext other
  split
  . rfl
  . unfold contents
    rw [get?_addParents]
    by_cases hbelow : Below other path
    . rw [if_pos hbelow]
      cases h.directory_of_not_fileAbove hfile hbelow with
      | inl hnone =>
        have hne : other ≠ [] := by
          rintro rfl
          rw [h.root] at hnone
          cases hnone
        rw [contents_eq_none_iff] at hnone
        simp [mem_ancestors, hbelow, hne, hnone, Node.content]
      | inr hdirectory =>
        rw [contents_eq_directory_iff] at hdirectory
        obtain ⟨modified, hnode⟩ := hdirectory
        split <;> simp [hnode, Node.content]
    . have hmem : other ∉ path.ancestors := by
        rw [mem_ancestors]
        exact fun hmem => hbelow hmem.2
      rw [if_neg hbelow, if_neg hmem]

theorem contents_putFile (h : tree.contents.WellFormed) (hput : tree.contents.CanPut path)
    (now : Time) (data : ByteArray) :
    Tree.contents ((tree.addParents now path).insert path (.file data (some now))) =
      tree.contents.put path data := by
  rw [contents_insert_addParents h hput.2]
  rfl

theorem contents_putDirectory (h : tree.contents.WellFormed)
    (hput : tree.contents.CanPutDirectory path) (now : Time) :
    Tree.contents ((tree.addParents now path).insert path (.directory (some now))) =
      tree.contents.putDirectory path := by
  rw [contents_insert_addParents h hput.2]
  funext other
  unfold Contents.putDirectory
  by_cases heq : other = path
  . simp [heq, Node.content]
  . simp [heq, prefix_iff_eq_or_below]

theorem createDirectory_of_canPut (h : tree.contents.WellFormed)
    (hput : tree.contents.CanPutDirectory path) (now : Time) :
    ∃ after, (createDirectory now path).run tree = (true, after) ∧
      after.contents = tree.contents.putDirectory path := by
  rw [createDirectory_run]
  cases hnode : tree.get? path with
  | none =>
    have hfile := (fileAbove?_eq_none_iff h).mpr hput.2
    dsimp only
    rw [hfile, if_neg (by simp)]
    exact ⟨_, rfl, contents_putDirectory h hput now⟩
  | some node =>
    cases node with
    | directory modified =>
      refine ⟨tree, rfl, ?_⟩
      rw [h.isTree.putDirectory_eq_self]
      exact contents_eq_directory_iff.mpr ⟨modified, hnode⟩
    | file data modified =>
      have := contents_eq_file_iff.mpr ⟨modified, hnode⟩
      exact absurd this (hput.1 data)

theorem createDirectory_of_not_canPut (h : tree.contents.WellFormed)
    (hput : ¬ tree.contents.CanPutDirectory path) (now : Time) :
    (createDirectory now path).run tree = (false, tree) := by
  rw [createDirectory_run]
  cases hnode : tree.get? path with
  | none =>
    have hnone := contents_eq_none_iff.mpr hnode
    have hfile : tree.fileAbove? path ≠ none := by
      rw [ne_eq, fileAbove?_eq_none_iff h]
      intro hfile
      exact hput ⟨by simp [hnone], hfile⟩
    dsimp only
    rw [if_pos (by simpa [Option.isSome_iff_ne_none] using hfile)]
  | some node =>
    cases node with
    | directory modified =>
      have hdirectory := contents_eq_directory_iff.mpr ⟨modified, hnode⟩
      exact absurd (h.isTree.canPutDirectory hdirectory) hput
    | file data modified => rfl

theorem removable_iff (h : tree.contents.WellFormed) :
    tree.removable path ↔ tree.contents.CanDelete path := by
  have hbelow : (tree.below path).isEmpty ↔ ∀ other,
      Below path other → tree.contents other = none := by
    rw [List.isEmpty_iff, List.eq_nil_iff_forall_not_mem]
    constructor
    . intro hnone other hother
      rw [contents_eq_none_iff]
      cases hget : tree.get? other with
      | none => rfl
      | some node =>
        have := (PathMap.mem_below_iff tree path other node).mpr ⟨hother, hget⟩
        exact absurd this (hnone _)
    . rintro hnone ⟨other, node⟩ hmem
      rw [PathMap.mem_below_iff] at hmem
      have := contents_eq_none_iff.mp (hnone other hmem.1)
      rw [hmem.2] at this
      cases this
  unfold removable Contents.CanDelete
  cases hnode : tree.get? path with
  | none =>
    have hnone := contents_eq_none_iff.mpr hnode
    simp [hnone]
  | some node =>
    have hsome : tree.contents path = some node.content := by
      rw [contents, hnode, Option.map_some]
    cases node with
    | directory modified => simp [hsome, hbelow]
    | file data modified =>
      have hall : ∀ other, Below path other → tree.contents other = none :=
        fun other hother => h.isTree.none_below_file hsome hother
      simpa [hsome] using fun _ => hall

theorem contents_erase_of_canDelete (hdelete : tree.contents.CanDelete path) :
    Tree.contents (tree.erase path) = tree.contents.without path := by
  rw [contents_erase, Contents.without_of_canDelete hdelete]

end Tree

end LakeStore.Memory
