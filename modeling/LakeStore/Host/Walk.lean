import LakeStore.Host.Disk

/-!
Walking a tree on a disk. A walk comes to a directory before what the directory holds, and lists it
only when the visit of the directory itself is over, so that it meets what the visit put there.
Links below the start are met and not followed; a start that is itself a link to a directory is met
as a link, and then its directory is walked. A directory is listed by the text of its path, and one
that cannot be listed is met a second time, as a failure.
-/

namespace LakeStore

inductive WalkItem where
  | found (names : List String) (node : Disk.Node)
  | failed (names : List String) (error : HostError)
deriving DecidableEq, Repr

namespace Disk

section visit

variable {α : Type} (visit : α → WalkItem → StateM Disk α) (start : String)

def visitBelow : (depth : Nat) → (names : List String) → α → StateM Disk α
  | 0, _, result => return result
  | depth + 1, names, result => do
    match (← get).entriesIn (HostPath.below start names) with
    | .error error => visit result (.failed names error)
    | .ok entries =>
      entries.foldlM (fun result (name, node) => do
        let names := names ++ [name]
        let result ← visit result (.found names node)
        if node.isDirectory then visitBelow depth names result else return result) result

/--
Visits an entry and all that lies below it. Each directory adds to the text of a path, so that no
walk is deeper than the text of a path can be long.
-/
def visitTree (result : α) : StateM Disk α := do
  match ((← get).findEntry start).bind Spot.node with
  | .error error => visit result (.failed [] error)
  | .ok node =>
    let result ← visit result (.found [] node)
    if (← get).isDirectory start then visitBelow visit start maxPath [] result else return result

end visit

def walk (disk : Disk) (start : String) : List WalkItem :=
  ((visitTree (fun items item => return items ++ [item]) start []).run disk).1

end Disk

end LakeStore
