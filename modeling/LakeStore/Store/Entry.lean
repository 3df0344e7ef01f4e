import LakeStore.Time

/-!
What a store tells about its entries.
-/

namespace LakeStore

inductive EntryType where
  | file
  | directory
deriving DecidableEq, Repr

inductive IfExists where
  | overwrite
  | fail
deriving DecidableEq, Repr

structure Entry where
  fullName : String
  type : EntryType
  /-- An entry without a time of modification is about to be deleted. -/
  modified : Option Time
  length : Nat
deriving DecidableEq, Repr

def Entry.isDirectory (entry : Entry) : Bool :=
  entry.type = .directory

end LakeStore
