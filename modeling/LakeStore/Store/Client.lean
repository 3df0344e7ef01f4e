import LakeStore.Step
import LakeStore.Store.Entry
import LakeStore.Store.Transfer

/-!
Store clients: the calls through which a store is used, whatever keeps it. A client is its state,
which holds all that its calls may change.
-/

namespace LakeStore

abbrev ClientM (σ : Type) := Step σ ClientError

/--
The calls of a client. A call that answers with a truth value answers `false` when the store refuses
the request. The paths of entries and the local paths of transfers are texts in any spelling.
-/
class StoreClient (σ : Type) where
  Reader : Type
  Writer : Type
  account : σ → String
  exists? : String → ClientM σ Bool
  openReader : String → ClientM σ Reader
  createFile : String → IfExists → ClientM σ Writer
  delete : String → ClientM σ Bool
  createDirectory : String → ClientM σ Bool
  deleteRecursive : String → ClientM σ Bool
  entryAt? : String → ClientM σ (Option Entry)
  list : String → ClientM σ (List Entry)
  upload (source path : String) : ClientM σ Transfer
  download (path target : String) : ClientM σ Transfer
  read : Reader → Option Nat → StateM σ (ByteArray × Reader)
  write : Writer → ByteArray → Step σ StreamError Writer

namespace StoreClient

variable {σ : Type} [StoreClient σ]

def readAll (reader : Reader σ) : StateM σ ByteArray := do
  return (← read reader none).1

def writeAll (writer : Writer σ) (data : ByteArray) : Step σ StreamError (Writer σ) :=
  if data.isEmpty then return writer else write writer data

end StoreClient

end LakeStore
