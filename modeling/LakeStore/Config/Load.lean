import LakeStore.Config.Basic
import LakeStore.DirectoryClient
import LakeStore.Memory.Client

/-!
Loading a configuration from a file of the host, and using the store that it names.
-/

namespace LakeStore

inductive TextError where
  | host (error : HostError)
  | notUtf8
deriving DecidableEq, Repr

def TextError.message : TextError → String
  | .host error => error.message
  | .notUtf8 => "stream did not contain valid UTF-8"

def Disk.readText (disk : Disk) (path : String) : Except TextError String := do
  let data ← (disk.readFile path).mapError .host
  match String.fromUTF8? data with
  | some text => return text
  | none => throw .notUtf8

inductive ConfigError where
  | unreadable (path : String) (error : TextError)
  | malformed (path : String) (error : FormatError)
  | invalid (error : InvalidConfig)
  | rootRefused (root : String) (cause : HostError)
deriving DecidableEq, Repr

namespace ConfigError

def message : ConfigError → String
  | unreadable path error => s!"Failed to read {path}: {error.message}"
  | malformed path error => s!"Failed to parse {path}: {error.message}"
  | invalid error => error.message
  | rootRefused root _ => s!"Failed to create store root {root}"

def causes : ConfigError → List String
  | rootRefused _ cause => [cause.message]
  | _ => []

end ConfigError

namespace Config

def load (disk : Disk) (path : String) : Except ConfigError Config := do
  let text ← (disk.readText path).mapError (.unreadable path)
  let config ← (parse text).mapError (.malformed path)
  config.validate.mapError .invalid
  return config

def prepare (config : Config) : Step Disk ConfigError Unit := do
  Step.ofExcept (config.validate.mapError .invalid)
  match config.store with
  | .memory => return
  | .directory root => (Disk.createDirectories root).mapError (.rootRefused root)

/-- Uses the client of the configured store. A store in memory is empty at first, and then gone. -/
def withClient {ε α : Type} (config : Config)
    (use : (σ : Type) → [StoreClient σ] → Step σ ε α) : Step Disk ε α :=
  match config.store with
  | .memory =>
    (use MemoryClient).onPart (MemoryClient.new config.account) fun _ client => client.disk
  | .directory root =>
    (use DirectoryClient).onPart (⟨config.account, root, ·⟩) fun _ client => client.disk

end Config

end LakeStore
