import LakeStore.Config.WhiteSpace
import LakeStore.Path.Host
import LakeStore.Toml.Document

/-!
The configuration of a file system: the name of the account, and where its store is kept. It is
read from a TOML document, and is valid when the account can stand in an address.
-/

namespace LakeStore

inductive StoreConfig where
  | memory
  | directory (root : String)
deriving DecidableEq, Repr

structure Config where
  account : String
  store : StoreConfig
deriving DecidableEq, Repr

inductive FormatError where
  | notToml
  | wrongType (field : String)
  | missing (field : String)
  | unknownKind (kind : String)
deriving DecidableEq, Repr

def FormatError.message : FormatError → String
  | .notToml => "not a TOML document"
  | .wrongType field => s!"wrong type of field {field}"
  | .missing field => "missing field `" ++ field ++ "`"
  | .unknownKind kind =>
    "unknown variant `" ++ kind ++ "`, expected `memory` or `directory`"

inductive InvalidConfig where
  | emptyAccount
  | badAccount (account : String)
  | relativeRoot (root : String)
deriving DecidableEq, Repr

def InvalidConfig.message : InvalidConfig → String
  | .emptyAccount => "account_fqdn must not be empty"
  | .badAccount account => s!"account_fqdn is not a valid host name: {account}"
  | .relativeRoot root => s!"store root must be absolute: {root}"

namespace StoreConfig

inductive Kind where
  | memory
  | directory
deriving DecidableEq, Repr

def Kind.ofValue : Toml.Value → Except FormatError Kind
  | .string "memory" => .ok .memory
  | .string "directory" => .ok .directory
  | .string other => .error (.unknownKind other)
  | _ => .error (.wrongType "kind")

def rootOfValue : Toml.Value → Except FormatError String
  | .string root => .ok root
  | _ => .error (.wrongType "root")

def ofEntries (entries : Toml.Entries) : Except FormatError StoreConfig := do
  let some kind := entries.lookup "kind" | throw (.missing "kind")
  match ← Kind.ofValue kind with
  | .memory => return .memory
  | .directory =>
    let some root := entries.lookup "root" | throw (.missing "root")
    return .directory (← rootOfValue root)

/--
Reads a store. In place of a table there may be an array, of the kind and then its root if it needs
one. A date counts as a table without these keys.
-/
def ofValue : Toml.Value → Except FormatError StoreConfig
  | .table _ entries => ofEntries entries
  | .array [] => .error (.missing "kind")
  | .array (kind :: rest) => do
    match ← Kind.ofValue kind, rest with
    | .memory, [] => return .memory
    | .directory, [root] => return .directory (← rootOfValue root)
    | _, _ => throw (.wrongType "store")
  | .dateTime _ => .error (.missing "kind")
  | _ => .error (.wrongType "store")

end StoreConfig

namespace Config

structure Fields where
  account? : Option String := none
  store? : Option StoreConfig := none

def Fields.read (fields : Fields) : String × Toml.Value → Except FormatError Fields
  | ("account_fqdn", .string account) => .ok { fields with account? := account }
  | ("account_fqdn", _) => .error (.wrongType "account_fqdn")
  | ("store", value) => do return { fields with store? := ← StoreConfig.ofValue value }
  | _ => .ok fields

def ofEntries (entries : Toml.Entries) : Except FormatError Config := do
  let fields ← entries.foldlM Fields.read {}
  let some account := fields.account? | throw (.missing "account_fqdn")
  let some store := fields.store? | throw (.missing "store")
  return ⟨account, store⟩

def parse (text : String) : Except FormatError Config :=
  match Toml.parse? text with
  | some entries => ofEntries entries
  | none => .error .notToml

def breaksAccount (c : Char) : Bool :=
  isWhiteSpace c || c = '/' || c = '?' || c = '#'

def validate (config : Config) : Except InvalidConfig Unit := do
  if config.account = "" then
    throw .emptyAccount
  if config.account.toList.any breaksAccount then
    throw (.badAccount config.account)
  match config.store with
  | .memory => return
  | .directory root =>
    unless HostPath.isAbsolute root do
      throw (.relativeRoot root)

end Config

end LakeStore
