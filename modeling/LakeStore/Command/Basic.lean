import LakeStore.Config.Basic

/-!
The commands of the program, and how they are read from its arguments.
-/

namespace LakeStore

/-- A command. Paths of the store may be given as whole addresses. -/
inductive Command where
  | exists? (path : String)
  | stat (path : String)
  | ls (path : String)
  | mkdir (path : String)
  | rm (path : String)
  | rmdir (path : String)
  | put (source remote : String)
  | get (remote target : String)
  | cat (path : String)
  | write (remote text : String)
  | uri (path : String)
deriving DecidableEq, Repr

structure Invocation where
  config? : Option String
  command : Command
deriving DecidableEq, Repr

inductive UsageError where
  | noConfigPath
  | noCommand
  | badCommand (name : String)
deriving DecidableEq, Repr

def usage : String := "usage: datalakefs [-c config.toml] <command> [args]

commands:
  exists <path>            print whether an entry exists
  stat <path>              print modification time and length
  ls <path>                list the children of a directory
  mkdir <path>             create a directory
  rm <path>                delete a file or empty directory
  rmdir <path>             recursively delete a directory
  put <local> <remote>     upload a local file or tree
  get <remote> <local>     download a remote file or tree
  cat <remote>             write a remote file to stdout
  write <remote> <text>    create or overwrite a remote file with text
  uri <path>               print the canonical URI for a path

A store with kind = \"memory\" is empty on every run and only accepts `uri`."

def UsageError.message (error : UsageError) : String :=
  reason error ++ "\n\n" ++ usage
where
  reason : UsageError → String
    | .noConfigPath => "-c requires a path"
    | .noCommand => "missing command"
    | .badCommand name => s!"invalid command or arguments: {name}"

namespace Command

def ofWords? : List String → Option Command
  | ["exists", path] => some (.exists? path)
  | ["stat", path] => some (.stat path)
  | ["ls", path] => some (.ls path)
  | ["mkdir", path] => some (.mkdir path)
  | ["rm", path] => some (.rm path)
  | ["rmdir", path] => some (.rmdir path)
  | ["put", source, remote] => some (.put source remote)
  | ["get", remote, target] => some (.get remote target)
  | ["cat", path] => some (.cat path)
  | ["write", remote, text] => some (.write remote text)
  | ["uri", path] => some (.uri path)
  | _ => none

def parse : List String → Except UsageError Command
  | [] => .error .noCommand
  | name :: operands =>
    match ofWords? (name :: operands) with
    | some command => .ok command
    | none => .error (.badCommand name)

/-- Whether a command can be used with a store. One in memory is gone after each run. -/
def suits (command : Command) : StoreConfig → Bool
  | .directory _ => true
  | .memory =>
    match command with
    | .uri _ => true
    | _ => false

end Command

namespace Invocation

def parse : List String → Except UsageError Invocation
  | ["-c"] => .error .noConfigPath
  | "-c" :: path :: rest => return ⟨path, ← Command.parse rest⟩
  | arguments => return ⟨none, ← Command.parse arguments⟩

def defaultConfig : String := "datalakefs.toml"

def configPath (invocation : Invocation) (environment? : Option String) : String :=
  (invocation.config? <|> environment?).getD defaultConfig

end Invocation

end LakeStore
