import LakeStore.Path.Host

/-!
Where an entry goes in a transfer: a path below a local directory is carried to the store with
`joinRemote`, and a path below a store directory to the local disk with `localTarget`.
-/

namespace LakeStore

/-- The store path of what lies at `relative` below `base`. -/
def joinRemote (base relative : String) : String :=
  let joined := trimmed base ++ slashed (HostPath.components relative)
  if joined = "" then "/" else joined
where
  trimmed (text : String) : String :=
    String.ofList (text.toList.reverse.dropWhile (· = '/')).reverse

/-- The local path for the store path `path` when the entry at `root` is carried to `localRoot`. -/
def localTarget (localRoot root path : String) : String :=
  let top := (joinRemote.trimmed root).toList
  let rest := if top <+: path.toList then path.toList.drop top.length else path.toList
  let relative := String.ofList (rest.dropWhile (· = '/'))
  if relative = "" then localRoot else HostPath.join localRoot relative

end LakeStore
