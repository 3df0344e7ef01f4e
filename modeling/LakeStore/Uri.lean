import LakeStore.Path.Basic

/-!
Addresses of entries: `scheme://account/path`. The path of an address is always absolute and free of
dot segments. Reading one drops a query and a fragment, which do not take part in addressing.
-/

namespace LakeStore

structure RemoteUri where
  scheme : String
  account : String
  path : String
deriving DecidableEq, Repr

inductive UriError where
  | missingScheme (text : String)
  | invalidScheme (text : String)
  | missingAccount (text : String)
deriving DecidableEq, Repr

def UriError.message : UriError → String
  | .missingScheme text => s!"Missing scheme in URI: {text}"
  | .invalidScheme text => s!"Invalid scheme in URI: {text}"
  | .missingAccount text => s!"Missing account in URI: {text}"

namespace RemoteUri

def storeScheme : String := "adl"

def ofPath (account path : String) : RemoteUri where
  scheme := storeScheme
  account := account
  path := absolutePath path

def text (uri : RemoteUri) : String :=
  uri.scheme ++ "://" ++ uri.account ++ uri.path

instance : ToString RemoteUri where
  toString uri := uri.text

def cutAt (mark : List Char) : List Char → Option (List Char × List Char)
  | [] => if mark = [] then some ([], []) else none
  | c :: rest =>
    if mark <+: c :: rest then
      some ([], (c :: rest).drop mark.length)
    else
      (cutAt mark rest).map fun (before, after) => (c :: before, after)

def isSchemeChar (c : Char) : Bool :=
  c.isAlphanum || c = '+' || c = '-' || c = '.'

/-- The characters that end the part of an address that leads to an entry. -/
def endsPath (c : Char) : Bool :=
  c = '?' || c = '#'

def parse (text : String) : Except UriError RemoteUri := do
  let some (scheme, rest) := cutAt "://".toList text.toList | throw (.missingScheme text)
  if scheme = [] ∨ ¬ scheme.all isSchemeChar then
    throw (.invalidScheme text)
  let rest := rest.takeWhile (!endsPath ·)
  let account := rest.takeWhile (· ≠ '/')
  let path := rest.dropWhile (· ≠ '/')
  if account = [] then
    throw (.missingAccount text)
  return {
    scheme := String.ofList (scheme.map Char.toLower)
    account := String.ofList account
    path := absolutePath (String.ofList path) }

instance : Ord RemoteUri where
  compare a b :=
    ((compare a.scheme b.scheme).then (compare a.account b.account)).then (compare a.path b.path)

end RemoteUri

end LakeStore
