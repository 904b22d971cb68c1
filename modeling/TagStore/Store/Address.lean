import TagStore.Store.Error
import TagStore.Store.Location
import TagStore.Text.Percent

namespace TagStore.Address

/-- The parts of a path, each reached from the parts before it, of which `base` are known. -/
def resolve (base : List String) : List String → List String
  | [] => base
  | part :: parts =>
    if part = "" ∨ part = "." then resolve base parts
    else if part = ".." then resolve base.dropLast parts
    else resolve (base ++ [part]) parts

def normalize (path : String) : String :=
  let parts := resolve [] ((Text.splitAll '/' path.toList).map String.ofList)
  (if Text.beginsWith path "/" then "/" else "") ++ String.intercalate "/" parts

/-- The name that a path gives to its database: the URL of the path without any of the schemes that
it begins with, first those with slashes. -/
def databaseName (path : String) : List Char :=
  let scheme := Location.scheme.toList
  Text.dropStems scheme (Text.dropStems (scheme ++ ['/', '/']) (scheme ++ path.toList))

/-- What follows the host, which has to be this one. -/
def afterHost? : List Char → Option (List Char)
  | '/' :: '/' :: rest =>
    let host := String.ofList (rest.takeWhile (· ≠ '/'))
    if host = "" ∨ host = "localhost" then some (rest.dropWhile (· ≠ '/')) else none
  | rest => some rest

/-- The path of a name. A name may be a `file:` URL, which is percent-encoded once more and has no
room for parameters either; its fragment does not count. -/
def filePath? (name : String) : Option String :=
  match Text.dropStem? "file:".toList name.toList with
  | none => some name
  | some rest => do
    let path := (← afterHost? rest).takeWhile (· ≠ '#')
    guard !path.contains '?'
    (Percent.decode (String.ofList path)).toOption

def shared : String := ":memory:"

/-- A database that only the connection knows which opened it. A store has several connections, so
this is of no use to it. -/
def isPrivate (path : String) : Bool := path.isEmpty || path = shared

/-- The file that a path leads to, or `none` for a database that all connections of a store share
until it is closed. A path may be percent-encoded, and has no room for parameters. -/
def read (path : String) : Except StoreError (Option String) := do
  let name := databaseName path
  if name.contains '?' then throw .database
  if name = shared.toList then return none
  let some path := (Percent.decode (String.ofList name)).toOption.bind filePath? | throw .database
  if isPrivate path || path.toList.contains '\x00' then throw .database
  return some (normalize path)

end TagStore.Address
