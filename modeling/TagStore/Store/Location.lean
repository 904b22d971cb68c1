import TagStore.Text.Blank
import TagStore.Text.Split

namespace TagStore

inductive Location where
  | file (path : String)
  /-- A database of its own that lasts as long as the store is open. -/
  | transient
  | memory
deriving DecidableEq, Repr

namespace Location

inductive Fault where
  | noPath (url : String)
  | unsupported (url : String)
deriving DecidableEq, Repr

def Fault.message : Fault → String
  | .noPath url => "sqlite URL missing path: " ++ url
  | .unsupported url => "Unsupported store URL: " ++ url

def scheme : String := "sqlite:"

def dropSlashPairs : List Char → List Char
  | '/' :: '/' :: cs => dropSlashPairs cs
  | cs => cs

/-- Blanks around the URL and around the path do not count, nor do pairs of slashes before the
path. -/
def read (raw : String) : Except Fault Location :=
  let url := Text.trim raw
  if url = "memory:" then .ok .memory
  else if url = "sqlite::memory:" then .ok .transient
  else match Text.dropStem? scheme.toList url.toList with
    | none => .error (.unsupported url)
    | some rest =>
      let path := Text.trim (String.ofList (dropSlashPairs rest))
      if path.isEmpty then .error (.noPath url) else .ok (.file path)

def text : Location → String
  | .file path => scheme ++ path
  | .transient => "sqlite::memory:"
  | .memory => "memory:"

end Location

end TagStore
