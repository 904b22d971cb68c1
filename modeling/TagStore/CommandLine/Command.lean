import TagStore.CommandLine.Options
import TagStore.Settings
import TagStore.Text.Digits

namespace TagStore.CommandLine

inductive Command where
  | types
  | create (type : String) (fields tags : List String) (user : String)
  | get (type id : String)
  | update (type id : String) (fields removedFields tags removedTags : List String) (user : String)
  | delete (type id : String)
  | list (type : String) (tags fields : List String) (latestOnly withLatest : Bool) (count : Nat)
      (token : Option String)
  | latest (type parentId : String)
deriving DecidableEq, Repr

structure Invocation where
  store : String
  table : String
  attempts : Nat
  command : Command
deriving DecidableEq, Repr

abbrev Environment := SortedMap String String

def storeOption : OptionSpec := { name := "store", arity := .one }

def tableOption : OptionSpec := { name := "table", arity := .one }

def retriesOption : OptionSpec := { name := "retries", arity := .one }

def logOption : OptionSpec := { name := "log-dir", arity := .one }

def verboseOption : OptionSpec := { name := "verbose", short := some 'v', arity := .flag }

/-- The options that may stand on either side of the command. -/
def generalOptions : List OptionSpec :=
  [storeOption, tableOption, retriesOption, logOption, verboseOption]

def fieldOption : OptionSpec := { name := "field", short := some 'f', arity := .many }

def tagOption : OptionSpec := { name := "tag", short := some 't', arity := .many }

def userOption : OptionSpec := { name := "user", arity := .one }

def removeFieldOption : OptionSpec := { name := "remove-field", arity := .many }

def removeTagOption : OptionSpec := { name := "remove-tag", arity := .many }

def latestOption : OptionSpec := { name := "latest", arity := .flag }

def includeLatestOption : OptionSpec := { name := "include-latest", arity := .flag }

def countOption : OptionSpec := { name := "count", short := some 'n', arity := .one }

def tokenOption : OptionSpec := { name := "token", arity := .one }

/-- The options of a command by its name. -/
def commandOptions? (name : String) : Option (List OptionSpec) :=
  match name with
  | "types" => some []
  | "create" => some [fieldOption, tagOption, userOption]
  | "get" => some []
  | "update" => some [fieldOption, removeFieldOption, tagOption, removeTagOption, userOption]
  | "delete" => some []
  | "list" =>
    some [tagOption, fieldOption, latestOption, includeLatestOption, countOption, tokenOption]
  | "latest" => some []
  | _ => none

/-- A number of up to 64 bits, with or without a plus. -/
def readCount? (text : String) : Option Nat := do
  let n ← match text.toList with
    | '+' :: cs => Digits.read? cs
    | cs => Digits.read? cs
  guard (n < Nat.pow 2 64)
  return n

/-- A number of up to 32 bits, with or without a sign; a minus may stand before zero only. -/
def readRetries? (text : String) : Option Nat := do
  let n ← match text.toList with
    | '+' :: cs => Digits.read? cs
    | '-' :: cs => (Digits.read? cs).filter (· = 0)
    | cs => Digits.read? cs
  guard (n < Nat.pow 2 32)
  return n

/-- The value of an option of a command: given, from the environment, or fixed. -/
def valueOr (inner : Arguments) (env : Environment) (option : OptionSpec) (varName fixed : String) :
    String :=
  ((inner.value? option.name).or (env.find? varName)).getD fixed

/-- The texts given for a general option on both sides of the command, the one that counts first. The
environment is asked for wherever a side does not give it. -/
def generalTexts (outer inner : Arguments) (env : Environment) (option : OptionSpec)
    (varName : String) : List String :=
  let given := (inner.value? option.name).toList ++ (outer.value? option.name).toList
  if given.length < 2 then given ++ (env.find? varName).toList else given

/-- The value of a general option of which all texts must be readable. -/
def general? (outer inner : Arguments) (env : Environment) (option : OptionSpec) (varName : String)
    (read : String → Option α) : Option (Option α) := do
  let values ← (generalTexts outer inner env option varName).mapM read
  return values.head?

def userVariable : String := "ARCADE_USER"

def defaultUser : String := "cli"

def readCommand? (env : Environment) (name : String) (a : Arguments) : Option Command :=
  let user := valueOr a env userOption userVariable defaultUser
  let fields := a.values fieldOption.name
  let tags := a.values tagOption.name
  match name, a.positionals with
  | "types", [] => some .types
  | "create", [type] => some (.create type fields tags user)
  | "get", [type, id] => some (.get type id)
  | "update", [type, id] =>
    some (.update type id fields (a.values removeFieldOption.name) tags
      (a.values removeTagOption.name) user)
  | "delete", [type, id] => some (.delete type id)
  | "list", [type] => do
    let count ← match a.value? countOption.name with
      | none => some ({} : Settings).pageSize
      | some text => readCount? text
    return .list type tags fields (a.has latestOption.name) (a.has includeLatestOption.name) count
      (a.value? tokenOption.name)
  | "latest", [type, parentId] => some (.latest type parentId)
  | _, _ => none

def defaultStore : String := "sqlite:arcade.sqlite"

/-- The invocation that arguments stand for, if they are well formed. -/
def read? (env : Environment) (args : List String) : Option Invocation := do
  let (outer, name, rest) ← readLeading? generalOptions {} args
  let options ← commandOptions? name
  let inner ← readAll? (options ++ generalOptions) {} rest
  let store ← general? outer inner env storeOption "ARCADE_STORE" some
  let table ← general? outer inner env tableOption "ARCADE_TABLE" some
  let attempts ← general? outer inner env retriesOption "ARCADE_RETRIES" readRetries?
  let _ ← general? outer inner env logOption "ARCADE_LOG_DIR"
    fun path => if path.isEmpty then none else some path
  let settings : Settings := {}
  return {
    store := store.getD defaultStore
    table := table.getD settings.tableName
    attempts := attempts.getD settings.attempts
    command := ← readCommand? env name inner }

end TagStore.CommandLine
