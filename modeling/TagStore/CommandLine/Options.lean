import TagStore.Text.Split

namespace TagStore.CommandLine

inductive Arity where
  | flag
  /-- One value, given once. -/
  | one
  /-- One value each time it is given. -/
  | many
deriving DecidableEq, Repr

/-- The value of an option is the rest of its argument, after `=` for a long name, or else the next
argument, which must not look like an option. Short names may stand together in one argument. -/
structure OptionSpec where
  name : String
  short : Option Char := none
  arity : Arity
deriving DecidableEq, Repr

/-- What was found on a command line, in its order; a flag has no value. -/
structure Arguments where
  options : List (String × String) := []
  positionals : List String := []
deriving DecidableEq, Repr

namespace Arguments

def has (a : Arguments) (name : String) : Bool := a.options.any fun o => o.1 = name

def values (a : Arguments) (name : String) : List String :=
  (a.options.filter fun o => o.1 = name).map Prod.snd

def value? (a : Arguments) (name : String) : Option String := (a.values name).head?

/-- Adds an option, unless it may be given but once and is there already. -/
def add? (a : Arguments) (spec : OptionSpec) (value : String) : Option Arguments :=
  if spec.arity ≠ .many ∧ a.has spec.name then none
  else some { a with options := a.options ++ [(spec.name, value)] }

def addPositional (a : Arguments) (value : String) : Arguments :=
  { a with positionals := a.positionals ++ [value] }

end Arguments

/-- A lone hyphen does not look like an option. -/
def looksLikeOption (arg : String) : Bool :=
  match arg.toList with
  | '-' :: _ :: _ => true
  | _ => false

/-- What comes of an argument: it stands for itself, or its option waits for a value. -/
inductive Reading where
  | done (found : Arguments)
  | waiting (found : Arguments) (option : OptionSpec)

/-- A long name, and the value after `=`. -/
def splitValue (cs : List Char) : String × Option String :=
  match Text.splitFirst '=' cs with
  | some (name, value) => (String.ofList name, some (String.ofList value))
  | none => (String.ofList cs, none)

/-- An argument after two hyphens. -/
def readLong? (specs : List OptionSpec) (found : Arguments) (cs : List Char) : Option Reading := do
  let (name, value) := splitValue cs
  let spec ← specs.find? fun s => s.name = name
  match spec.arity, value with
  | .flag, some _ => none
  | .flag, none => (found.add? spec "").map .done
  | _, some value => (found.add? spec value).map .done
  | _, none => return .waiting found spec

/-- The value of a short option in its own argument. -/
def attached (cs : List Char) : String :=
  match cs with
  | '=' :: cs => String.ofList cs
  | cs => String.ofList cs

/-- An argument after one hyphen. -/
def readShort? (specs : List OptionSpec) (found : Arguments) : List Char → Option Reading
  | [] => some (.done found)
  | c :: cs => do
    let spec ← specs.find? fun s => s.short = some c
    match spec.arity with
    | .flag => readShort? specs (← found.add? spec "") cs
    | _ =>
      if cs.isEmpty then return .waiting found spec
      else (found.add? spec (attached cs)).map .done

def readArgument? (specs : List OptionSpec) (found : Arguments) (arg : String) : Option Reading :=
  match arg.toList with
  | '-' :: '-' :: cs => readLong? specs found cs
  | '-' :: c :: cs => readShort? specs found (c :: cs)
  | _ => some (.done (found.addPositional arg))

/-- Reads arguments to their end. After the argument `--` all others are positional. -/
def readAll? (specs : List OptionSpec) (found : Arguments) : List String → Option Arguments
  | [] => some found
  | arg :: args =>
    if arg = "--" then some (args.foldl Arguments.addPositional found)
    else match readArgument? specs found arg with
      | none => none
      | some (.done found) => readAll? specs found args
      | some (.waiting found spec) =>
        match args with
        | [] => none
        | value :: rest =>
          if looksLikeOption value then none
          else match found.add? spec value with
            | none => none
            | some found => readAll? specs found rest

/-- Reads options up to the first argument that is none, which has to be there. -/
def readLeading? (specs : List OptionSpec) (found : Arguments) :
    List String → Option (Arguments × String × List String)
  | [] => none
  | arg :: args =>
    if arg = "--" then none
    else if !looksLikeOption arg then some (found, arg, args)
    else match readArgument? specs found arg with
      | none => none
      | some (.done found) => readLeading? specs found args
      | some (.waiting found spec) =>
        match args with
        | [] => none
        | value :: rest =>
          if looksLikeOption value then none
          else match found.add? spec value with
            | none => none
            | some found => readLeading? specs found rest

end TagStore.CommandLine
