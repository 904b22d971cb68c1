import Std.Time.DateTime.Timestamp
import TagStore.CommandLine.Run
import TagStore.CommandLine.Snapshot

namespace TagStore.Program

def variableNames : List String :=
  ["ARCADE_STORE", "ARCADE_TABLE", "ARCADE_RETRIES", "ARCADE_LOG_DIR", CommandLine.userVariable]

def environment : IO CommandLine.Environment := do
  let found ← variableNames.filterMapM fun name => do
    return (← IO.getEnv name).map (name, ·)
  return .ofList found

def now : IO Instant := do
  let nanos := (← Std.Time.Timestamp.now).toNanosecondsSinceUnixEpoch.val
  return ⟨nanos / Instant.nanosPerSecond, (nanos % Instant.nanosPerSecond).toNat⟩

/-- A random id in the form of a UUID of version 4. -/
def randomId : IO String := do
  let octets := (← IO.getRandomBytes 16).toList
  let marked := octets.mapIdx fun i b =>
    if i = 6 then b &&& 0x0f ||| 0x40 else if i = 8 then b &&& 0x3f ||| 0x80 else b
  let digits (b : UInt8) : List Char :=
    [Json.hexDigit (b.toNat / 16), Json.hexDigit (b.toNat % 16)]
  let group (first size : Nat) : String :=
    String.ofList (((marked.drop first).take size).flatMap digits)
  return String.intercalate "-" [group 0 4, group 4 2, group 6 2, group 8 2, group 10 6]

/-- The file that a store is kept in. -/
def path? (i : CommandLine.Invocation) : Option String :=
  match Location.read i.store with
  | .ok (.file path) => (Address.read path).toOption.join
  | _ => none

/-- The directory that a path leads through. -/
def directory (path : String) : String :=
  String.ofList (path.toList.reverse.dropWhile (· ≠ '/')).reverse

def load (path : String) : IO Files := do
  let text ← try some <$> IO.FS.readFile path catch _ => pure none
  match text with
  | none => return .empty
  | some text =>
    match Tables.read? text with
    | some tables => return .ofList [(path, tables)]
    | none => throw (IO.userError (StoreError.message .document))

def save (path : String) (files : Files) : IO Unit := do
  match files.find? path with
  | none => return
  | some tables =>
    let parent := directory path
    if !parent.isEmpty then IO.FS.createDirAll parent
    IO.FS.writeFile path tables.text

def failureText : CommandLine.Failure → String
  | [] => "Error"
  | [e] => "Error: " ++ e
  | e :: causes =>
    "Error: " ++ e ++ "\n\nCaused by:\n" ++ String.intercalate "\n" (causes.map ("    " ++ ·))

/-- Runs a command on the store that it names, and keeps what it leaves behind. -/
def run (i : CommandLine.Invocation) : IO UInt32 := do
  let path := path? i
  let files ← (path.map load).getD (pure .empty)
  let world : CommandLine.World := { files, ids := { offered := some (← randomId) }, now := ← now }
  let (answer, world) := CommandLine.run world i
  if let some path := path then save path world.files
  match answer with
  | .ok text =>
    IO.print text
    return 0
  | .error failure =>
    IO.eprintln (failureText failure)
    return 1

end TagStore.Program

def main (args : List String) : IO UInt32 := do
  match TagStore.CommandLine.read? (← TagStore.Program.environment) args with
  | none =>
    IO.eprintln "Usage: arcade [OPTIONS] <types|create|get|update|delete|list|latest> [ARGS]"
    return 2
  | some i =>
    try TagStore.Program.run i
    catch e =>
      IO.eprintln ("Error: " ++ toString e)
      return 1
