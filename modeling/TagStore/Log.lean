import TagStore.Time.Rfc3339.Writer

namespace TagStore.Log

/-- The parts of the program that log, and how much they do. -/
def filter (verbose : Bool) : String :=
  let level := if verbose then "debug" else "info"
  String.intercalate "," (["arcade_resources", "arcade_db", "arcade"].map (· ++ "=" ++ level))

def cleanChar (c : Char) : Char := if c.isAlphanum || c = '-' || c = '_' then c else '_'

/-- A program's name as a part of a file's name. -/
def cleanName (name : String) : String :=
  if name.isEmpty then "arcade" else String.ofList (name.toList.map cleanChar)

/-- Each day has a file of its own. -/
def fileName (program : String) (now : Instant) : String :=
  cleanName program ++ ".log." ++ Rfc3339.dateText now.clock.date

end TagStore.Log
