import TagStore.Error
import TagStore.Tag.Basic
import TagStore.Text.Percent

namespace TagStore.Tag

def decodePart (text : String) : Except Refusal String :=
  (Percent.decode text).mapError (.encoding text)

/-- The name and the value that a text stands for. It is split before it is decoded, so that either
may hold a colon that was encoded. -/
def readPair (text : String) : Except Refusal (String × String) :=
  match Text.splitFirst Key.delimiter text.toList with
  | none => .error (.notAPair text)
  | some (name, value) => do
    let name ← decodePart (String.ofList name)
    if name.isEmpty then throw (.pairWithoutName text)
    return (name, ← decodePart (String.ofList value))

/-- The last of several texts with one name counts. -/
def readPairs (texts : List String) : Except Refusal Tags := do
  return .ofList (← texts.mapM readPair)

end TagStore.Tag
