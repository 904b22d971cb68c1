import TagStore.Error
import TagStore.Item.Basic

namespace TagStore.Checks

/-- Whether the store itself writes the attribute. -/
def isManaged (name : String) : Bool :=
  Attribute.stored.contains name || Attribute.audit.contains name

def fieldName (name : String) : Except Refusal Unit := do
  if name.isEmpty then throw .emptyField
  if isManaged name then throw (.managedField name)

/-- Names of tags stand between delimiters in keys. -/
def tagDelimiter (name : String) : Except Refusal Unit := do
  if Key.hasDelimiter name then throw (.tagDelimiter name)

def tagName (name : String) : Except Refusal Unit := do
  if name.isEmpty then throw .emptyTag
  tagDelimiter name
  if Key.isReserved name then throw (.reservedTag name)

/-- Passes if every one of some names does; else it fails with the first that does not. -/
def each (check : String → Except Refusal Unit) : List String → Except Refusal Unit
  | [] => .ok ()
  | name :: names => do
    check name
    each check names

/-- A field that has to be a text, and not the empty one. -/
def requiredText (fields : Item) (name : String) : Except Refusal String :=
  match fields.text? name with
  | some s => if s.isEmpty then .error (.missingField name) else .ok s
  | none => .error (.missingField name)

end TagStore.Checks
