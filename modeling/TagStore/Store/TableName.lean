namespace TagStore.TableName

inductive Fault where
  | empty
  | tooLong (name : String)
  | characters (name : String)
deriving DecidableEq, Repr

def Fault.message : Fault → String
  | .empty => "Table name is empty"
  | .tooLong name => "Table name longer than 64 characters: " ++ name
  | .characters name => "Table name contains invalid characters: " ++ name

def maxSize : Nat := 64

def isFirst (c : Char) : Bool := c.isAlpha || c = '_'

def isOther (c : Char) : Bool := c.isAlphanum || c = '_'

/-- A name is a letter or underscore and then letters, digits and underscores, of the ASCII ones. Its size
is counted in octets. -/
def check (name : String) : Except Fault Unit :=
  if name.isEmpty then .error .empty
  else if maxSize < name.utf8ByteSize then .error (.tooLong name)
  else match name.toList with
    | c :: cs => if isFirst c && cs.all isOther then .ok () else .error (.characters name)
    | [] => .error .empty

end TagStore.TableName
