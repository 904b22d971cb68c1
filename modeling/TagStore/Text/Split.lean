namespace TagStore.Text

def beginsWith (s stem : String) : Bool := stem.toList.isPrefixOf s.toList

/-- Drops `stem` from the front of `cs`, if `cs` begins with it. -/
def dropStem? : (stem cs : List Char) → Option (List Char)
  | [], cs => some cs
  | _ :: _, [] => none
  | x :: xs, c :: cs => if x = c then dropStem? xs cs else none

/-- Drops `stem` from the front of `cs` as often as it stands there. -/
def dropStems (stem cs : List Char) : List Char :=
  cs.foldl (fun rest _ => (dropStem? stem rest).getD rest) cs

/-- The text up to the first `d`, and the text after it. -/
def splitFirst (d : Char) : List Char → Option (List Char × List Char)
  | [] => none
  | c :: cs => if c = d then some ([], cs) else (splitFirst d cs).map fun (a, b) => (c :: a, b)

/-- The parts between the separators; there is always one. -/
def splitAll (d : Char) : List Char → List (List Char)
  | [] => [[]]
  | c :: cs =>
    match splitAll d cs with
    | [] => [[c]]
    | part :: rest => if c = d then [] :: part :: rest else (c :: part) :: rest

def joinAll (d : Char) (part : List Char) : List (List Char) → List Char
  | [] => part
  | next :: rest => part ++ d :: joinAll d next rest

end TagStore.Text
