import TagStore.Text.Split

namespace TagStore.Key

def delimiter : Char := ':'

def join (code : String) (parts : List String) : String :=
  String.ofList (Text.joinAll delimiter code.toList (parts.map String.toList))

/-- The parts of a key, its code first. -/
def split (key : String) : List String := (Text.splitAll delimiter key.toList).map String.ofList

/-- What every key with this code begins with. -/
def stem (code : String) : String := join code [""]

/-- What follows the first delimiter; it may hold further ones. -/
def id? (key : String) : Option String :=
  (Text.splitFirst delimiter key.toList).map fun (_, id) => String.ofList id

/-- The partition of a resource, and the sort key of its canonical item. -/
def resource (code id : String) : String := join code [id]

/-- The code of tag items. -/
def tagCode : String := "tk"

/-- What stands between the name and the value of a tag in an index key. -/
def tagMark : String := "tv"

/-- The code of pointer items. -/
def pointerCode : String := "ps"

def latestMark : String := "___latest"

/-- The tag of a newest child. -/
def latestTag : String := "___isLatest"

def latestValue : String := "true"

/-- What the names of tags begin with that are kept for a resource's own fields. -/
def reservedStem : String := "___"

def tagSort (name : String) : String := join tagCode [name]

def tagIndex (name value : String) : String := join tagCode [name, tagMark, value]

/-- The name of the tag that holds a searchable field. -/
def reserved (field : String) : String := reservedStem ++ field

def isReserved (name : String) : Bool := Text.beginsWith name reservedStem

/-- The sort key of the pointer to the newest child with a code. -/
def pointerSort (childCode : String) : String := join childCode [latestMark]

def hasDelimiter (s : String) : Bool := s.toList.contains delimiter

end TagStore.Key
