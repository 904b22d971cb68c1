import TagStore.ResourceType
import TagStore.Time.Rfc3339.Reader
import TagStore.Time.Rfc3339.Writer

namespace TagStore.Version

/-- A time in UTC to the nanosecond, so that all times of four-digit years have texts of one form. -/
def orderingText (value : Json) : Except Refusal String :=
  match value with
  | .string text =>
    match Rfc3339.read text with
    | .ok instant => .ok (Rfc3339.write 9 instant)
    | .error fault => .error (.orderingNotATime text fault)
  | value => .error (.orderingNotText value)

/-- The attributes that put a child in its place under its parent. -/
def placement (childCode : String) (v : Versioning) (parentId ordering : String) :
    List (String × String) :=
  [(Attribute.parent, Key.resource v.parentCode parentId),
    (Attribute.order, Key.join childCode [ordering])]

end TagStore.Version
