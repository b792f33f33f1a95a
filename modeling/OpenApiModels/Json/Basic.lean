import OpenApiModels.Keyed
import OpenApiModels.Number.Literal

/-!
# JSON documents

An object keeps its members in the order in which they were written.
-/

namespace OpenApiModels

inductive Json where
  | null
  | bool (b : Bool)
  | number (n : Number.Value)
  | string (s : String)
  | array (items : List Json)
  | object (members : List (String × Json))
deriving Inhabited

namespace Json

/-! ### Access -/

/-- The value of a member of an object. -/
def get? (key : String) : Json → Option Json
  | .object members => members.lookup key
  | _ => none

def asString? : Json → Option String
  | .string s => some s
  | _ => none

def isNull : Json → Bool
  | .null => true
  | _ => false

/-- The text of a string member of an object. -/
def string? (key : String) (doc : Json) : Option String :=
  (doc.get? key).bind asString?

end Json

end OpenApiModels
