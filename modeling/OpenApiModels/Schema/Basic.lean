import OpenApiModels.Json.Basic
import OpenApiModels.Text.Search

/-!
# Schemas

A schema refers to another one by a pointer, or it is given inline by its keywords and its
subschemas. A model is what a spec says about itself together with its named schemas.
-/

namespace OpenApiModels

inductive SchemaType where
  | string
  | number
  | integer
  | boolean
  | array
  | object
  | null
deriving DecidableEq, Repr

def SchemaType.name : SchemaType → String
  | string => "string"
  | number => "number"
  | integer => "integer"
  | boolean => "boolean"
  | array => "array"
  | object => "object"
  | null => "null"

def SchemaType.ofName? (s : String) : Option SchemaType :=
  [string, number, integer, boolean, array, object, null].find? fun t => t.name == s

/-- The keywords whose values hold no schemas. -/
structure Keywords where
  types : List SchemaType := []
  format : Option String := none
  title : Option String := none
  description : Option String := none
  nullable : Option Bool := none
  deprecated : Option Bool := none
  required : List String := []
  enumValues : List Json := []
  constValue : Option Json := none
  readOnly : Option Bool := none

/-- Whether further properties are allowed, or the schema that they have. -/
inductive Additional (α : Type) where
  | allowed (b : Bool)
  | schema (s : α)

inductive Schema where
  | ref (path : String)
  | inline (keywords : Keywords) (properties : List (String × Schema))
      (additional : Option (Additional Schema)) (items : Option Schema)
      (allOf oneOf anyOf : List Schema)

namespace Keywords

def hasType (k : Keywords) (t : SchemaType) : Bool :=
  k.types.contains t

/-- Whether the values are listed. -/
def isEnum (k : Keywords) : Bool :=
  !k.enumValues.isEmpty

/-- The first declared type that is not null; null only where it is the sole type. -/
def primaryType (k : Keywords) : Option SchemaType :=
  (k.types.find? (· != .null)).orElse fun _ => k.types.head?

end Keywords

/-- The name that a pointer ends with. -/
def refName (path : String) : String :=
  String.ofList (Text.afterLast '/' path.toList)

/-! ### Models -/

structure Info where
  title : String := ""
  version : String := ""
  description : Option String := none

structure Model where
  info : Info
  components : List (String × Schema)
  definitions : List (String × Schema)

/-- The named schemas: components first, then the definitions whose names they leave free. -/
def Model.schemas (m : Model) : List (String × Schema) :=
  m.components ++ m.definitions.filter fun d => !Keyed.hasKey d.1 m.components

end OpenApiModels
