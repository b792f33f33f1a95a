import OpenApiModels.Json.Depth
import OpenApiModels.Schema.Basic

/-!
# Reading schemas

Records are read from objects by member name, or from arrays by position. Members that a record
does not know are passed over; null stands for a missing value where a value is optional.
-/

namespace OpenApiModels

namespace Json

/-- The members of a record with the given fields. -/
def record? (fields : List String) : Json → Option (List (String × Json))
  | .object members => some members
  | .array items => if items.length ≤ fields.length then some (fields.zip items) else none
  | _ => none

/-- The value of a field; `default` if it is missing. -/
def field {α : Type} (members : List (String × Json)) (key : String) (default : α)
    (read : Json → Option α) : Option α :=
  match members.lookup key with
  | some v => read v
  | none => some default

/-- Null as no value. -/
def optional {α : Type} (read : Json → Option α) : Json → Option (Option α)
  | .null => some none
  | v => (read v).map some

def asBool? : Json → Option Bool
  | .bool b => some b
  | _ => none

def asList? {α : Type} (read : Json → Option α) : Json → Option (List α)
  | .array items => items.mapM read
  | _ => none

/-- An object whose values are all read alike. -/
def asMap? {α : Type} (read : Json → Option α) : Json → Option (List (String × α))
  | .object members => members.mapM fun (key, v) => (read v).map fun a => (key, a)
  | _ => none

end Json

open Json

/-- A type is given by its name, or by an object with its name as the sole key and null. -/
def SchemaType.ofJson? : Json → Option SchemaType
  | .string s => ofName? s
  | .object [(s, .null)] => ofName? s
  | _ => none

/-- One type, or a list of types. -/
def typesOfJson? (v : Json) : Option (List SchemaType) :=
  match SchemaType.ofJson? v with
  | some t => some [t]
  | none => asList? SchemaType.ofJson? v

namespace Schema

/-- The fields of an inline schema, in order. -/
def fields : List String :=
  ["type", "format", "title", "description", "nullable", "deprecated", "properties", "required",
    "additionalProperties", "items", "allOf", "oneOf", "anyOf", "enum", "const", "readOnly"]

/-- Reads the keywords that hold no schemas. -/
def keywords? (members : List (String × Json)) : Option Keywords := do
  let types ← field members "type" none (optional typesOfJson?)
  let format ← field members "format" none (optional asString?)
  let title ← field members "title" none (optional asString?)
  let description ← field members "description" none (optional asString?)
  let nullable ← field members "nullable" none (optional asBool?)
  let deprecated ← field members "deprecated" none (optional asBool?)
  let required ← field members "required" [] (asList? asString?)
  let enumValues ← field members "enum" [] (asList? some)
  let constValue ← field members "const" none (optional some)
  let readOnly ← field members "readOnly" none (optional asBool?)
  pure { types := types.getD [], format, title, description, nullable, deprecated, required,
         enumValues, constValue, readOnly }

def additional? (read : Json → Option Schema) : Json → Option (Additional Schema)
  | .bool b => some (.allowed b)
  | v => (read v).map .schema

/-- Reads an inline schema; `read` reads its subschemas. -/
def inline? (read : Json → Option Schema) (v : Json) : Option Schema := do
  let members ← v.record? fields
  let keywords ← keywords? members
  let properties ← field members "properties" [] (asMap? read)
  let additional ← field members "additionalProperties" none (optional (additional? read))
  let items ← field members "items" none (optional read)
  let allOf ← field members "allOf" [] (asList? read)
  let oneOf ← field members "oneOf" [] (asList? read)
  let anyOf ← field members "anyOf" [] (asList? read)
  pure (.inline keywords properties additional items allOf oneOf anyOf)

/-- Reads a schema that is at most `depth` deep. -/
def ofDepth? : Nat → Json → Option Schema
  | 0, _ => none
  | depth + 1, v =>
    match v.string? "$ref" with
    | some path => some (.ref path)
    | none => inline? (ofDepth? depth) v

/-- A reference where there is a pointer, and an inline schema otherwise. -/
def ofJson? (v : Json) : Option Schema :=
  ofDepth? v.depth v

end Schema

def Info.ofJson? (v : Json) : Option Info := do
  let members ← v.record? ["title", "version", "description"]
  let title ← field members "title" "" asString?
  let version ← field members "version" "" asString?
  let description ← field members "description" none (optional asString?)
  pure { title, version, description }

namespace Model

def componentsOfJson? (v : Json) : Option (List (String × Schema)) := do
  let members ← v.record? ["schemas"]
  field members "schemas" [] (asMap? Schema.ofJson?)

/-- Reads the model of a document. -/
def ofJson? (v : Json) : Option Model := do
  let members ← v.record? ["info", "components", "definitions"]
  let info ← field members "info" {} Info.ofJson?
  let components ← field members "components" [] componentsOfJson?
  let definitions ← field members "definitions" [] (asMap? Schema.ofJson?)
  pure { info, components, definitions }

end Model

end OpenApiModels
