import OpenApiModels.Schema.Basic
import OpenApiModels.TypeScript.Type

/-!
# Types of schemas

The type of a schema follows the first of these keywords that it has: a constant, `allOf`,
`oneOf` or `anyOf`, listed values, and its declared type. Nullability is read as the dialect
writes it.
-/

namespace OpenApiModels.TypeScript

/-- Where nullability and constants are read from. -/
inductive Dialect where
  /-- A `nullable` keyword, no constants, one type. -/
  | openapi30
  /-- Type lists that contain null, and constants. -/
  | openapi31
deriving DecidableEq, Repr

/-- Whether the schema admits null beside its other values. -/
def isNullable (dialect : Dialect) (k : Keywords) : Bool :=
  match dialect with
  | .openapi30 => k.nullable == some true
  | .openapi31 => k.hasType .null && decide (1 < k.types.length)

/-- The type of one value. Arrays and objects have no literals. -/
def literalType : Json → TypeExpr
  | .array _ | .object _ => .unknown
  | v => .literal v.compactText

/-- The type of the listed values, null left out. -/
def enumType? (values : List Json) : Option TypeExpr :=
  match values.filter fun v => !v.isNull with
  | [] => none
  | values => some (.union (values.map literalType))

def scalarType (format : Option String) : SchemaType → TypeExpr
  | .string => if format = some "binary" then .builtin "Blob" else .builtin "string"
  | .integer | .number => .builtin "number"
  | .boolean => .builtin "boolean"
  | .null => .builtin "null"
  | .array | .object => .unknown

/-- The type for the declared type of a schema, from the types of its subschemas. -/
def declaredType (k : Keywords) (fields : List (String × Bool × TypeExpr))
    (additional item : Option TypeExpr) : TypeExpr :=
  match k.primaryType with
  | some .array => .array (item.getD .unknown)
  | some .object =>
    if fields.isEmpty then .record (additional.getD .unknown) else .object fields
  | none => if fields.isEmpty then .unknown else .object fields
  | some scalar => scalarType k.format scalar

/-- The type of an inline schema, from the types of its subschemas. -/
def inlineType (dialect : Dialect) (k : Keywords) (fields : List (String × Bool × TypeExpr))
    (additional item : Option TypeExpr) (allOf oneOf anyOf : List TypeExpr) : TypeExpr :=
  match dialect, k.constValue with
  | .openapi31, some value => literalType value
  | _, _ =>
    if !allOf.isEmpty then .intersection allOf
    else if !oneOf.isEmpty then .union oneOf
    else if !anyOf.isEmpty then .union anyOf
    else (enumType? k.enumValues).getD (declaredType k fields additional item)

def nullableType (dialect : Dialect) (k : Keywords) (base : TypeExpr) : TypeExpr :=
  if isNullable dialect k then .orNull base else base

mutual

def typeOf (dialect : Dialect) : Schema → TypeExpr
  | .ref path => .named (typeName (refName path))
  | .inline k properties additional items allOf oneOf anyOf =>
    nullableType dialect k
      (inlineType dialect k (fieldTypes dialect k.required properties)
        (additionalType dialect additional) (itemType dialect items)
        (typesOf dialect allOf) (typesOf dialect oneOf) (typesOf dialect anyOf))

def typesOf (dialect : Dialect) : List Schema → List TypeExpr
  | [] => []
  | s :: rest => typeOf dialect s :: typesOf dialect rest

def fieldTypes (dialect : Dialect) (required : List String) :
    List (String × Schema) → List (String × Bool × TypeExpr)
  | [] => []
  | (name, s) :: rest =>
    (propertyKey name, required.contains name, typeOf dialect s) ::
      fieldTypes dialect required rest

def additionalType (dialect : Dialect) : Option (Additional Schema) → Option TypeExpr
  | some (.schema s) => some (typeOf dialect s)
  | some (.allowed _) | none => none

def itemType (dialect : Dialect) : Option Schema → Option TypeExpr
  | some s => some (typeOf dialect s)
  | none => none

end

theorem typesOf_eq_map (dialect : Dialect) (schemas : List Schema) :
    typesOf dialect schemas = schemas.map (typeOf dialect) := by
  induction schemas with
  | nil => rfl
  | cons s rest ih => simp [typesOf, ih]

/-- The text of a schema's type. -/
def typeText (dialect : Dialect) (s : Schema) : String :=
  String.ofList (typeOf dialect s).text

/-- The models that a type refers to, in ascending order and once each. -/
def TypeExpr.references (t : TypeExpr) : List String :=
  (t.names.eraseDups).mergeSort fun a b => decide (a ≤ b)

end OpenApiModels.TypeScript
