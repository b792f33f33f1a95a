import OpenApiModels.TypeScript.OfSchema

/-!
# Model files

A model file declares one model of a spec: an enum, an interface or an alias. Listed values of a
property become an enum of its own beside the interface.
-/

namespace OpenApiModels

open TypeScript

namespace ModelFile

/-- A member of an enum: its name and the literal of its value. -/
structure Member where
  name : String
  literal : String
deriving DecidableEq, Repr

structure EnumType where
  name : String
  description : Option String
  members : List Member
deriving DecidableEq, Repr

/-- A property of an interface. -/
structure Field where
  key : String
  type : TypeExpr
  isOptional : Bool
  description : Option String
  readOnly : Bool

inductive Body where
  | enum (members : List Member)
  /-- An interface; it is open if it admits further properties. -/
  | interface (fields : List Field) (isOpen : Bool)
  | alias (target : TypeExpr)

end ModelFile

structure ModelFile where
  name : String
  description : Option String
  body : ModelFile.Body
  /-- The enums of properties. -/
  enums : List ModelFile.EnumType

namespace ModelFile

/-! ### Enum members -/

/-- The name before repetitions are told apart, and the literal. Only strings and numbers can be
values of members. -/
def memberOfValue? : Json → Option Member
  | .string s => some ⟨memberName s, (Json.string s).compactText⟩
  | .number n =>
    let text := (Json.number n).compactText
    let digits := text.toList.map fun c => if c == '-' || c == '.' then '_' else c
    some ⟨"NUMBER_" ++ String.ofList digits, text⟩
  | _ => none

/-- The name, or if it is used the first unused one with a number from 2 on behind it. -/
def unusedName (used : List String) (name : String) : String :=
  if used.contains name then
    (((List.range used.length).map fun i => s!"{name}_{i + 2}").find?
      fun candidate => !used.contains candidate).getD name
  else name

/-- Members with names that differ from those used and from each other. -/
def distinguish (used : List String) : List Member → List Member
  | [] => []
  | m :: rest =>
    let name := unusedName used m.name
    ⟨name, m.literal⟩ :: distinguish (name :: used) rest

/-- The members for listed values. -/
def membersOf (values : List Json) : List Member :=
  distinguish [] (values.filterMap memberOfValue?)

/-! ### Bodies -/

/-- Whether the values are listed and nothing is composed. -/
def isPlainEnum (k : Keywords) (allOf oneOf anyOf : List Schema) : Bool :=
  k.isEnum && allOf.isEmpty && oneOf.isEmpty && anyOf.isEmpty

def enumName (model property : String) : String :=
  model ++ typeName property ++ "Enum"

/-- The enum that a property declares, if its values are listed. -/
def enumOf? (model : String) : String × Schema → Option EnumType
  | (name, .inline k _ _ _ allOf oneOf anyOf) =>
    if isPlainEnum k allOf oneOf anyOf then
      some ⟨enumName model name, k.description, membersOf k.enumValues⟩
    else none
  | (_, .ref _) => none

def fieldType (dialect : Dialect) (model name : String) : Schema → TypeExpr
  | .inline k properties additional items allOf oneOf anyOf =>
    if isPlainEnum k allOf oneOf anyOf then
      nullableType dialect k (.inFile (enumName model name))
    else typeOf dialect (.inline k properties additional items allOf oneOf anyOf)
  | .ref path => typeOf dialect (.ref path)

def fieldOf (dialect : Dialect) (model : String) (required : List String)
    (property : String × Schema) : Field :=
  let (name, s) := property
  let own : Keywords := match s with
    | .inline k _ _ _ _ _ _ => k
    | .ref _ => {}
  { key := propertyKey name
    type := fieldType dialect model name s
    isOptional := !required.contains name
    description := own.description
    readOnly := own.readOnly.getD false }

/-- Whether a schema becomes an interface: nothing is composed, and it has properties, or is
declared an object without a schema for its values. -/
def isInterface (k : Keywords) (properties : List (String × Schema))
    (additional : Option (Additional Schema)) (allOf oneOf anyOf : List Schema) : Bool :=
  allOf.isEmpty && oneOf.isEmpty && anyOf.isEmpty &&
    (!properties.isEmpty ||
      (k.hasType .object &&
        match additional with
        | some (.schema _) => false
        | _ => true))

def admitsFurther : Option (Additional Schema) → Bool
  | some (.allowed b) => b
  | some (.schema _) => true
  | none => false

/-- The file for a named schema. -/
def ofSchema (dialect : Dialect) (name : String) : Schema → ModelFile
  | .ref path =>
    { name, description := none, body := .alias (typeOf dialect (.ref path)), enums := [] }
  | .inline k properties additional items allOf oneOf anyOf =>
    if k.isEnum then
      { name, description := k.description, body := .enum (membersOf k.enumValues), enums := [] }
    else if isInterface k properties additional allOf oneOf anyOf then
      { name
        description := k.description
        body := .interface (properties.map (fieldOf dialect name k.required))
          (admitsFurther additional)
        enums := properties.filterMap (enumOf? name) }
    else
      { name
        description := k.description
        body := .alias (typeOf dialect (.inline k properties additional items allOf oneOf anyOf))
        enums := [] }

/-- The types written in the file. -/
def Body.types : Body → List TypeExpr
  | .enum _ => []
  | .interface fields _ => fields.map (·.type)
  | .alias target => [target]

/-- The models that the file imports, in ascending order. -/
def imports (f : ModelFile) : List String :=
  (((f.body.types.flatMap TypeExpr.names).eraseDups).filter (· != f.name)).mergeSort
    fun a b => decide (a ≤ b)

/-! ### The files of a model -/

/-- What becomes of a named schema. -/
inductive Planned where
  | file (f : ModelFile)
  /-- Another schema before it has the same type name. -/
  | repeated (schema type : String)

/-- Goes through the named schemas; `seen` are the type names so far. -/
def plan (dialect : Dialect) (seen : List String) : List (String × Schema) → List Planned
  | [] => []
  | (name, s) :: rest =>
    let type := typeName name
    if seen.contains type then .repeated name type :: plan dialect seen rest
    else .file (ofSchema dialect type s) :: plan dialect (type :: seen) rest

/-- The files of a model, in order. -/
def ofModel (dialect : Dialect) (m : Model) : List ModelFile :=
  (plan dialect [] m.schemas).filterMap fun
    | .file f => some f
    | .repeated _ _ => none

end ModelFile

end OpenApiModels
