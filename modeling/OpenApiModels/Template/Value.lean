import OpenApiModels.ModelFile.Layout
import OpenApiModels.Text.Quoted

/-!
# Template values

The values that a template can print or go through, and those that it is given for a model file.
-/

namespace OpenApiModels.Template

inductive Value where
  /-- What a name stands for that has no value. -/
  | undefined
  | none
  | bool (b : Bool)
  | text (s : String)
  | list (items : List Value)
  | record (fields : List (String × Value))
deriving Inhabited

abbrev Scope := List (String × Value)

namespace Value

mutual

/-- The text that a value prints as. -/
def print : Value → String
  | undefined => ""
  | none => "None"
  | bool b => if b then "True" else "False"
  | text s => s
  | list items => "[" ++ ", ".intercalate (describeAll items) ++ "]"
  | record fields => "\x7b" ++ ", ".intercalate (describeFields fields) ++ "\x7d"

/-- The text of a value within a list or a record. -/
def describe : Value → String
  | undefined => "Undefined"
  | none => "None"
  | bool b => if b then "True" else "False"
  | text s => Text.quoted s
  | list items => "[" ++ ", ".intercalate (describeAll items) ++ "]"
  | record fields => "\x7b" ++ ", ".intercalate (describeFields fields) ++ "\x7d"

def describeAll : List Value → List String
  | [] => []
  | v :: rest => describe v :: describeAll rest

def describeFields : List (String × Value) → List String
  | [] => []
  | (name, v) :: rest => (Text.quoted name ++ ": " ++ describe v) :: describeFields rest

end

/-- A field of a value; only what is undefined has no fields at all. -/
def field? (name : String) : Value → Option Value
  | undefined => Option.none
  | record fields => some ((fields.lookup name).getD undefined)
  | _ => some undefined

/-- What a loop over a value goes through. -/
def items? : Value → Option (List Value)
  | undefined | none => some []
  | list items => some items
  | record fields => some (fields.map fun f => text f.1)
  | text s => some (s.toList.map fun c => text (String.singleton c))
  | bool _ => Option.none

/-- The value at a path of names. -/
def follow? (v : Value) : List String → Option Value
  | [] => some v
  | name :: path => (v.field? name).bind fun w => follow? w path

def ofOption {α : Type} (f : α → Value) : Option α → Value
  | some a => f a
  | Option.none => none

end Value

/-- The value at the path that starts with a name in scope. -/
def Scope.value? (scope : Scope) : List String → Option Value
  | [] => Option.none
  | name :: path => ((scope.lookup name).getD .undefined).follow? path

/-! ### Model files -/

open ModelFile

def ofTexts (texts : List String) : Value :=
  .list (texts.map .text)

def ofMembers (name : String) (description : Option String) (members : List Member) : Value :=
  .record [("name", .text name), ("description", .ofOption .text description),
    ("members", .list (members.map fun m =>
      .record [("name", .text m.name), ("value", .text m.literal)]))]

def ofField (f : Field) : Value :=
  .record [("name", .text f.key), ("type", .text (String.ofList f.type.text)),
    ("optional", .bool f.isOptional), ("description", .ofOption .text f.description),
    ("read_only", .bool f.readOnly)]

/-- The word for the kind of a model file. -/
def kindName : Body → String
  | .enum _ => "enum"
  | .interface _ _ => "object"
  | .alias _ => "alias"

/-- What a template knows about a model file. -/
def scopeOf (o : LayoutOptions) (f : ModelFile) : Scope :=
  let fields := match f.body with
    | .interface fields _ => fields
    | _ => []
  let additional := match f.body with
    | .interface _ true => Value.text "unknown"
    | _ => .none
  let target := match f.body with
    | .alias target => Value.text (String.ofList target.text)
    | _ => .none
  let enum := match f.body with
    | .enum members => ofMembers f.name f.description members
    | _ => .none
  [("title", .text o.title), ("api_version", .text o.version), ("name", .text f.name),
    ("kind", .text (kindName f.body)), ("description", .ofOption .text f.description),
    ("imports", ofTexts f.imports), ("fields", .list (fields.map ofField)),
    ("additional_properties", additional), ("target", target), ("enum", enum),
    ("enums", .list (f.enums.map fun e => ofMembers e.name e.description e.members)),
    ("no_jsdoc", .bool !o.comments)]

/-- What a template knows about an index. -/
def scopeOfIndex (modules : List String) : Scope :=
  [("modules", ofTexts modules)]

end OpenApiModels.Template
