import OpenApiModels.Text.Hex
import OpenApiModels.Yaml.Node

/-!
# Records in YAML documents

Records are read from mappings by key. Keys that a record does not know are passed over, and a
record for which nothing is written has all its fields missing.
-/

namespace OpenApiModels.Yaml

-- Powers are those of the core library, whatever else is imported.
attribute [local instance (high)] instPowNat

/-- A document together with a node of it. -/
structure View where
  root : Node
  node : Node

namespace View

/-- The node, or that which it is an alias for. -/
def target (v : View) : Node :=
  match v.node.bare with
  | .alias name => ((v.root.anchor? name).getD .nothing).bare
  | node => node

def child (v : View) (node : Node) : View :=
  { v with node }

/-! ### Scalars -/

/-- The words for null. -/
def isNullWord (s : String) : Bool :=
  ["null", "Null", "NULL", "~"].contains s

/-- The text of a scalar, however it is written. -/
def text? (v : View) : Option String :=
  match v.target with
  | .scalar _ _ s => some s
  | _ => none

/-- The text of a scalar that can have a type of its own: a plain one, or a literal block that is
tagged with the type. -/
def typedText? (type : String) (v : View) : Option String :=
  match v.target with
  | .scalar _ .plain s => some s
  | .scalar tag .literal s => if tag = some ("tag:yaml.org,2002:" ++ type) then some s else none
  | _ => none

def flag? (v : View) : Option Bool :=
  match v.typedText? "bool" with
  | some s =>
    if ["true", "True", "TRUE"].contains s then some true
    else if ["false", "False", "FALSE"].contains s then some false
    else none
  | none => none

/-- The number that digits write to a base up to 16. -/
def digitsValue? (base : Nat) (cs : List Char) : Option Nat :=
  if cs.isEmpty then none
  else cs.foldlM (fun n c => (Text.hexDigit? c).bind fun d =>
    if d < base then some (n * base + d) else none) 0

/-- The number that a text writes: in base 16, 8 or 2 behind a prefix, else in base 10 without
leading zeros. -/
def count? (s : String) : Option Nat :=
  let cs := match s.toList with
    | '+' :: cs => cs
    | cs => cs
  match cs with
  | '0' :: 'x' :: ds => digitsValue? 16 ds
  | '0' :: 'o' :: ds => digitsValue? 8 ds
  | '0' :: 'b' :: ds => digitsValue? 2 ds
  | '0' :: _ :: _ => none
  | ds => digitsValue? 10 ds

/-- A number of at most 64 bits. -/
def number? (v : View) : Option Nat :=
  ((v.typedText? "int").bind count?).filter fun n => decide (n < 2 ^ (64 : Nat))

/-- A text that may be missing. Quotes or a tag make a word for null a text. -/
def optionalText? (v : View) : Option (Option String) :=
  match v.target with
  | .scalar none .plain s => some (if s == "" || isNullWord s then none else some s)
  | .scalar (some "tag:yaml.org,2002:null") .plain s => if isNullWord s then some none else none
  | .scalar _ _ s => some (some s)
  | _ => none

/-- A word out of a fixed choice: a scalar, or a tag for which nothing or null is written. -/
def choice? (v : View) : Option String :=
  match v.target with
  | .scalar tag style s =>
    match tag.map String.toList with
    | some ('!' :: word) =>
      if style = .plain && (s == "" || isNullWord s) then some (String.ofList word) else none
    | _ => some s
  | _ => none

/-! ### Collections -/

/-- A list of texts. -/
def texts? (v : View) : Option (List String) :=
  match v.target with
  | .sequence items => items.mapM fun item => (v.child item).text?
  | .scalar _ .plain "" => some []
  | _ => none

/-- The known fields of a record with their values. A known key may not be repeated. -/
def fields? (known : List String) (v : View) : Option (List (String × View)) :=
  match v.target with
  | .mapping pairs => do
    let named ← pairs.mapM fun (k, value) => (v.child k).text?.map fun key => (key, v.child value)
    let fields := named.filter fun f => known.contains f.1
    if (fields.map (·.1)).Nodup then some fields else none
  | .scalar _ .plain "" => some []
  | _ => none

/-- The value of a field; `default` if it is missing. -/
def field {α : Type} (fields : List (String × View)) (key : String) (default : α)
    (read : View → Option α) : Option α :=
  match fields.lookup key with
  | some v => read v
  | none => some default

end View

/-- The root of the only document of a text. -/
def view? (text : String) : Option View :=
  (read? text).map fun root => ⟨root, root⟩

end OpenApiModels.Yaml
