import OpenApiModels.Text.Search
import OpenApiModels.TypeScript.Name

/-!
# Type expressions

The types that schemas are given, and the texts by which they are written.
-/

namespace OpenApiModels.TypeScript

inductive TypeExpr where
  /-- The type of a model. -/
  | named (name : String)
  /-- A type that the file itself declares beside its model. -/
  | inFile (name : String)
  /-- A type of the language. -/
  | builtin (name : String)
  /-- The type of one value, given by its literal. -/
  | literal (text : String)
  | array (item : TypeExpr)
  /-- Objects whose properties all have one type. -/
  | record (value : TypeExpr)
  /-- Objects with the given keys; the flag marks the required ones. -/
  | object (fields : List (String × Bool × TypeExpr))
  | intersection (parts : List TypeExpr)
  | union (parts : List TypeExpr)
  /-- The type and null, if the type does not say so itself. -/
  | orNull (base : TypeExpr)

namespace TypeExpr

/-- The type that admits every value. -/
def unknown : TypeExpr := .builtin "unknown"

/-! ### Texts -/

/-- Parentheses around a text that a union seems to stand in, unless it starts with a brace. -/
def parenthesizeUnion (text : List Char) : List Char :=
  if Text.containsText [' ', '|', ' '] text && text.head? != some '\x7b' then
    '(' :: text ++ [')']
  else text

def arrayText (item : List Char) : List Char :=
  if item.contains '|' || item.contains '&' then '(' :: item ++ ")[]".toList
  else item ++ "[]".toList

/-- A type with null as an alternative; types that admit it already stay as they are. -/
def orNullText (base : List Char) : List Char :=
  if base = "unknown".toList ∨ base = "null".toList then base
  else parenthesizeUnion base ++ " | null".toList

def fieldText (key : String) (required : Bool) (type : List Char) : List Char :=
  key.toList ++ (if required then [] else ['?']) ++ ':' :: ' ' :: type

mutual

def text : TypeExpr → List Char
  | .named name => name.toList
  | .inFile name => name.toList
  | .builtin name => name.toList
  | .literal value => value.toList
  | .array item => arrayText (text item)
  | .record value => "Record<string, ".toList ++ text value ++ ['>']
  | .object fields =>
    '\x7b' :: ' ' :: List.intercalate [';', ' '] (fieldTexts fields) ++ [' ', '\x7d']
  | .intersection parts =>
    List.intercalate [' ', '&', ' '] ((texts parts).map parenthesizeUnion)
  | .union parts => List.intercalate [' ', '|', ' '] (texts parts)
  | .orNull base => orNullText (text base)

def texts : List TypeExpr → List (List Char)
  | [] => []
  | t :: rest => text t :: texts rest

def fieldTexts : List (String × Bool × TypeExpr) → List (List Char)
  | [] => []
  | (key, required, t) :: rest => fieldText key required (text t) :: fieldTexts rest

end

theorem texts_eq_map (parts : List TypeExpr) : texts parts = parts.map text := by
  induction parts with
  | nil => rfl
  | cons t rest ih => simp [texts, ih]

theorem fieldTexts_eq_map (fields : List (String × Bool × TypeExpr)) :
    fieldTexts fields = fields.map fun f => fieldText f.1 f.2.1 (text f.2.2) := by
  induction fields with
  | nil => rfl
  | cons f rest ih => simp [fieldTexts, ih]

theorem text_array (item : TypeExpr) : text (.array item) = arrayText (text item) := rfl

theorem text_record (value : TypeExpr) :
    text (.record value) = "Record<string, ".toList ++ text value ++ ['>'] := rfl

theorem text_object (fields : List (String × Bool × TypeExpr)) :
    text (.object fields) =
      '\x7b' :: ' ' :: List.intercalate [';', ' ']
        (fields.map fun f => fieldText f.1 f.2.1 (text f.2.2)) ++ [' ', '\x7d'] := by
  rw [← fieldTexts_eq_map]
  rfl

theorem text_intersection (parts : List TypeExpr) :
    text (.intersection parts) =
      List.intercalate [' ', '&', ' '] ((parts.map text).map parenthesizeUnion) := by
  rw [← texts_eq_map]
  rfl

theorem text_union (parts : List TypeExpr) :
    text (.union parts) = List.intercalate [' ', '|', ' '] (parts.map text) := by
  rw [← texts_eq_map]
  rfl

theorem text_orNull (base : TypeExpr) : text (.orNull base) = orNullText (text base) := rfl

/-! ### Names that a type mentions -/

mutual

/-- The model names in a type, in order of their occurrence. -/
def names : TypeExpr → List String
  | .named name => [name]
  | .inFile _ | .builtin _ | .literal _ => []
  | .array item => names item
  | .record value => names value
  | .object fields => fieldNames fields
  | .intersection parts => partNames parts
  | .union parts => partNames parts
  | .orNull base => names base

def partNames : List TypeExpr → List String
  | [] => []
  | t :: rest => names t ++ partNames rest

def fieldNames : List (String × Bool × TypeExpr) → List String
  | [] => []
  | (_, _, t) :: rest => names t ++ fieldNames rest

end

end TypeExpr

end OpenApiModels.TypeScript
