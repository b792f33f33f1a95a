import OpenApiModels.Json.Printer
import OpenApiModels.Text.Word

/-!
# Names in generated code

Type names, enum member names and property keys made from the names of a spec.
-/

namespace OpenApiModels.TypeScript

open Text

/-- A name that starts with an ASCII digit gets an underscore in front. -/
def guardDigit (name : List Char) : List Char :=
  if name.head?.any Char.isDigit then '_' :: name else name

/-- The type name for a schema name: its words with initial capitals. -/
def typeName (name : String) : String :=
  String.ofList (guardDigit (pascalCase name.toList))

/-- The enum member name for a value: its words in capitals. -/
def memberName (value : String) : String :=
  let name := capitalSnakeCase value.toList
  if name.isEmpty then "EMPTY" else String.ofList (guardDigit name)

def isAsciiNameStart (c : Char) : Bool :=
  c.isAlpha || c == '_' || c == '$'

def isAsciiNameChar (c : Char) : Bool :=
  c.isAlphanum || c == '_' || c == '$'

/-- Whether a property name can stand without quotes. -/
def isBareKey (name : List Char) : Bool :=
  name.head?.any isAsciiNameStart && name.all isAsciiNameChar

/-- A property key: bare where the name allows it, a string literal elsewhere. -/
def propertyKey (name : String) : String :=
  if isBareKey name.toList then name else String.ofList (Json.stringText name)

example : typeName "3d-model" = "_3dModel" := by decide
example : memberName "--" = "EMPTY" := by decide
example : propertyKey "content-type" = "\"content-type\"" := by decide

end OpenApiModels.TypeScript
