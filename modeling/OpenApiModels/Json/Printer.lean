import OpenApiModels.Json.Basic
import OpenApiModels.Number.Shortest

/-!
# JSON texts

`pretty` indents by two spaces; `compact` writes no blanks. Strings escape only quotes,
backslashes and control characters.
-/

namespace OpenApiModels.Json

/-! ### Scalars -/

/-- The hexadecimal digits of a control character, two of them. -/
def controlHex (c : Char) : List Char :=
  [Nat.digitChar (c.toNat / 16), Nat.digitChar (c.toNat % 16)]

def escapeChar (c : Char) : List Char :=
  match c with
  | '"' => ['\\', '"']
  | '\\' => ['\\', '\\']
  | '\x08' => ['\\', 'b']
  | '\x0c' => ['\\', 'f']
  | '\n' => ['\\', 'n']
  | '\r' => ['\\', 'r']
  | '\t' => ['\\', 't']
  | c => if c.toNat < 0x20 then ['\\', 'u', '0', '0'] ++ controlHex c else [c]

/-- A string literal. -/
def stringText (s : String) : List Char :=
  '"' :: s.toList.flatMap escapeChar ++ ['"']

def integerText (n : Int) : List Char :=
  (if n < 0 then ['-'] else []) ++ Nat.toDigits 10 n.natAbs

def numberText : Number.Value → List Char
  | .integer n => integerText n
  | .real x => Number.jsonReal.write x

def boolText (b : Bool) : List Char :=
  if b then "true".toList else "false".toList

/-! ### Compact texts -/

mutual

def compact : Json → List Char
  | .null => "null".toList
  | .bool b => boolText b
  | .number n => numberText n
  | .string s => stringText s
  | .array items => '[' :: compactItems items ++ [']']
  | .object members => '\x7b' :: compactMembers members ++ ['\x7d']

def compactItems : List Json → List Char
  | [] => []
  | [v] => compact v
  | v :: w :: rest => compact v ++ ',' :: compactItems (w :: rest)

def compactMembers : List (String × Json) → List Char
  | [] => []
  | [(k, v)] => stringText k ++ ':' :: compact v
  | (k, v) :: m :: rest => stringText k ++ ':' :: compact v ++ ',' :: compactMembers (m :: rest)

end

/-! ### Indented texts -/

/-- A line break and the blanks of a nesting depth. -/
def lineBreak (depth : Nat) : List Char :=
  '\n' :: List.replicate (2 * depth) ' '

mutual

/-- The text of a value that starts at nesting depth `depth`. -/
def prettyAt (depth : Nat) : Json → List Char
  | .null => "null".toList
  | .bool b => boolText b
  | .number n => numberText n
  | .string s => stringText s
  | .array [] => ['[', ']']
  | .array (v :: rest) =>
    '[' :: lineBreak (depth + 1) ++ prettyItems (depth + 1) (v :: rest) ++ lineBreak depth ++ [']']
  | .object [] => ['\x7b', '\x7d']
  | .object (m :: rest) =>
    '\x7b' :: lineBreak (depth + 1) ++ prettyMembers (depth + 1) (m :: rest) ++
      lineBreak depth ++ ['\x7d']

def prettyItems (depth : Nat) : List Json → List Char
  | [] => []
  | [v] => prettyAt depth v
  | v :: w :: rest => prettyAt depth v ++ ',' :: lineBreak depth ++ prettyItems depth (w :: rest)

def prettyMembers (depth : Nat) : List (String × Json) → List Char
  | [] => []
  | [(k, v)] => stringText k ++ ':' :: ' ' :: prettyAt depth v
  | (k, v) :: m :: rest =>
    stringText k ++ ':' :: ' ' :: prettyAt depth v ++ ',' :: lineBreak depth ++
      prettyMembers depth (m :: rest)

end

/-- The indented text of a document. -/
def pretty (doc : Json) : String :=
  String.ofList (prettyAt 0 doc)

def compactText (doc : Json) : String :=
  String.ofList (compact doc)

example : pretty (.object [("a", .array []), ("b", .array [.null, .bool true])]) =
    "\x7b\n  \"a\": [],\n  \"b\": [\n    null,\n    true\n  ]\n\x7d" := by decide

end OpenApiModels.Json
