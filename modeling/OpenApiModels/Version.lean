import OpenApiModels.Json.Basic
import OpenApiModels.Number.Shortest
import OpenApiModels.Text.Blank
import OpenApiModels.Text.Letter
import OpenApiModels.Text.Search

/-!
# Versions of specs

The version of a spec is read from its dialect extension or its version member. Its numbers are
read twice: as the integers before and after the first point, and as one decimal number.
-/

namespace OpenApiModels

-- Powers are those of the core library, whatever else is imported.
attribute [local instance (high)] instPowNat

open Text

structure Version where
  text : String
  major : Nat
  minor : Nat
  dialect : String
deriving DecidableEq, Repr

namespace Version

/-- The member that names a dialect; it wins over the version members. -/
def dialectKey : String := "x-openapi-dialect"

/-- The version and dialect of documents that declare none. -/
def unknownText : String := "unknown"

/-! ### Numbers of a version text -/

/-- The number of leading ASCII digits after blanks; 0 if there is none or it exceeds 32 bits. -/
def leadingNumber (part : List Char) : Nat :=
  let n := Number.digitsValue ((trimStart part).takeWhile Char.isDigit)
  if n < 2 ^ (32 : Nat) then n else 0

def ofText (text dialect : String) : Version :=
  let parts := splitAtChar '.' text.toList
  { text, dialect
    major := leadingNumber (parts.getD 0 [])
    minor := leadingNumber (parts.getD 1 []) }

def isUnknown (v : Version) : Bool :=
  v.text == unknownText

/-- The leading `major[.minor]` of a text as a decimal number. -/
def decimal? (text : String) : Option Number.Rounded :=
  let cs := trim text.toList
  let whole := cs.takeWhile Char.isDigit
  let fraction :=
    match cs.dropWhile Char.isDigit with
    | '.' :: rest => rest.takeWhile Char.isDigit
    | _ => []
  if whole.isEmpty then none
  else some (Number.Binary64.ofRatio false (Number.digitsValue (whole ++ fraction))
    (10 ^ fraction.length))

/-! ### Reading it from a document -/

/-- The digits, point, digits and, if it follows, point and digits that a text starts with. -/
def dottedPrefix? (cs : List Char) : Option (List Char) :=
  let part (cs : List Char) := cs.takeWhile isDecimalDigit
  let first := part cs
  match first.isEmpty, cs.drop first.length with
  | false, '.' :: rest =>
    let second := part rest
    if second.isEmpty then none
    else
      match rest.drop second.length with
      | '.' :: rest =>
        let third := part rest
        some (first ++ '.' :: second ++ if third.isEmpty then [] else '.' :: third)
      | _ => some (first ++ '.' :: second)
  | _, _ => none

/-- The first dotted version in a text. -/
def dotted? : List Char → Option (List Char)
  | [] => none
  | c :: cs => (dottedPrefix? (c :: cs)).orElse fun _ => dotted? cs

/-- The two kinds of documents, by the member that declares their version. -/
inductive Family where
  | openapi
  | swagger

def Family.dialect (v : Version) : Family → String
  | .openapi => s!"https://spec.openapis.org/oas/{v.major}.{v.minor}/dialect/base"
  | .swagger => s!"https://swagger.io/specification/v{v.major}/"

/-- The declared version and the family that it belongs to. -/
def declared? (doc : Json) : Option (String × Family) :=
  match doc.string? "openapi" with
  | some text => some (text, .openapi)
  | none => (doc.string? "swagger").map fun text => (text, .swagger)

/-- The version of a document. A dialect gives its own dotted version, or failing that the
declared one. -/
def ofDocument (doc : Json) : Version :=
  match doc.string? dialectKey, declared? doc with
  | some dialect, declared =>
    match dotted? dialect.toList with
    | some text => ofText (String.ofList text) dialect
    | none => ofText ((declared.map (·.1)).getD unknownText) dialect
  | none, some (text, family) =>
    let v := ofText text ""
    { v with dialect := family.dialect v }
  | none, none => ofText unknownText unknownText

end Version

end OpenApiModels
