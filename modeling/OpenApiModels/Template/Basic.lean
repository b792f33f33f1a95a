import OpenApiModels.Template.Value
import OpenApiModels.Text.Search

/-!
# Templates

A template is a text with places for values and loops over lists: `{{ field.name }}` prints a
value, and what stands between `{% for x in list %}` and `{% endfor %}` is printed for each item
of the list. Conditions, inclusions and filters are not read: a template that uses them counts as
malformed.
-/

namespace OpenApiModels.Template

open Text

/-! ### Pieces -/

/-- A text, or the inside of one of the two kinds of tags. -/
inductive Piece where
  | text (s : List Char)
  | output (inside : List Char)
  | block (inside : List Char)

/-- Drops the line break that follows a block tag or a comment. -/
def skipLineBreak : List Char → List Char
  | '\r' :: '\n' :: cs => cs
  | '\r' :: cs => cs
  | '\n' :: cs => cs
  | cs => cs

def isOpening (c : Char) : Bool :=
  c == '\x7b' || c == '%' || c == '#'

/-- The text up to the next tag. -/
def plainText : List Char → List Char
  | '\x7b' :: c :: cs => if isOpening c then [] else '\x7b' :: plainText (c :: cs)
  | c :: cs => c :: plainText cs
  | [] => []

/-- The first piece of a template that is not empty, and the rest. A comment gives no piece. -/
def firstPiece? (cs : List Char) : Option (Option Piece × List Char) :=
  let text := plainText cs
  match text, cs with
  | [], _ :: c :: inner =>
    match splitFirst? [if c = '\x7b' then '\x7d' else c, '\x7d'] inner with
    | none => none
    | some (inside, rest) =>
      if c = '\x7b' then some (some (.output inside), rest)
      else if c = '%' then some (some (.block inside), skipLineBreak rest)
      else some (none, skipLineBreak rest)
  | text, cs => some (some (.text text), cs.drop text.length)

/-- Splits a template into pieces. -/
def pieces? (cs : List Char) : Option (List Piece) :=
  if cs.isEmpty then some []
  else
    match firstPiece? cs with
    | none => none
    | some (piece, rest) =>
      if rest.length < cs.length then (pieces? rest).map (piece.toList ++ ·) else none
termination_by cs.length

/-! ### Expressions -/

def isTagBlank (c : Char) : Bool :=
  c == ' ' || c == '\t' || c == '\n' || c == '\r'

def isNameStart (c : Char) : Bool :=
  c.isAlpha || c == '_'

def isNameChar (c : Char) : Bool :=
  c.isAlphanum || c == '_'

def isName (cs : List Char) : Bool :=
  cs.head?.any isNameStart && cs.all isNameChar

/-- The words of a tag. -/
def words (cs : List Char) : List (List Char) :=
  ((cs.splitBy fun a b => isTagBlank a == isTagBlank b).filter fun w => !w.any isTagBlank)

/-- A path of names with points between them. -/
def path? (cs : List Char) : Option (List String) :=
  let names := splitAtChar '.' cs
  if names.all isName then some (names.map String.ofList) else none

/-! ### Parts -/

inductive Part where
  | text (s : List Char)
  | output (path : List String)
  | loop (name : String) (path : List String) (body : List Part)

inductive Tag where
  | open (name : String) (path : List String)
  | close

def tag? (inside : List Char) : Option Tag :=
  match (words inside).map String.ofList with
  | ["endfor"] => some .close
  | ["for", name, "in", path] =>
    if isName name.toList then (path? path.toList).map (.open name) else none
  | _ => none

/-- A template during reading: the loops that are open, with the parts in front of each, and the
parts read inside the innermost one. -/
structure Progress where
  openLoops : List (String × List String × List Part) := []
  parts : List Part := []

def Progress.add (part : Part) (p : Progress) : Progress :=
  { p with parts := p.parts ++ [part] }

def Progress.step (p : Progress) : Piece → Option Progress
  | .text s => some (p.add (.text s))
  | .output inside =>
    match words inside with
    | [word] => (path? word).map fun path => p.add (.output path)
    | _ => none
  | .block inside =>
    match tag? inside with
    | none => none
    | some (.open name path) => some ⟨(name, path, p.parts) :: p.openLoops, []⟩
    | some .close =>
      match p.openLoops with
      | [] => none
      | (name, path, before) :: outer => some ⟨outer, before ++ [.loop name path p.parts]⟩

/-- The text without one line break at its end. -/
def dropLastBreak (cs : List Char) : List Char :=
  match cs.reverse with
  | '\n' :: '\r' :: r => r.reverse
  | '\n' :: r => r.reverse
  | '\r' :: r => r.reverse
  | _ => cs

/-- Reads a template. A line break at its end does not belong to it. -/
def parts? (text : String) : Option (List Part) := do
  let pieces ← pieces? (dropLastBreak text.toList)
  let p ← pieces.foldlM Progress.step {}
  if p.openLoops.isEmpty then some p.parts else none

/-! ### Rendering -/

mutual

/-- Prints a part. Nothing if it asks for a field of what is undefined. -/
def renderPart (scope : Scope) : Part → Option (List Char)
  | .text s => some s
  | .output path => (scope.value? path).map fun v => v.print.toList
  | .loop name path body => do
    let items ← (← scope.value? path).items?
    let texts ← items.mapM fun item => renderParts ((name, item) :: scope) body
    pure texts.flatten

def renderParts (scope : Scope) : List Part → Option (List Char)
  | [] => some []
  | part :: rest => do
    let text ← renderPart scope part
    let more ← renderParts scope rest
    pure (text ++ more)

end

/-- The text with a line break at its end. -/
def endLine (cs : List Char) : List Char :=
  if cs.getLast? == some '\n' then cs else cs ++ ['\n']

/-- Renders the text of a template. Nothing if it is malformed or cannot be rendered. -/
def render? (text : String) (scope : Scope) : Option (List Char) := do
  let parts ← parts? text
  let cs ← renderParts scope parts
  pure (endLine cs)

end OpenApiModels.Template
