/-!
# Reading positions in YAML texts

A cursor is what is left of a text, with the line and column where it starts. Line breaks are made
alike before reading starts; the line and paragraph separators stay as they are.
-/

namespace OpenApiModels.Yaml

/-! ### Characters -/

def isBreak (c : Char) : Bool :=
  c == '\n' || c == '\u2028' || c == '\u2029'

def isSpaceOrTab (c : Char) : Bool :=
  c == ' ' || c == '\t'

/-- The characters of names of anchors, handles and directives. -/
def isNameChar (c : Char) : Bool :=
  c.isAlphanum || c == '_' || c == '-'

/-- Whether a token can end before this text. -/
def endsToken : List Char → Bool
  | [] => true
  | c :: _ => isSpaceOrTab c || isBreak c

/-- The characters that a text may contain. -/
def isAllowed (c : Char) : Bool :=
  c == '\t' || c == '\n' || c == '\r' || ('\x20' ≤ c && c ≤ '\x7e') || c == '\u0085' ||
    ('\u00a0' ≤ c && c ≤ '\ufffd') || '\uffff' < c

/-- The text with one kind of line break in place of four. -/
def unifyBreaks : List Char → List Char
  | [] => []
  | '\r' :: '\n' :: cs => '\n' :: unifyBreaks cs
  | c :: cs => (if c == '\r' || c == '\u0085' then '\n' else c) :: unifyBreaks cs

/-! ### Cursors -/

structure Cursor where
  rest : List Char
  line : Nat
  column : Nat

namespace Cursor

/-- The start of a text. A byte order mark counts as a column. -/
def ofText (text : String) : Cursor :=
  match unifyBreaks text.toList with
  | '\ufeff' :: cs => ⟨cs, 0, 1⟩
  | cs => ⟨cs, 0, 0⟩

/-- Goes on by some characters of the same line. -/
def skip (n : Nat) (cur : Cursor) : Cursor :=
  { cur with rest := cur.rest.drop n, column := cur.column + n }

/-- Goes on to a later place of the same line. -/
def skipTo (rest : List Char) (cur : Cursor) : Cursor :=
  { cur with rest, column := cur.column + (cur.rest.length - rest.length) }

/-- Goes on to the next line over the line break that starts here. -/
def skipBreak (cur : Cursor) : Cursor :=
  ⟨cur.rest.tail, cur.line + 1, 0⟩

@[simp] theorem rest_skip (n : Nat) (cur : Cursor) : (cur.skip n).rest = cur.rest.drop n := rfl

@[simp] theorem rest_skipBreak (cur : Cursor) : cur.skipBreak.rest = cur.rest.tail := rfl

/-- Whether a line starts here with the given mark of a document. -/
def atMark (mark : String) (cur : Cursor) : Bool :=
  cur.column == 0 && mark.toList.isPrefixOf cur.rest && endsToken (cur.rest.drop 3)

/-- Whether a document starts or ends here. -/
def atDocumentMark (cur : Cursor) : Bool :=
  cur.atMark "---" || cur.atMark "..."

end Cursor

end OpenApiModels.Yaml
