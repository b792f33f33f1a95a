import OpenApiModels.Text.Hex
import OpenApiModels.Yaml.Cursor

/-!
# Scalars of YAML texts

Plain, quoted and block scalars, with the rules by which line breaks in them fold.
-/

namespace OpenApiModels.Yaml

/-! ### Gaps -/

/-- The blanks between two words: those before the first line break, and the line breaks. -/
structure Gap where
  spaces : List Char := []
  breaks : List Char := []

/-- What a gap stands for: its blanks, or a blank for a single line break, or the line breaks after
the first. -/
def Gap.folded (g : Gap) : List Char :=
  match g.breaks with
  | [] => g.spaces
  | ['\n'] => [' ']
  | '\n' :: more => more
  | breaks => breaks

/-- Reads a gap. In a column before `indent` no tab may follow a line break; `broken` says whether
there was one. -/
def readGap (indent : Nat) (broken : Bool) (g : Gap) (cur : Cursor) : Option (Gap × Cursor) :=
  match _h : cur.rest with
  | [] => some (g, cur)
  | c :: _ =>
    if isSpaceOrTab c then
      if broken && c == '\t' && cur.column < indent then none
      else readGap indent broken (if broken then g else { g with spaces := g.spaces ++ [c] })
        (cur.skip 1)
    else if isBreak c then
      readGap indent true { spaces := [], breaks := g.breaks ++ [c] } cur.skipBreak
    else some (g, cur)
termination_by cur.rest.length
decreasing_by all_goals simp_all

/-! ### Plain scalars -/

/-- The characters that structure flow collections. -/
def isFlowMark (c : Char) : Bool :=
  c == ',' || c == '[' || c == ']' || c == '{' || c == '}'

/-- The characters of a plain scalar up to a blank or a mark, and what follows. In flow collections
a colon may not stand before a mark. -/
def plainWord (inFlow : Bool) : List Char → Option (List Char × List Char)
  | [] => some ([], [])
  | c :: cs =>
    if isSpaceOrTab c || isBreak c then some ([], c :: cs)
    else if inFlow && c == ':' && cs.head?.any (fun d => isFlowMark d || d == '?') then none
    else if (c == ':' && endsToken cs) || (inFlow && isFlowMark c) then some ([], c :: cs)
    else (plainWord inFlow cs).map fun (word, rest) => (c :: word, rest)

/-- A scalar, what follows it, and whether a line break was passed in between. -/
structure Plain where
  text : List Char
  next : Cursor
  broken : Bool

/-- Reads the rest of a plain scalar; `g` is the gap after what was read of it. -/
def readPlain (inFlow : Bool) (indent : Nat) (text : List Char) (g : Gap) (cur : Cursor) :
    Option Plain :=
  let here : Plain := ⟨text, cur, !g.breaks.isEmpty⟩
  if cur.atDocumentMark || cur.rest.head? == some '#' then some here
  else
    match plainWord inFlow cur.rest with
    | none => none
    | some ([], _) => some here
    | some (word, rest) =>
      let text := text ++ g.folded ++ word
      match readGap indent false {} (cur.skipTo rest) with
      | none => none
      | some (g, next) =>
        if !inFlow && next.column < indent then some ⟨text, next, !g.breaks.isEmpty⟩
        else if next.rest.length < cur.rest.length then readPlain inFlow indent text g next
        else none
termination_by cur.rest.length

/-! ### Quoted scalars -/

/-- A character given by that many hexadecimal digits. -/
def readHex (digits : Nat) (cs : List Char) : Option (Char × List Char) :=
  if cs.length < digits then none
  else
    match Text.hexValue? (cs.take digits) with
    | none => none
    | some n => if h : n.isValidChar then some (Char.ofNatAux n h, cs.drop digits) else none

/-- The character of an escape, of which the backslash has been read. -/
def readEscape : List Char → Option (Char × List Char)
  | [] => none
  | c :: cs =>
    match c with
    | '0' => some ('\x00', cs)
    | 'a' => some ('\x07', cs)
    | 'b' => some ('\x08', cs)
    | 't' => some ('\t', cs)
    | '\t' => some ('\t', cs)
    | 'n' => some ('\n', cs)
    | 'v' => some ('\x0b', cs)
    | 'f' => some ('\x0c', cs)
    | 'r' => some ('\r', cs)
    | 'e' => some ('\x1b', cs)
    | ' ' => some (' ', cs)
    | '"' => some ('"', cs)
    | '/' => some ('/', cs)
    | '\\' => some ('\\', cs)
    | 'N' => some ('\u0085', cs)
    | '_' => some ('\u00a0', cs)
    | 'L' => some ('\u2028', cs)
    | 'P' => some ('\u2029', cs)
    | 'x' => readHex 2 cs
    | 'u' => readHex 4 cs
    | 'U' => readHex 8 cs
    | _ => none

inductive QuoteStyle where
  | single
  | double
deriving DecidableEq, Repr

def QuoteStyle.mark : QuoteStyle → Char
  | single => '\''
  | double => '"'

/-- The characters of a quoted scalar up to a blank or the mark that may end it. The flag tells
that an escaped line break comes next. -/
def quotedWord (style : QuoteStyle) (cs : List Char) : Option (List Char × List Char × Bool) :=
  match cs with
  | [] => some ([], [], false)
  | c :: cs =>
    if isSpaceOrTab c || isBreak c then some ([], c :: cs, false)
    else if c = style.mark then
      if style = .single && cs.head? == some '\'' then
        (quotedWord style cs.tail).map fun (word, rest) => ('\'' :: word, rest)
      else some ([], c :: cs, false)
    else if style = .double && c == '\\' then
      if cs.head?.any isBreak then some ([], cs, true)
      else
        match readEscape cs with
        | none => none
        | some (d, rest) =>
          if rest.length < cs.length then
            (quotedWord style rest).map fun (word, rest) => (d :: word, rest)
          else none
    else (quotedWord style cs).map fun (word, rest) => (c :: word, rest)
termination_by cs.length
decreasing_by all_goals simp; try omega

/-- Reads the rest of a quoted scalar up to its closing mark. -/
def readQuoted (style : QuoteStyle) (text : List Char) (cur : Cursor) :
    Option (List Char × Cursor) :=
  if cur.atDocumentMark then none
  else
    match quotedWord style cur.rest with
    | none => none
    | some (word, rest, escapedBreak) =>
      let stop := cur.skipTo rest
      if !escapedBreak && rest.head? == some style.mark then some (text ++ word, stop.skip 1)
      else
        let gap :=
          if escapedBreak then
            (readGap 0 true {} stop.skipBreak).map fun (g, next) => (g.breaks, next)
          else (readGap 0 false {} stop).map fun (g, next) => (g.folded, next)
        match gap with
        | none => none
        | some (between, next) =>
          if next.rest.length < cur.rest.length then
            readQuoted style (text ++ word ++ between) next
          else none
termination_by cur.rest.length

/-! ### Block scalars -/

/-- What becomes of the line breaks at the end of a block scalar. -/
inductive Chomping where
  | strip
  | clip
  | keep
deriving DecidableEq, Repr

def Chomping.ofChar? : Char → Option Chomping
  | '-' => some .strip
  | '+' => some .keep
  | _ => none

/-- Reads the indentation that a header gives; zero is not allowed. -/
def readIncrement : List Char → Option (Nat × List Char)
  | [] => some (0, [])
  | c :: cs =>
    if c.isDigit then if c = '0' then none else some (c.toNat - '0'.toNat, cs)
    else some (0, c :: cs)

def readChomping : List Char → Chomping × List Char
  | [] => (.clip, [])
  | c :: cs =>
    match Chomping.ofChar? c with
    | some ch => (ch, cs)
    | none => (.clip, c :: cs)

/-- Reads the chomping mark and the indentation of a header, which come in either order. -/
def readHeader (cs : List Char) : Option (Chomping × Nat × List Char) :=
  match readChomping cs with
  | (.clip, cs) =>
    (readIncrement cs).map fun (n, cs) =>
      if n = 0 then (.clip, 0, cs) else ((readChomping cs).1, n, (readChomping cs).2)
  | (ch, cs) => (readIncrement cs).map fun (n, cs) => (ch, n, cs)

/-- Skips blanks and a comment at the end of a line. -/
def skipLineEnd (cs : List Char) : List Char :=
  match cs.dropWhile isSpaceOrTab with
  | '#' :: cs => cs.dropWhile fun c => !isBreak c
  | cs => cs

/-- Reads empty lines and the indentation of the line after them, up to column `indent` if it is
known. Yields the line breaks and the greatest indentation; a tab may not be part of it. -/
def readIndentation (indent : Option Nat) (most : Nat) (breaks : List Char) (cur : Cursor) :
    Option (List Char × Nat × Cursor) :=
  let within := indent.all fun n => decide (cur.column < n)
  match _h : cur.rest with
  | [] => some (breaks, max most cur.column, cur)
  | c :: _ =>
    if c = ' ' && within then readIndentation indent most breaks (cur.skip 1)
    else if c = '\t' && within then none
    else if isBreak c then
      readIndentation indent (max most cur.column) (breaks ++ [c]) cur.skipBreak
    else some (breaks, max most cur.column, cur)
termination_by cur.rest.length
decreasing_by all_goals simp_all

/-- The lines of a block scalar so far, with the line break after them and further ones. -/
structure BlockText where
  text : List Char := []
  lineBreak : List Char := []
  further : List Char := []
  /-- Whether the last line starts with a blank; such lines do not fold. -/
  blankStart : Bool := false

/-- What stands between the text so far and the next line. -/
def BlockText.between (b : BlockText) (folded blank : Bool) : List Char :=
  (if folded && b.lineBreak == ['\n'] && !b.blankStart && !blank then
    if b.further.isEmpty then [' '] else []
  else b.lineBreak) ++ b.further

def BlockText.chomped (b : BlockText) : Chomping → List Char
  | .strip => b.text
  | .clip => b.text ++ b.lineBreak
  | .keep => b.text ++ b.lineBreak ++ b.further

/-- Reads the lines that are indented by `indent`. -/
def readLines (folded : Bool) (indent : Nat) (b : BlockText) (cur : Cursor) :
    Option (BlockText × Cursor) :=
  if cur.column = indent ∧ cur.rest ≠ [] then
    let line := cur.rest.takeWhile fun c => !isBreak c
    let blank := cur.rest.head?.any isSpaceOrTab
    let text := b.text ++ b.between folded blank ++ line
    let stop := cur.skip line.length
    match stop.rest with
    | [] => some ({ text, blankStart := blank }, stop)
    | c :: _ =>
      match readIndentation (some indent) 0 [] stop.skipBreak with
      | none => none
      | some (further, _, next) =>
        if next.rest.length < cur.rest.length then
          readLines folded indent ⟨text, [c], further, blank⟩ next
        else none
  else some (b, cur)
termination_by cur.rest.length

/-- Reads a block scalar from behind its mark; `parent` is the indentation around it. -/
def readBlock (folded : Bool) (parent : Int) (cur : Cursor) : Option (List Char × Cursor) := do
  let (chomping, increment, rest) ← readHeader cur.rest
  let stop := cur.skipTo (skipLineEnd rest)
  let start ←
    match stop.rest with
    | [] => some stop
    | c :: _ => if isBreak c then some stop.skipBreak else none
  let known := if increment = 0 then none else some ((max parent 0).toNat + increment)
  let (breaks, most, start) ← readIndentation known 0 [] start
  let indent := known.getD (max most (max (parent + 1).toNat 1))
  let (b, next) ← readLines folded indent { further := breaks } start
  pure (b.chomped chomping, next)

end OpenApiModels.Yaml
