import OpenApiModels.Yaml.Scalar

/-!
# Tokens of YAML texts

A text is read from left to right. What turns out to be the key of a mapping is known only at the
colon behind it, so the tokens that open a mapping are put in where the key began.
-/

namespace OpenApiModels.Yaml

/-- How a scalar is written, as far as it matters for what it means. -/
inductive ScalarStyle where
  | plain
  | quoted
  | literal
  | folded
deriving DecidableEq, Repr

inductive Token where
  | versionDirective (major minor : Nat)
  | tagDirective (handle start : String)
  | documentStart
  | documentEnd
  | sequenceStart
  | mappingStart
  | blockEnd
  | flowSequenceStart
  | flowSequenceEnd
  | flowMappingStart
  | flowMappingEnd
  | blockEntry
  | flowEntry
  | key
  | value
  | anchor (name : String)
  | alias (name : String)
  | tag (handle suffix : String)
  | scalar (style : ScalarStyle) (text : String)
deriving DecidableEq, Repr

/-! ### Directives, anchors and tags -/

/-- Reads a number of at most nine digits. -/
def readNumber (cs : List Char) : Option (Nat × List Char) :=
  let digits := cs.takeWhile Char.isDigit
  if digits.isEmpty || 9 < digits.length then none
  else some (Nat.ofDigitChars 10 digits 0, cs.dropWhile Char.isDigit)

/-- The characters of a URI in tags; `full` adds those that may only stand between brackets. -/
def isUriChar (full : Bool) (c : Char) : Bool :=
  isNameChar c || ";/?:@&=+$.!~*'()%".toList.contains c || (full && ",[]".toList.contains c)

/-- Reads the byte that a percent sign and two hexadecimal digits stand for. -/
def readOctet : List Char → Option (Nat × List Char)
  | '%' :: a :: b :: cs => (Text.hexValue? [a, b]).map fun n => (n, cs)
  | _ => none

/-- Reads a number of further bytes of a character. -/
def readFurther : Nat → Nat → List Char → Option (Nat × List Char)
  | 0, n, cs => some (n, cs)
  | k + 1, n, cs =>
    match readOctet cs with
    | none => none
    | some (b, cs) => if b / 64 = 2 then readFurther k (n * 64 + b % 64) cs else none

/-- Reads a character given by its bytes in UTF-8. -/
def readPercent (cs : List Char) : Option (Char × List Char) :=
  match readOctet cs with
  | none => none
  | some (b, cs) =>
    let sized (k first : Nat) := (readFurther k first cs).map fun (n, cs) => (Char.ofNat n, cs)
    if b < 0x80 then sized 0 b
    else if b / 32 = 6 then sized 1 (b % 32)
    else if b / 16 = 14 then sized 2 (b % 16)
    else if b / 8 = 30 then sized 3 (b % 8)
    else none

def readUri (full : Bool) (cs : List Char) : Option (List Char × List Char) :=
  match cs with
  | [] => some ([], [])
  | c :: cs =>
    if c == '%' then
      match readPercent (c :: cs) with
      | none => none
      | some (d, rest) =>
        if rest.length ≤ cs.length then
          (readUri full rest).map fun (uri, rest) => (d :: uri, rest)
        else none
    else if isUriChar full c then (readUri full cs).map fun (uri, rest) => (c :: uri, rest)
    else some ([], c :: cs)
termination_by cs.length

/-- Reads a handle: a mark, and perhaps a name and a second mark. -/
def readHandle : List Char → Option (List Char × List Char)
  | '!' :: cs =>
    let name := cs.takeWhile isNameChar
    match cs.dropWhile isNameChar with
    | '!' :: rest => some ('!' :: name ++ ['!'], rest)
    | rest => some ('!' :: name, rest)
  | _ => none

/-- Reads the handle and the suffix of a tag. A verbatim tag has no handle. -/
def readTag (cs : List Char) : Option (Token × List Char) :=
  match cs with
  | '!' :: '<' :: rest => do
    let (uri, rest) ← readUri true rest
    match uri, rest with
    | _ :: _, '>' :: rest => some (.tag "" (String.ofList uri), rest)
    | _, _ => none
  | _ => do
    let (handle, rest) ← readHandle cs
    let (uri, rest) ← readUri false rest
    if 1 < handle.length && handle.getLast? == some '!' then
      if uri.isEmpty then none
      else some (.tag (String.ofList handle) (String.ofList uri), rest)
    else
      let suffix := handle.drop 1 ++ uri
      if suffix.isEmpty then some (.tag "" "!", rest)
      else some (.tag "!" (String.ofList suffix), rest)

/-- Reads the values of a directive. -/
def readDirective (name : List Char) (cs : List Char) : Option (Token × List Char) := do
  let cs := cs.dropWhile isSpaceOrTab
  if name == "YAML".toList then
    let (major, cs) ← readNumber cs
    let '.' :: cs := cs | none
    let (minor, cs) ← readNumber cs
    some (.versionDirective major minor, cs)
  else if name == "TAG".toList then
    let (handle, cs) ← readHandle cs
    if handle != ['!'] && handle.getLast? != some '!' then none
    if !cs.head?.any isSpaceOrTab then none
    let (uri, cs) ← readUri true (cs.dropWhile isSpaceOrTab)
    if uri.isEmpty || !endsToken cs then none
    some (.tagDirective (String.ofList handle) (String.ofList uri), cs)
  else none

/-! ### Scanners -/

/-- The place of a token that may turn out to begin a key. A required key cannot be anything
else. -/
structure KeyPlace where
  required : Bool
  index : Nat
  line : Nat
  column : Nat

/-- The farthest that the colon of a key may stand behind its start. -/
def keyLimit : Nat := 1024

structure Scanner where
  cursor : Cursor
  /-- The tokens so far, the last one first, and their number. -/
  tokens : List Token := []
  count : Nat := 0
  /-- The columns of the open block collections, the innermost first. -/
  columns : List Nat := []
  /-- The place of a possible key in the innermost flow collection, and in those around it. -/
  keyPlace : Option KeyPlace := none
  outerKeys : List (Option KeyPlace) := []
  /-- Whether a key may begin here. -/
  keyAllowed : Bool := true

namespace Scanner

def inFlow (s : Scanner) : Bool :=
  !s.outerKeys.isEmpty

/-- The column of the innermost block collection; outside of all, one before the first. -/
def indent (s : Scanner) : Int :=
  match s.columns with
  | [] => -1
  | c :: _ => c

def emit (t : Token) (s : Scanner) : Scanner :=
  { s with tokens := t :: s.tokens, count := s.count + 1 }

/-- Puts in a token before the one with the given number. -/
def insert (index : Nat) (t : Token) (s : Scanner) : Scanner :=
  { s with tokens := s.tokens.insertIdx (s.count - index) t, count := s.count + 1 }

def moveTo (cur : Cursor) (s : Scanner) : Scanner :=
  { s with cursor := cur }

def allowKey (b : Bool) (s : Scanner) : Scanner :=
  { s with keyAllowed := b }

/-! ### Indentation -/

/-- Closes the block collections that are indented by more than `column`. -/
def closeBlocks (column : Int) (s : Scanner) : Scanner :=
  if s.inFlow then s
  else
    let closed := s.columns.takeWhile fun c => decide (column < Int.ofNat c)
    { s with
      columns := s.columns.drop closed.length
      tokens := closed.map (fun _ => Token.blockEnd) ++ s.tokens
      count := s.count + closed.length }

/-- Opens a block collection at a column, unless one is open there. -/
def openBlock (column index : Nat) (t : Token) (s : Scanner) : Scanner :=
  if s.inFlow || decide ((column : Int) ≤ s.indent) then s
  else { s.insert index t with columns := column :: s.columns }

/-! ### Possible keys -/

/-- Gives up a possible key, unless it is required. -/
def dropKey (s : Scanner) : Option Scanner :=
  match s.keyPlace with
  | some place => if place.required then none else some { s with keyPlace := none }
  | none => some s

/-- Notes that a key may begin here. -/
def saveKey (s : Scanner) : Option Scanner :=
  if s.keyAllowed then
    s.dropKey.map fun s =>
      let place : KeyPlace :=
        { required := !s.inFlow && s.indent == s.cursor.column
          index := s.count
          line := s.cursor.line
          column := s.cursor.column }
      { s with keyPlace := some place }
  else some s

/-- A key has to end on its line, within the limit. -/
def dropStaleKey (cur : Cursor) (place : Option KeyPlace) : Option (Option KeyPlace) :=
  match place with
  | none => some none
  | some p =>
    if p.line < cur.line || p.column + keyLimit < cur.column then
      if p.required then none else some none
    else some (some p)

def dropStaleKeys (s : Scanner) : Option Scanner := do
  let keyPlace ← dropStaleKey s.cursor s.keyPlace
  let outerKeys ← s.outerKeys.mapM (dropStaleKey s.cursor)
  pure { s with keyPlace, outerKeys }

/-! ### Gaps between tokens -/

/-- Skips blanks, comments and line breaks. The flag says whether a key may begin; outside of flow
collections it may on a new line. -/
def skipGap (inFlow keyAllowed : Bool) (cur : Cursor) : Cursor × Bool :=
  match _h : cur.rest with
  | [] => (cur, keyAllowed)
  | c :: cs =>
    if c = ' ' || (c = '\t' && (inFlow || !keyAllowed)) then skipGap inFlow keyAllowed (cur.skip 1)
    else if c = '#' then
      skipGap inFlow keyAllowed (cur.skip (1 + (cs.takeWhile fun d => !isBreak d).length))
    else if isBreak c then skipGap inFlow (keyAllowed || !inFlow) cur.skipBreak
    else (cur, keyAllowed)
termination_by cur.rest.length
decreasing_by all_goals simp_all; try omega

/-! ### Single tokens -/

/-- The scanner at the start of a text. -/
def ofText (text : String) : Scanner :=
  { cursor := Cursor.ofText text }

/-- Emits a token of the given length. -/
def take (n : Nat) (t : Token) (s : Scanner) : Scanner :=
  (s.emit t).moveTo (s.cursor.skip n)

def scanDirective (s : Scanner) : Option Scanner := do
  let s ← (s.closeBlocks (-1)).dropKey
  let cs := s.cursor.rest.drop 1
  let name := cs.takeWhile isNameChar
  let rest := cs.dropWhile isNameChar
  if name.isEmpty || !endsToken rest then none
  let (t, rest) ← readDirective name rest
  let stop := s.cursor.skipTo (skipLineEnd rest)
  match stop.rest with
  | [] => some (((s.emit t).moveTo stop).allowKey false)
  | c :: _ =>
    if isBreak c then some (((s.emit t).moveTo stop.skipBreak).allowKey false) else none

def scanDocumentMark (t : Token) (s : Scanner) : Option Scanner :=
  (s.closeBlocks (-1)).dropKey.map fun s => (s.take 3 t).allowKey false

def scanFlowStart (t : Token) (s : Scanner) : Option Scanner :=
  s.saveKey.map fun s =>
    { (s.take 1 t).allowKey true with keyPlace := none, outerKeys := s.keyPlace :: s.outerKeys }

def scanFlowEnd (t : Token) (s : Scanner) : Option Scanner :=
  s.dropKey.map fun s =>
    let s :=
      match s.outerKeys with
      | [] => s
      | place :: outer => { s with keyPlace := place, outerKeys := outer }
    (s.take 1 t).allowKey false

def scanFlowEntry (s : Scanner) : Option Scanner :=
  s.dropKey.map fun s => (s.take 1 .flowEntry).allowKey true

/-- Opens a block collection here. It has to be allowed outside of flow collections. -/
def openHere (t : Token) (s : Scanner) : Option Scanner :=
  if !s.inFlow && !s.keyAllowed then none
  else some (s.openBlock s.cursor.column s.count t)

def scanBlockEntry (s : Scanner) : Option Scanner := do
  let s ← s.openHere .sequenceStart
  let s ← s.dropKey
  pure ((s.take 1 .blockEntry).allowKey true)

def scanKey (s : Scanner) : Option Scanner := do
  let s ← s.openHere .mappingStart
  let s ← s.dropKey
  pure ((s.take 1 .key).allowKey !s.inFlow)

/-- At a colon, the possible key becomes a key. -/
def scanValue (s : Scanner) : Option Scanner :=
  match s.keyPlace with
  | some place =>
    let s := (s.insert place.index .key).openBlock place.column place.index .mappingStart
    some (({ s with keyPlace := none }.take 1 .value).allowKey false)
  | none =>
    (s.openHere .mappingStart).map fun s => (s.take 1 .value).allowKey !s.inFlow

/-- Reads the name of an anchor or an alias. -/
def scanName (t : String → Token) (s : Scanner) : Option Scanner := do
  let s ← s.saveKey
  let cs := s.cursor.rest.drop 1
  let name := cs.takeWhile isNameChar
  let rest := cs.dropWhile isNameChar
  if name.isEmpty || !(endsToken rest || rest.head?.any "?:,]\x7d%@`".toList.contains) then none
  pure ((s.take (1 + name.length) (t (String.ofList name))).allowKey false)

def scanTag (s : Scanner) : Option Scanner := do
  let s ← s.saveKey
  let (t, rest) ← readTag s.cursor.rest
  if !(endsToken rest || (s.inFlow && rest.head? == some ',')) then none
  pure (((s.emit t).moveTo (s.cursor.skipTo rest)).allowKey false)

def scanBlock (folded : Bool) (s : Scanner) : Option Scanner := do
  let s ← s.dropKey
  let (text, next) ← readBlock folded s.indent (s.cursor.skip 1)
  let style := if folded then ScalarStyle.folded else .literal
  pure (((s.emit (.scalar style (String.ofList text))).moveTo next).allowKey true)

def scanQuoted (style : QuoteStyle) (s : Scanner) : Option Scanner := do
  let s ← s.saveKey
  let (text, next) ← readQuoted style [] (s.cursor.skip 1)
  pure (((s.emit (.scalar .quoted (String.ofList text))).moveTo next).allowKey false)

def scanPlain (s : Scanner) : Option Scanner := do
  let s ← s.saveKey
  let plain ← readPlain s.inFlow (s.indent + 1).toNat [] {} s.cursor
  pure (((s.emit (.scalar .plain (String.ofList plain.text))).moveTo plain.next).allowKey
    plain.broken)

/-- Whether a plain scalar can begin with a character, before the rest of the text. -/
def startsPlain (inFlow : Bool) (c : Char) (rest : List Char) : Bool :=
  !(isSpaceOrTab c || isBreak c || "-?:,[]\x7b\x7d#&*!|>'\"%@`".toList.contains c) ||
    (c == '-' && !rest.head?.any isSpaceOrTab) ||
    (!inFlow && (c == '?' || c == ':') && !endsToken rest)

/-- Scans the token that begins at the cursor with the character `c`. -/
def scanToken (c : Char) (rest : List Char) (s : Scanner) : Option Scanner :=
  let ends := endsToken rest
  if s.cursor.column = 0 && c == '%' then s.scanDirective
  else if s.cursor.atMark "---" then s.scanDocumentMark .documentStart
  else if s.cursor.atMark "..." then s.scanDocumentMark .documentEnd
  else if c = '[' then s.scanFlowStart .flowSequenceStart
  else if c = '{' then s.scanFlowStart .flowMappingStart
  else if c = ']' then s.scanFlowEnd .flowSequenceEnd
  else if c = '}' then s.scanFlowEnd .flowMappingEnd
  else if c = ',' then s.scanFlowEntry
  else if c == '-' && ends then s.scanBlockEntry
  else if c == '?' && (s.inFlow || ends) then s.scanKey
  else if c == ':' && (s.inFlow || ends) then s.scanValue
  else if c = '*' then s.scanName .alias
  else if c = '&' then s.scanName .anchor
  else if c = '!' then s.scanTag
  else if c == '|' && !s.inFlow then s.scanBlock false
  else if c == '>' && !s.inFlow then s.scanBlock true
  else if c = '\'' then s.scanQuoted .single
  else if c = '"' then s.scanQuoted .double
  else if startsPlain s.inFlow c rest then s.scanPlain
  else none

/-- Scans to the end of the text. -/
def scanAll (s : Scanner) : Option (List Token) :=
  let (cur, keyAllowed) := skipGap s.inFlow s.keyAllowed s.cursor
  match dropStaleKeys { s with cursor := cur, keyAllowed } with
  | none => none
  | some ready =>
    let ready := ready.closeBlocks cur.column
    match cur.rest with
    | [] => ((ready.closeBlocks (-1)).dropKey).map fun s => s.tokens.reverse
    | c :: rest =>
      match ready.scanToken c rest with
      | none => none
      | some next =>
        if next.cursor.rest.length < s.cursor.rest.length then next.scanAll else none
termination_by s.cursor.rest.length

end Scanner

/-- The tokens of a text. -/
def tokens? (text : String) : Option (List Token) :=
  if text.toList.all isAllowed then (Scanner.ofText text).scanAll else none

end OpenApiModels.Yaml
