import OpenApiModels.Text.Search

/-!
# Scripts

A small command language: sequences of commands with quoting, positional parameters, output into
files, conjunction, disjunction and branches.
-/

namespace OpenApiModels.Script

inductive Parameter where
  | positional (n : Nat)
  /-- All positional parameters, joined by blanks. -/
  | all
  /-- All positional parameters, each a word of its own. -/
  | each
  | count
  /-- The status of the command before. -/
  | status
deriving DecidableEq, Repr

/-- A part of a word. Only what is not quoted is split at blanks. -/
inductive Fragment where
  | text (s : String) (quoted : Bool)
  | parameter (p : Parameter) (quoted : Bool)
deriving DecidableEq, Repr

abbrev Word := List Fragment

/-- A word that is written without quotes or parameters. -/
def Word.plain? : Word → Option String
  | [.text s false] => some s
  | _ => none

inductive Stream where
  | output
  | errors
deriving DecidableEq, Repr

/-- Where a stream goes. -/
inductive Redirect where
  | file (stream : Stream) (append : Bool) (target : Word)
  | stream (stream target : Stream)
deriving DecidableEq, Repr

inductive Command where
  | simple (words : List Word) (redirects : List Redirect)
  | negated (c : Command)
  | both (a b : Command)
  | either (a b : Command)
  | branch (condition yes no : List Command)

inductive Token where
  | word (w : Word)
  | separator
  | both
  | either
  | redirect (stream : Stream) (append : Bool)
  | duplicate (stream target : Stream)
deriving DecidableEq, Repr

/-! ### Words -/

def isScriptBlank (c : Char) : Bool :=
  c == ' ' || c == '\t'

/-- The characters that end a word. -/
def endsWord (c : Char) : Bool :=
  isScriptBlank c || c == '\n' || c == ';' || c == '&' || c == '|' || c == '<' || c == '>' ||
    c == '(' || c == ')'

/-- The characters with a meaning of their own within a word. -/
def isSpecial (c : Char) : Bool :=
  c == '\'' || c == '"' || c == '\\' || c == '$' || c == '\x60'

/-- Reads what follows a dollar sign. A dollar sign alone stands for itself. -/
def readParameter (quoted : Bool) : List Char → Option (Fragment × List Char)
  | '*' :: cs => some (.parameter .all quoted, cs)
  | '@' :: cs => some (.parameter .each quoted, cs)
  | '#' :: cs => some (.parameter .count quoted, cs)
  | '?' :: cs => some (.parameter .status quoted, cs)
  | c :: cs =>
    if c.isDigit then some (.parameter (.positional (c.toNat - '0'.toNat)) quoted, cs)
    else if c.isAlpha || c == '_' || c == '(' || c == '\x7b' then none
    else some (.text "$" quoted, c :: cs)
  | [] => some (.text "$" quoted, [])

/-- Reads the rest of a text in double quotes. -/
def readDouble (cs : List Char) : Option (Word × List Char) :=
  match cs with
  | [] => none
  | '"' :: cs => some ([], cs)
  | '\\' :: c :: cs =>
    let text := if c == '"' || c == '\\' || c == '$' || c == '\x60' then [c]
      else if c == '\n' then [] else ['\\', c]
    (readDouble cs).map fun (w, rest) => (.text (String.ofList text) true :: w, rest)
  | '$' :: cs =>
    match readParameter true cs with
    | none => none
    | some (f, rest) =>
      if rest.length ≤ cs.length then (readDouble rest).map fun (w, rest) => (f :: w, rest)
      else none
  | '\x60' :: _ => none
  | c :: cs =>
    (readDouble cs).map fun (w, rest) => (.text (String.singleton c) true :: w, rest)
termination_by cs.length

/-- Reads a fragment, or several in double quotes. -/
def readFragments : List Char → Option (Word × List Char)
  | '\'' :: cs =>
    match cs.dropWhile (· != '\'') with
    | [] => none
    | _ :: rest => some ([.text (String.ofList (cs.takeWhile (· != '\''))) true], rest)
  | '"' :: cs => (readDouble cs).map fun (w, rest) => (.text "" true :: w, rest)
  | '\\' :: '\n' :: cs => some ([], cs)
  | '\\' :: c :: cs => some ([.text (String.singleton c) true], cs)
  | '$' :: cs => (readParameter false cs).map fun (f, rest) => ([f], rest)
  | cs =>
    let plain (c : Char) : Bool := !endsWord c && !isSpecial c
    some ([.text (String.ofList (cs.takeWhile plain)) false], cs.dropWhile plain)

/-- Reads a word. -/
def readWord (cs : List Char) : Option (Word × List Char) :=
  if cs.head?.all endsWord then some ([], cs)
  else
    match readFragments cs with
    | none => none
    | some (w, rest) =>
      if rest.length < cs.length then
        (readWord rest).map fun (more, rest) => (w ++ more, rest)
      else none
termination_by cs.length

/-! ### Tokens -/

/-- Reads an operator at the start of a text. -/
def readOperator : List Char → Option (Token × List Char)
  | '\n' :: cs | ';' :: cs => some (.separator, cs)
  | '&' :: '&' :: cs => some (.both, cs)
  | '|' :: '|' :: cs => some (.either, cs)
  | '2' :: '>' :: '&' :: '1' :: cs => some (.duplicate .errors .output, cs)
  | '1' :: '>' :: '&' :: '2' :: cs | '>' :: '&' :: '2' :: cs =>
    some (.duplicate .output .errors, cs)
  | '2' :: '>' :: '>' :: cs => some (.redirect .errors true, cs)
  | '2' :: '>' :: cs => some (.redirect .errors false, cs)
  | '1' :: '>' :: '>' :: cs | '>' :: '>' :: cs => some (.redirect .output true, cs)
  | '1' :: '>' :: cs | '>' :: cs => some (.redirect .output false, cs)
  | _ => none

/-- Reads a token; blanks and comments are none. -/
def readToken : List Char → Option (Option Token × List Char)
  | [] => none
  | c :: rest =>
    if isScriptBlank c then some (none, rest)
    else if c == '#' then some (none, rest.dropWhile (· != '\n'))
    else
      match readOperator (c :: rest) with
      | some (t, after) => some (some t, after)
      | none =>
        if endsWord c then none
        else (readWord (c :: rest)).map fun (w, after) => (some (.word w), after)

/-- The tokens of a script. -/
def tokens? (cs : List Char) : Option (List Token) :=
  if cs.isEmpty then some []
  else
    match readToken cs with
    | none => none
    | some (t, rest) =>
      if rest.length < cs.length then (tokens? rest).map (t.toList ++ ·) else none
termination_by cs.length

/-! ### Commands -/

/-- The words that structure branches. -/
def isReserved (s : String) : Bool :=
  ["if", "then", "elif", "else", "fi"].contains s

/-- The reserved word that comes next. -/
def reserved? : List Token → Option String
  | .word w :: _ => w.plain?.filter isReserved
  | _ => none

/-- Reads the words and redirects of a simple command. -/
def readSimple : List Token → Option ((List Word × List Redirect) × List Token)
  | .word w :: ts => (readSimple ts).map fun ((ws, rs), rest) => ((w :: ws, rs), rest)
  | .redirect stream append :: .word w :: ts =>
    (readSimple ts).map fun ((ws, rs), rest) => ((ws, .file stream append w :: rs), rest)
  | .redirect _ _ :: _ => none
  | .duplicate stream target :: ts =>
    (readSimple ts).map fun ((ws, rs), rest) => ((ws, .stream stream target :: rs), rest)
  | ts => some (([], []), ts)

abbrev CommandReader := List Token → Option (Command × List Token)

/-- Reads a reserved word. -/
def expect (word : String) (ts : List Token) : Option (List Token) :=
  if reserved? ts = some word then some ts.tail else none

/-- Reads commands with separators between them, up to a reserved word or the end. -/
def readSequence (command : CommandReader) (ts : List Token) :
    Option (List Command × List Token) :=
  match ts with
  | [] => some ([], [])
  | .separator :: ts => readSequence command ts
  | t :: rest =>
    match reserved? (t :: rest) with
    | some "if" | none =>
      match command (t :: rest) with
      | none => none
      | some (c, after) =>
        if after.length ≤ rest.length then
          if after.head?.all (· == .separator) then
            (readSequence command after).map fun (cs, rest) => (c :: cs, rest)
          else none
        else none
    | some _ => some ([], t :: rest)
termination_by ts.length

/-- Reads the rest of a branch from behind its `if` or `elif`. -/
def readBranch (sequence : List Token → Option (List Command × List Token)) : Nat → CommandReader
  | 0, _ => none
  | limit + 1, ts => do
    let (condition, ts) ← sequence ts
    let ts ← expect "then" ts
    let (yes, ts) ← sequence ts
    match reserved? ts with
    | some "fi" => some (.branch condition yes [], ts.tail)
    | some "else" =>
      let (no, ts) ← sequence ts.tail
      let ts ← expect "fi" ts
      some (.branch condition yes no, ts)
    | some "elif" =>
      let (no, ts) ← readBranch sequence limit ts.tail
      some (.branch condition yes [no], ts)
    | _ => none

/-- Reads further commands behind conjunctions and disjunctions. -/
def readChain (command : CommandReader) (c : Command) (ts : List Token) :
    Option (Command × List Token) :=
  match ts with
  | .both :: ts => further ts (.both c)
  | .either :: ts => further ts (.either c)
  | ts => some (c, ts)
termination_by (ts.length, 0)
where
  /-- Reads the command behind an operator. -/
  further (ts : List Token) (join : Command → Command) : Option (Command × List Token) :=
    let start := ts.dropWhile (· == .separator)
    match command start with
    | none => none
    | some (d, rest) =>
      if rest.length < ts.length then readChain command (join d) rest else none
  termination_by (ts.length, 1)

/-- Reads a command, in which branches may nest `depth` deep. -/
def readCommand : Nat → CommandReader
  | 0, _ => none
  | depth + 1, ts =>
    let single : CommandReader := fun ts =>
      let (negated, ts) := match ts with
        | .word w :: rest => if w.plain? = some "!" then (true, rest) else (false, ts)
        | ts => (false, ts)
      let read : Option (Command × List Token) :=
        match reserved? ts with
        | some "if" =>
          readBranch (readSequence (readCommand depth)) ts.length ts.tail
        | some _ => none
        | none =>
          (readSimple ts).bind fun ((ws, rs), rest) =>
            if ws.isEmpty && rs.isEmpty then none else some (.simple ws rs, rest)
      read.map fun (c, rest) => (if negated then .negated c else c, rest)
    (single ts).bind fun (c, rest) => readChain single c rest

/-- Reads a script. -/
def read? (text : String) : Option (List Command) := do
  let ts ← tokens? text.toList
  let (commands, rest) ← readSequence (readCommand (ts.length + 1)) ts
  if rest.isEmpty then some commands else none

end OpenApiModels.Script
