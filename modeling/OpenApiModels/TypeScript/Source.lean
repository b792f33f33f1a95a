import OpenApiModels.Text.Blank
import OpenApiModels.Text.Letter
import OpenApiModels.Text.Search

/-!
# Source texts

A source text is a list of tokens with the blanks and comments before each of them, and what
follows the last one. `text_of_ofText?` says that nothing is lost.
-/

namespace OpenApiModels.TypeScript

open Text

inductive TokenKind where
  | word
  | literal
  | number
  | mark
deriving DecidableEq, Repr

structure Token where
  /-- Blanks and comments since the token before. -/
  gap : List Char
  kind : TokenKind
  text : List Char
  /-- The offset of the text in bytes. -/
  start : Nat
deriving DecidableEq, Repr

structure Source where
  tokens : List Token
  tail : List Char
deriving DecidableEq, Repr

/-- Why a source text cannot be retyped. -/
inductive SourceError where
  | openComment (offset : Nat)
  | openLiteral (offset : Nat)
  | unbalanced (enumName : String)
  | declarationNotFound (position : Nat)
deriving DecidableEq, Repr

def SourceError.message : SourceError → String
  | .openComment offset => s!"unterminated comment starting at byte {offset}"
  | .openLiteral offset => s!"unterminated string literal starting at byte {offset}"
  | .unbalanced enumName => s!"enum {enumName}: unbalanced braces"
  | .declarationNotFound position => s!"enum declaration text not found from byte {position}"

namespace Token

/-- The offset just past the token. -/
def stop (t : Token) : Nat :=
  t.start + byteSize t.text

def isWord (t : Token) (word : String) : Bool :=
  t.kind == .word && t.text == word.toList

def isMark (t : Token) (c : Char) : Bool :=
  t.kind == .mark && t.text == [c]

def name (t : Token) : String :=
  String.ofList t.text

/-- The text from the start of the first token to the end of the last one. -/
def slice : List Token → List Char
  | [] => []
  | t :: rest => t.text ++ rest.flatMap fun u => u.gap ++ u.text

end Token

/-- The text a source consists of. -/
def Source.text (s : Source) : List Char :=
  s.tokens.flatMap (fun t => t.gap ++ t.text) ++ s.tail

/-! ### Blanks and comments -/

/-- Splits off blanks and comments; `offset` is where the text starts. A line comment ends before
its line break. -/
def splitGap (offset : Nat) (cs : List Char) : Except SourceError (List Char × List Char) :=
  match cs with
  | [] => .ok ([], [])
  | c :: r =>
    if isBlank c then
      match splitGap (offset + c.utf8Size) r with
      | .ok (gap, rest) => .ok (c :: gap, rest)
      | .error e => .error e
    else if c = '/' then
      match r with
      | '/' :: r' =>
        let line := r'.takeWhile (· != '\n')
        have := (List.dropWhile_sublist (l := r') (· != '\n')).length_le
        match splitGap (offset + 2 + byteSize line) (r'.dropWhile (· != '\n')) with
        | .ok (gap, rest) => .ok ('/' :: '/' :: line ++ gap, rest)
        | .error e => .error e
      | '*' :: r' =>
        match h : splitFirst? ['*', '/'] r' with
        | none => .error (.openComment offset)
        | some (body, r'') =>
          have := congrArg List.length (splitFirst?_eq_some h)
          match splitGap (offset + 4 + byteSize body) r'' with
          | .ok (gap, rest) => .ok ('/' :: '*' :: body ++ '*' :: '/' :: gap, rest)
          | .error e => .error e
      | _ => .ok ([], cs)
    else .ok ([], cs)
termination_by cs.length
decreasing_by all_goals simp_all <;> omega

theorem append_of_splitGap {offset : Nat} {cs gap rest : List Char}
    (h : splitGap offset cs = .ok (gap, rest)) : gap ++ rest = cs := by
  fun_induction splitGap offset cs generalizing gap rest with
  | case1 => cases h; rfl
  | case2 offset c r hb g s hg ih => cases h; simp [ih hg]
  | case3 => cases h
  | case4 =>
    rename_i line _ _ _ hg _ ih
    cases h
    simp [ih hg, line, List.takeWhile_append_dropWhile]
  | case5 => cases h
  | case6 => cases h
  | case7 =>
    rename_i hs _ _ _ hg _ ih
    cases h
    rw [splitFirst?_eq_some hs, ← ih hg]
    simp
  | case8 => cases h
  | case9 => cases h; rfl
  | case10 => cases h; rfl

/-! ### Tokens -/

def isNameStart (c : Char) : Bool :=
  isAlphabetic c || c == '_' || c == '$'

def isNameChar (c : Char) : Bool :=
  isAlphanumeric c || c == '_' || c == '$'

def isNumberChar (c : Char) : Bool :=
  c.isAlphanum || c == '.' || c == '_'

def isQuote (c : Char) : Bool :=
  c == '"' || c == '\'' || c == '\x60'

/-- Splits off the rest of a literal, of which the opening quote has been read. A backslash
protects the next character; only a back quote lets a literal go over lines. -/
def splitLiteral (quote : Char) : List Char → Option (List Char × List Char)
  | [] => none
  | c :: r =>
    if c = '\\' then
      match r with
      | [] => none
      | d :: r' => (splitLiteral quote r').map fun (text, rest) => (c :: d :: text, rest)
    else if c = quote then some ([c], r)
    else if c = '\n' ∧ quote ≠ '\x60' then none
    else (splitLiteral quote r).map fun (text, rest) => (c :: text, rest)

theorem append_of_splitLiteral {quote : Char} {cs text rest : List Char}
    (h : splitLiteral quote cs = some (text, rest)) : text ++ rest = cs := by
  fun_induction splitLiteral quote cs generalizing text with
  | case1 => cases h
  | case2 => cases h
  | case3 d r' ih =>
    simp only [Option.map_eq_some_iff, Prod.exists, Prod.mk.injEq] at h
    obtain ⟨t, s, ht, rfl, rfl⟩ := h
    simp [ih ht]
  | case4 => cases h; rfl
  | case5 => cases h
  | case6 c r _ _ _ ih =>
    simp only [Option.map_eq_some_iff, Prod.exists, Prod.mk.injEq] at h
    obtain ⟨t, s, ht, rfl, rfl⟩ := h
    simp [ih ht]

/-- Splits off the token that starts with `c`. -/
def splitToken (offset : Nat) (c : Char) (r : List Char) :
    Except SourceError (TokenKind × List Char × List Char) :=
  if isQuote c then
    match splitLiteral c r with
    | some (text, rest) => .ok (.literal, c :: text, rest)
    | none => .error (.openLiteral offset)
  else if c.isDigit then .ok (.number, c :: r.takeWhile isNumberChar, r.dropWhile isNumberChar)
  else if isNameStart c then .ok (.word, c :: r.takeWhile isNameChar, r.dropWhile isNameChar)
  else .ok (.mark, [c], r)

theorem append_of_splitToken {offset : Nat} {c : Char} {r text rest : List Char} {kind : TokenKind}
    (h : splitToken offset c r = .ok (kind, text, rest)) : text ++ rest = c :: r := by
  unfold splitToken at h
  split at h
  · split at h
    · rename_i ht
      cases h
      simp [append_of_splitLiteral ht]
    · cases h
  · split at h
    · cases h; simp [List.takeWhile_append_dropWhile]
    · split at h
      · cases h; simp [List.takeWhile_append_dropWhile]
      · cases h; rfl

theorem length_lt_of_splitToken {offset : Nat} {c : Char} {r text rest : List Char}
    {kind : TokenKind} (h : splitToken offset c r = .ok (kind, text, rest)) :
    rest.length < (c :: r).length := by
  have hne : text ≠ [] := by
    unfold splitToken at h
    repeat' split at h
    all_goals cases h
    all_goals simp
  have hl := congrArg List.length (append_of_splitToken h)
  have := List.length_pos_iff.2 hne
  simp only [List.length_append] at hl
  omega

/-- Reads the tokens of a text that starts at `offset`. -/
def readSource (offset : Nat) (cs : List Char) : Except SourceError Source :=
  match hg : splitGap offset cs with
  | .error e => .error e
  | .ok (gap, []) => .ok ⟨[], gap⟩
  | .ok (gap, c :: r) =>
    let start := offset + byteSize gap
    match ht : splitToken start c r with
    | .error e => .error e
    | .ok (kind, text, rest) =>
      have := congrArg List.length (append_of_splitGap hg)
      have := length_lt_of_splitToken ht
      match readSource (start + byteSize text) rest with
      | .error e => .error e
      | .ok s => .ok { s with tokens := ⟨gap, kind, text, start⟩ :: s.tokens }
termination_by cs.length
decreasing_by simp_all; omega

/-- The source that a text is. -/
def Source.ofText? (cs : List Char) : Except SourceError Source :=
  readSource 0 cs

theorem text_of_readSource {offset : Nat} {cs : List Char} {s : Source}
    (h : readSource offset cs = .ok s) : s.text = cs := by
  fun_induction readSource offset cs generalizing s with
  | case1 => cases h
  | case2 offset cs gap hg =>
    cases h
    simpa [Source.text] using append_of_splitGap hg
  | case3 => cases h
  | case4 => cases h
  | case5 =>
    rename_i hg _ _ _ _ ht _ _ _ hs ih
    cases h
    rw [← append_of_splitGap hg, ← append_of_splitToken ht, ← ih hs]
    simp [Source.text]

/-- Tokens and gaps tile the text. -/
theorem text_of_ofText? {cs : List Char} {s : Source} (h : Source.ofText? cs = .ok s) :
    s.text = cs :=
  text_of_readSource h

end OpenApiModels.TypeScript
