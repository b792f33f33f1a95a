import OpenApiModels.Text.Quoted
import OpenApiModels.TypeScript.Literal
import OpenApiModels.TypeScript.Source

/-!
# Enum declarations

The enum declarations of a source text with their members, and the names that the text declares
and uses.
-/

namespace OpenApiModels.TypeScript

/-- The initializer of a member. -/
inductive MemberValue where
  | string (value : String)
  | number (text : String)
  /-- No initializer. -/
  | auto
  /-- Another expression, as written. -/
  | other (text : String)
deriving DecidableEq, Repr

def MemberValue.describe : MemberValue → String
  | .string value => Text.quoted value
  | .number text => text
  | .auto => "auto-numbered"
  | .other text => text

def MemberValue.string? : MemberValue → Option String
  | .string value => some value
  | _ => none

structure EnumMember where
  name : String
  value : MemberValue
deriving DecidableEq, Repr

structure EnumDecl where
  name : String
  /-- The offset of the first modifier or the keyword, in bytes. -/
  start : Nat
  /-- The offset just past the closing brace, in bytes. -/
  stop : Nat
  exported : Bool
  members : List EnumMember
  /-- The declaration as written. -/
  text : List Char
deriving DecidableEq, Repr

/-- The values of the string members, in order. -/
def EnumDecl.strings (d : EnumDecl) : List String :=
  d.members.filterMap fun m => m.value.string?

/-! ### Members -/

/-- The value of an initializer. A literal with substitutions is no string. -/
def memberValue : List Token → MemberValue
  | [] => .other ""
  | [t] =>
    if t.kind = .literal ∧ !Text.containsText ['$', '\x7b'] t.text then
      .string (String.ofList (unquote t.text))
    else if t.kind = .number then .number t.name
    else .other t.name
  | [t, u] =>
    if t.isMark '-' ∧ u.kind = .number then .number ("-" ++ u.name)
    else .other (String.ofList (Token.slice [t, u]))
  | ts => .other (String.ofList (Token.slice ts))

/-- The member that the tokens between two commas give. -/
def member? : List Token → Option EnumMember
  | [] => none
  | first :: rest =>
    let name := if first.kind = .literal then String.ofList (unquote first.text) else first.name
    match rest with
    | [] => some ⟨name, .auto⟩
    | t :: ts =>
      if t.isMark '=' then some ⟨name, memberValue ts⟩
      else some ⟨name, .other (String.ofList (Token.slice (t :: ts)))⟩

/-- The tokens between the commas outside brackets; `depth` is the number of open brackets. -/
def splitMembers (depth : Nat) : List Token → List (List Token)
  | [] => [[]]
  | t :: rest =>
    if t.isMark ',' ∧ depth = 0 then [] :: splitMembers depth rest
    else
      let opens := t.isMark '(' || t.isMark '[' || t.isMark '\x7b'
      let closes := t.isMark ')' || t.isMark ']' || t.isMark '\x7d'
      let depth := if opens then depth + 1 else if closes then depth - 1 else depth
      match splitMembers depth rest with
      | [] => [[t]]
      | group :: groups => (t :: group) :: groups

/-- The members that the tokens between the braces give. -/
def membersOf (body : List Token) : List EnumMember :=
  (splitMembers 0 body).filterMap member?

/-! ### Declarations -/

/-- The tokens before the brace that closes `depth` open ones, that brace, and the rest. -/
def splitBody (depth : Nat) : List Token → Option (List Token × Token × List Token)
  | [] => none
  | t :: rest =>
    if t.isMark '\x7d' then
      match depth with
      | 0 | 1 => some ([], t, rest)
      | depth + 2 => (splitBody (depth + 1) rest).map fun (body, close, rest) =>
          (t :: body, close, rest)
    else
      let depth := if t.isMark '\x7b' then depth + 1 else depth
      (splitBody depth rest).map fun (body, close, rest) => (t :: body, close, rest)

theorem length_lt_of_splitBody {depth : Nat} {ts body rest : List Token} {close : Token}
    (h : splitBody depth ts = some (body, close, rest)) : rest.length < ts.length := by
  induction ts generalizing depth body with
  | nil => cases h
  | cons t ts ih =>
    simp only [splitBody] at h
    split at h
    · split at h
      · cases h; simp
      · cases h; simp
      · simp only [Option.map_eq_some_iff, Prod.exists, Prod.mk.injEq] at h
        obtain ⟨b, c, r, hs, rfl, rfl, rfl⟩ := h
        exact Nat.lt_succ_of_lt (ih hs)
    · simp only [Option.map_eq_some_iff, Prod.exists, Prod.mk.injEq] at h
      obtain ⟨b, c, r, hs, rfl, rfl, rfl⟩ := h
      exact Nat.lt_succ_of_lt (ih hs)

def Token.isModifier (t : Token) : Bool :=
  t.isWord "export" || t.isWord "declare" || t.isWord "const"

/-- The declaration with the given modifiers, of which the tokens are `keyword`, `name`, `brace`,
the body and `close`. -/
def EnumDecl.ofTokens (modifiers : List Token) (keyword name brace : Token) (body : List Token)
    (close : Token) : EnumDecl :=
  let all := modifiers ++ keyword :: name :: brace :: body ++ [close]
  { name := name.name
    start := (modifiers.headD keyword).start
    stop := close.stop
    exported := modifiers.any fun t => t.isWord "export"
    members := membersOf body
    text := Token.slice all }

/-- The declarations in a list of tokens; `before` holds the tokens before it, the last one first.
A keyword behind a point is a member access. -/
def enumDecls (before : List Token) (ts : List Token) : Except SourceError (List EnumDecl) :=
  match ts with
  | keyword :: name :: brace :: rest =>
    if keyword.isWord "enum" ∧ !before.head?.any (·.isMark '.') ∧ name.kind = .word ∧
        brace.isMark '\x7b' then
      match h : splitBody 1 rest with
      | none => .error (.unbalanced name.name)
      | some (body, close, rest') =>
        have := length_lt_of_splitBody h
        let modifiers := (before.takeWhile Token.isModifier).reverse
        match enumDecls [close] rest' with
        | .error e => .error e
        | .ok decls => .ok (EnumDecl.ofTokens modifiers keyword name brace body close :: decls)
    else enumDecls (keyword :: before) (name :: brace :: rest)
  | _ => .ok []
termination_by ts.length

/-- The enum declarations of a text, in order. -/
def scanEnums (cs : List Char) : Except SourceError (List EnumDecl) :=
  match Source.ofText? cs with
  | .error e => .error e
  | .ok s => enumDecls [] s.tokens

/-! ### Names -/

/-- Every name that occurs in a source, comments and literals aside. -/
def Source.words (s : Source) : List String :=
  (s.tokens.filter fun t => t.kind == .word).map Token.name

/-- The names that a text uses, in ascending order and once each. -/
def identifiers (cs : List Char) : Except SourceError (List String) :=
  (Source.ofText? cs).map fun s =>
    s.words.eraseDups.mergeSort fun a b => decide (a ≤ b)

/-- The keywords that declare the name behind them. -/
def declaringKeywords : List String :=
  ["interface", "type", "enum", "class", "function", "namespace", "const", "let", "var"]

def Token.isDeclaringKeyword (t : Token) : Bool :=
  t.kind == .word && declaringKeywords.contains t.name

/-- The names declared outside braces, of which `depth` are open. -/
def declaredFrom (depth : Nat) : List Token → List String
  | [] => []
  | t :: rest =>
    if t.isMark '\x7b' then declaredFrom (depth + 1) rest
    else if t.isMark '\x7d' then declaredFrom (depth - 1) rest
    else if depth = 0 ∧ t.isDeclaringKeyword then
      match rest with
      | next :: _ =>
        if next.kind = .word ∧ !next.isDeclaringKeyword then
          next.name :: declaredFrom depth rest
        else declaredFrom depth rest
      | [] => []
    else declaredFrom depth rest

/-- The names that the top level of a text declares, in order. -/
def declaredNames (cs : List Char) : Except SourceError (List String) :=
  (Source.ofText? cs).map fun s => declaredFrom 0 s.tokens

end OpenApiModels.TypeScript
