import OpenApiModels.Text.Hex

/-!
# String literals

`stringLiteral` writes a text as a literal in double quotes, and `unquote` reads the text of a
literal back.
-/

namespace OpenApiModels.TypeScript

-- Powers are those of the core library, whatever else is imported.
attribute [local instance (high)] instPowNat

/-- The number of 32 bits that hexadecimal digits write, after an optional plus sign. -/
def hexNumber? (cs : List Char) : Option Nat :=
  let digits := match cs with
    | '+' :: r => r
    | r => r
  if digits.isEmpty then none
  else (Text.hexValue? digits).filter fun n => decide (n < 2 ^ (32 : Nat))

/-- The character with a code point, if there is one. -/
def charOfCode? (n : Nat) : Option Char :=
  if n.isValidChar then some (Char.ofNat n) else none

/-- The character of a code point escape, of which the letter has been read, and the rest: digits
in braces, or up to four digits. -/
def codePoint? (cs : List Char) : Option (Char × List Char) :=
  match cs with
  | '\x7b' :: r =>
    match r.dropWhile (· != '\x7d') with
    | [] => none
    | _ :: rest =>
      ((hexNumber? (r.takeWhile (· != '\x7d'))).bind charOfCode?).map fun c => (c, rest)
  | cs => ((hexNumber? (cs.take 4)).bind charOfCode?).map fun c => (c, cs.drop 4)

theorem length_le_of_codePoint? {cs rest : List Char} {c : Char}
    (h : codePoint? cs = some (c, rest)) : rest.length ≤ cs.length := by
  unfold codePoint? at h
  split at h
  · rename_i r
    split at h
    · cases h
    · rename_i hd
      have := (List.dropWhile_sublist (l := r) (· != '\x7d')).length_le
      rw [hd] at this
      simp only [Option.map_eq_some_iff, Prod.mk.injEq] at h
      obtain ⟨_, _, _, rfl⟩ := h
      simp only [List.length_cons] at this ⊢
      omega
  · simp only [Option.map_eq_some_iff, Prod.mk.injEq] at h
    obtain ⟨_, _, _, rfl⟩ := h
    simp

/-- The text between the quotes of a literal with its escapes resolved. Escapes that stand for
nothing else stand for their character; an escaped line break stands for nothing. -/
def unescape (cs : List Char) : List Char :=
  match cs with
  | [] => []
  | c :: r =>
    if c = '\\' then
      match r with
      | [] => []
      | d :: r' =>
        if d = 'n' then '\n' :: unescape r'
        else if d = 'r' then '\r' :: unescape r'
        else if d = 't' then '\t' :: unescape r'
        else if d = '0' then '\x00' :: unescape r'
        else if d = 'u' then
          match h : codePoint? r' with
          | some (decoded, rest) =>
            have := length_le_of_codePoint? h
            decoded :: unescape rest
          | none => 'u' :: unescape r'
        else if d = '\n' then unescape r'
        else d :: unescape r'
    else c :: unescape r
termination_by cs.length
decreasing_by
  all_goals
    simp only [List.length_cons]
    omega

/-- The text that a literal stands for. -/
def unquote (literal : List Char) : List Char :=
  unescape (literal.drop 1).dropLast

def escapeLiteralChar (c : Char) : List Char :=
  match c with
  | '"' => ['\\', '"']
  | '\\' => ['\\', '\\']
  | '\n' => ['\\', 'n']
  | '\r' => ['\\', 'r']
  | '\t' => ['\\', 't']
  | c => [c]

/-- The literal of a text, in double quotes. -/
def stringLiteral (value : List Char) : List Char :=
  '"' :: value.flatMap escapeLiteralChar ++ ['"']

end OpenApiModels.TypeScript
