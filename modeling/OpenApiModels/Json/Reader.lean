import OpenApiModels.Json.Basic
import OpenApiModels.Text.Hex
import OpenApiModels.Text.Search

/-!
# Reading JSON texts

Readers take the characters to read and yield a value with a shorter rest, which is why they end.
Containers may nest 127 deep.
-/

namespace OpenApiModels.Json

open OpenApiModels.Text

/-- What is left after something was read. -/
abbrev Rest (cs : List Char) := { rest : List Char // rest.length < cs.length }

def Rest.widen {a b : List Char} (h : a.length ≤ b.length) (r : Rest a) : Rest b :=
  ⟨r.1, Nat.lt_of_lt_of_le r.2 h⟩

/-! ### Blanks and words -/

def isJsonBlank (c : Char) : Bool :=
  c == ' ' || c == '\t' || c == '\n' || c == '\r'

def skipBlanks (cs : List Char) : List Char :=
  cs.dropWhile isJsonBlank

theorem length_dropWhile_le {α : Type} (p : α → Bool) (xs : List α) :
    (xs.dropWhile p).length ≤ xs.length :=
  (List.dropWhile_sublist p).length_le

theorem length_skipBlanks_le (cs : List Char) : (skipBlanks cs).length ≤ cs.length :=
  length_dropWhile_le _ _

/-- A fixed word that stands for a value. -/
def readWord (word : List Char) (hword : word ≠ []) (v : Json) (cs : List Char) :
    Option (Json × Rest cs) :=
  match h : stripStart? word cs with
  | some rest => some (v, ⟨rest, length_lt_of_stripStart? h hword⟩)
  | none => none

/-! ### Strings -/

/-- The number written by four hexadecimal digits. -/
def unit? (a b c d : Char) : Option Nat :=
  match hexDigit? a, hexDigit? b, hexDigit? c, hexDigit? d with
  | some w, some x, some y, some z => some (((w * 16 + x) * 16 + y) * 16 + z)
  | _, _, _, _ => none

/-- The character of an escape, of which the backslash has been read. A character beyond 16 bits
takes two escapes; half of such a pair alone is refused. -/
def readEscape : List Char → Option (Char × List Char)
  | '"' :: r => some ('"', r)
  | '\\' :: r => some ('\\', r)
  | '/' :: r => some ('/', r)
  | 'b' :: r => some ('\x08', r)
  | 'f' :: r => some ('\x0c', r)
  | 'n' :: r => some ('\n', r)
  | 'r' :: r => some ('\r', r)
  | 't' :: r => some ('\t', r)
  | 'u' :: a :: b :: c :: d :: r =>
    match unit? a b c d with
    | none => none
    | some high =>
      if 0xD800 ≤ high ∧ high < 0xDC00 then
        match r with
        | '\\' :: 'u' :: e :: f :: g :: h :: r =>
          match unit? e f g h with
          | none => none
          | some low =>
            if 0xDC00 ≤ low ∧ low < 0xE000 then
              some (Char.ofNat (0x10000 + (high - 0xD800) * 0x400 + (low - 0xDC00)), r)
            else none
        | _ => none
      else if 0xDC00 ≤ high ∧ high < 0xE000 then none
      else some (Char.ofNat high, r)
  | _ => none

theorem length_lt_of_readEscape {cs rest : List Char} {c : Char}
    (h : readEscape cs = some (c, rest)) : rest.length < cs.length := by
  unfold readEscape at h
  split at h
  all_goals first
    | (simp only [Option.some.injEq, Prod.mk.injEq] at h; simp [← h.2])
    | skip
  · split at h
    · cases h
    · split at h
      · split at h
        · split at h
          · cases h
          · split at h
            · simp only [Option.some.injEq, Prod.mk.injEq] at h
              simp only [← h.2, List.length_cons]
              omega
            · cases h
        · cases h
      · split at h
        · cases h
        · simp only [Option.some.injEq, Prod.mk.injEq] at h
          simp only [← h.2, List.length_cons]
          omega
  · cases h

/-- The characters up to the closing quote. -/
def readStringBody (cs : List Char) : Option (List Char × Rest cs) :=
  match cs with
  | [] => none
  | c :: r =>
    if c = '"' then some ([], ⟨r, Nat.lt_succ_self _⟩)
    else if c = '\\' then
      match h : readEscape r with
      | none => none
      | some (e, r') =>
        have shorter := length_lt_of_readEscape h
        match readStringBody r' with
        | none => none
        | some (s, rest) =>
          some (e :: s, ⟨rest.1, Nat.lt_trans rest.2 (Nat.lt_succ_of_lt shorter)⟩)
    else if c.toNat < 0x20 then none
    else
      match readStringBody r with
      | none => none
      | some (s, rest) => some (c :: s, ⟨rest.1, Nat.lt_succ_of_lt rest.2⟩)
termination_by cs.length
decreasing_by
  · exact Nat.lt_succ_of_lt shorter
  · exact Nat.lt_succ_self _

/-! ### Numbers -/

/-- An optional sign, true when it is a minus. -/
def readSign : List Char → Bool × List Char
  | '-' :: r => (true, r)
  | '+' :: r => (false, r)
  | r => (false, r)

theorem length_readSign_le (cs : List Char) : (readSign cs).2.length ≤ cs.length := by
  unfold readSign
  split <;> simp

/-- An exponent mark, an optional sign and digits. -/
def readExponent (cs : List Char) : Option (Option Int × List Char) :=
  match cs with
  | [] => some (none, [])
  | mark :: r =>
    if mark = 'e' ∨ mark = 'E' then
      let digits := (readSign r).2.takeWhile Char.isDigit
      if digits.isEmpty then none
      else
        some (some (Number.signed (readSign r).1 (Number.digitsValue digits)),
          (readSign r).2.dropWhile Char.isDigit)
    else some (none, mark :: r)

theorem length_le_of_readExponent {cs rest : List Char} {e : Option Int}
    (h : readExponent cs = some (e, rest)) : rest.length ≤ cs.length := by
  unfold readExponent at h
  split at h
  · simp only [Option.some.injEq, Prod.mk.injEq] at h
    simp [← h.2]
  · rename_i mark r
    split at h
    · dsimp only at h
      split at h
      · cases h
      · simp only [Option.some.injEq, Prod.mk.injEq] at h
        rw [← h.2, List.length_cons]
        exact Nat.le_succ_of_le
          (Nat.le_trans (length_dropWhile_le _ _) (length_readSign_le r))
    · simp only [Option.some.injEq, Prod.mk.injEq] at h
      simp [← h.2]

/-- A point and digits. -/
def readFraction (cs : List Char) : Option (Option (List Char) × List Char) :=
  match cs with
  | '.' :: r =>
    if (r.takeWhile Char.isDigit).isEmpty then none
    else some (some (r.takeWhile Char.isDigit), r.dropWhile Char.isDigit)
  | cs => some (none, cs)

theorem length_le_of_readFraction {cs rest : List Char} {f : Option (List Char)}
    (h : readFraction cs = some (f, rest)) : rest.length ≤ cs.length := by
  unfold readFraction at h
  split at h
  · split at h
    · cases h
    · simp only [Option.some.injEq, Prod.mk.injEq] at h
      rw [← h.2]
      exact Nat.le_trans (length_dropWhile_le _ _) (by simp)
  · simp only [Option.some.injEq, Prod.mk.injEq] at h
    simp [← h.2]

/-- The digits before the point: zero alone, or digits that do not start with zero. -/
def readWhole (cs : List Char) : Option (List Char × Rest cs) :=
  match h : cs.takeWhile Char.isDigit with
  | [] => none
  | d :: ds =>
    if d = '0' ∧ ds ≠ [] then none
    else some (d :: ds, ⟨cs.dropWhile Char.isDigit, by
      have hl := congrArg List.length (List.takeWhile_append_dropWhile (p := Char.isDigit) (l := cs))
      rw [List.length_append, h, List.length_cons] at hl
      omega⟩)

def readUnsigned (negative : Bool) (cs : List Char) : Option (Number.Value × Rest cs) :=
  match readWhole cs with
  | none => none
  | some (whole, r) =>
    match hf : readFraction r.1 with
    | none => none
    | some (fraction, r₁) =>
      match he : readExponent r₁ with
      | none => none
      | some (exponent, r₂) =>
        match Number.Literal.value? ⟨negative, whole, fraction, exponent⟩ with
        | none => none
        | some v => some (v, ⟨r₂, by
            have := length_le_of_readFraction hf
            have := length_le_of_readExponent he
            have := r.2
            omega⟩)

def readNumber (cs : List Char) : Option (Number.Value × Rest cs) :=
  match cs with
  | '-' :: r => (readUnsigned true r).map fun (v, rest) => (v, rest.widen (by simp))
  | cs => readUnsigned false cs

/-! ### Containers -/

/-- One or more items with commas between them, up to the closing character. -/
def readSeparated {α : Type} (close : Char) (item : (cs : List Char) → Option (α × Rest cs))
    (cs : List Char) : Option (List α × Rest cs) :=
  match item cs with
  | none => none
  | some (v, r) =>
    match h : skipBlanks r.1 with
    | [] => none
    | c :: r' =>
      have hr : r'.length < cs.length := by
        have h1 := length_skipBlanks_le r.1
        have h2 := r.2
        rw [h, List.length_cons] at h1
        omega
      if c = close then some ([v], ⟨r', hr⟩)
      else if c = ',' then
        match readSeparated close item r' with
        | none => none
        | some (vs, rest) => some (v :: vs, rest.widen (Nat.le_of_lt hr))
      else none
termination_by cs.length

/-- Items with commas between them, up to the closing character. -/
def readItems {α : Type} (close : Char) (item : (cs : List Char) → Option (α × Rest cs))
    (cs : List Char) : Option (List α × Rest cs) :=
  match h : skipBlanks cs with
  | [] => none
  | c :: r =>
    if c = close then
      some ([], ⟨r, by
        have := length_skipBlanks_le cs
        rw [h, List.length_cons] at this
        omega⟩)
    else readSeparated close item cs

/-- A key, a colon and a value. -/
def readMember (value : (cs : List Char) → Option (Json × Rest cs)) (cs : List Char) :
    Option ((String × Json) × Rest cs) :=
  match h : skipBlanks cs with
  | '"' :: r =>
    match readStringBody r with
    | none => none
    | some (key, r₁) =>
      match h₁ : skipBlanks r₁.1 with
      | ':' :: r₂ =>
        match value r₂ with
        | none => none
        | some (v, rest) => some ((String.ofList key, v), rest.widen (by
            have a := length_skipBlanks_le cs
            have b := r₁.2
            have c := length_skipBlanks_le r₁.1
            rw [h, List.length_cons] at a
            rw [h₁, List.length_cons] at c
            omega))
      | _ => none
  | _ => none

/-- A value that starts with the first character, in which containers may nest `depth` deep. -/
def readStart (container : Option ((cs : List Char) → Option (Json × Rest cs)))
    (cs : List Char) : Option (Json × Rest cs) :=
  match cs with
  | [] => none
  | c :: r =>
    let up {α : Type} (x : Option (α × Rest r)) (f : α → Json) : Option (Json × Rest (c :: r)) :=
      x.map fun (v, rest) => (f v, rest.widen (by simp))
    if c = '"' then up (readStringBody r) fun s => .string (String.ofList s)
    else if c = '[' then container.bind fun value => up (readItems ']' value r) .array
    else if c = '\x7b' then
      container.bind fun value =>
        up (readItems '\x7d' (readMember value) r) fun ms => .object (Keyed.mergeRepeated ms)
    else if c = 'n' then readWord "null".toList (by decide) .null (c :: r)
    else if c = 't' then readWord "true".toList (by decide) (.bool true) (c :: r)
    else if c = 'f' then readWord "false".toList (by decide) (.bool false) (c :: r)
    else (readNumber (c :: r)).map fun (n, rest) => (.number n, rest)

def readValue : Nat → (cs : List Char) → Option (Json × Rest cs)
  | 0, cs => (readStart none (skipBlanks cs)).map fun (v, rest) =>
      (v, rest.widen (length_skipBlanks_le cs))
  | depth + 1, cs => (readStart (some (readValue depth)) (skipBlanks cs)).map fun (v, rest) =>
      (v, rest.widen (length_skipBlanks_le cs))

/-- How deep containers may nest. -/
def maxDepth : Nat := 127

/-- The value a text consists of. -/
def read? (text : String) : Option Json :=
  match readValue maxDepth text.toList with
  | none => none
  | some (v, rest) => if (skipBlanks rest.1).isEmpty then some v else none

end OpenApiModels.Json
