import OpenApiModels.Proofs.Offsets.Scanning
import OpenApiModels.TypeScript.Literal

/-!
# Literals by byte offsets

The text between the quotes, the digits of a code point escape and what follows them are slices.
`unquote_eq` says that none of these goes wrong in a literal with both its quotes.
-/

namespace OpenApiModels.Offsets

open Text TypeScript

/-- The digits of a code point escape, of which the letter has been read, and the number of bytes
they take. Where a brace is left open, none are taken; the four bytes behind the letter are taken
as a slice only where that cuts no character. -/
def codeDigits (rest : List Char) : Checked (List Char × Nat) :=
  match rest with
  | '\x7b' :: braced =>
    match findChar? (· == '\x7d') braced with
    | some close => do return (← slice braced 0 close, close + 2)
    | none => return (rest, 0)
  | _ => return ((slice? rest 0 4).getD rest, 4)

/-- The character of a code point escape, of which the letter has been read, and the rest. -/
def codePoint (rest : List Char) : Checked (Option (Char × List Char)) := do
  let (digits, consumed) ← codeDigits rest
  match (hexNumber? digits).bind charOfCode? with
  | some decoded =>
    if 0 < consumed then
      return some (decoded, ← sliceFrom rest (min consumed (byteSize rest)))
    else return none
  | none => return none

/-- The text between the quotes of a literal with its escapes resolved. -/
def unescape : Nat → List Char → Checked (List Char)
  | 0, _ => .error (.fault .endless)
  | _ + 1, [] => return []
  | rounds + 1, c :: r =>
    if c ≠ '\\' then do return c :: (← unescape rounds r)
    else match r with
      | [] => return []
      | d :: r =>
        if d = 'n' then do return '\n' :: (← unescape rounds r)
        else if d = 'r' then do return '\r' :: (← unescape rounds r)
        else if d = 't' then do return '\t' :: (← unescape rounds r)
        else if d = '0' then do return '\x00' :: (← unescape rounds r)
        else if d = 'u' then do
          match ← codePoint r with
          | some (decoded, rest) => return decoded :: (← unescape rounds rest)
          | none => return 'u' :: (← unescape rounds r)
        else if d = '\n' then unescape rounds r
        else do return d :: (← unescape rounds r)

/-- The text that a literal stands for. -/
def unquote (literal : List Char) : Checked (List Char) := do
  let stop ← minus (byteSize literal) 1
  let inner ← slice literal 1 stop
  unescape (inner.length + 1) inner

/-! ### Digits -/

theorem byteSize_of_isAscii {cs : List Char} (h : ∀ c ∈ cs, IsAscii c) :
    byteSize cs = cs.length := by
  induction cs with
  | nil => rfl
  | cons c cs ih =>
    obtain ⟨first, others⟩ := List.forall_mem_cons.1 h
    rw [byteSize_cons, utf8Size_of_isAscii first, ih others, List.length_cons, Nat.add_comm]

theorem isAscii_of_hexDigit? {c : Char} {n : Nat} (h : hexDigit? c = some n) : IsAscii c := by
  unfold hexDigit? at h
  split at h
  · rename_i digit
    simp only [Char.isDigit, Bool.and_eq_true, decide_eq_true_eq] at digit
    exact Nat.lt_of_le_of_lt digit.2 (by decide)
  · split at h
    · rename_i lower
      exact Nat.lt_of_le_of_lt lower.2 (by decide)
    · split at h
      · rename_i upper
        exact Nat.lt_of_le_of_lt upper.2 (by decide)
      · cases h

theorem isAscii_of_hexValue? {cs : List Char} {n : Nat} (h : hexValue? cs = some n) :
    ∀ c ∈ cs, IsAscii c := by
  unfold hexValue? at h
  generalize 0 = start at h
  induction cs generalizing start with
  | nil => simp
  | cons c cs ih =>
    rw [List.foldlM_cons, Option.bind_eq_bind, Option.bind_eq_some_iff] at h
    obtain ⟨next, first, others⟩ := h
    obtain ⟨digit, found, -⟩ := Option.map_eq_some_iff.1 first
    exact List.forall_mem_cons.2 ⟨isAscii_of_hexDigit? found, ih next others⟩

theorem isAscii_of_hexNumber? {cs : List Char} {n : Nat} (h : hexNumber? cs = some n) :
    ∀ c ∈ cs, IsAscii c := by
  have value {digits : List Char} (h : (if digits.isEmpty = true then none
      else (hexValue? digits).filter fun n => decide (n < 2 ^ (32 : Nat))) = some n) :
      ∀ c ∈ digits, IsAscii c := by
    split at h
    · cases h
    · exact isAscii_of_hexValue? (Option.filter_eq_some_iff.1 h).1
  unfold hexNumber? at h
  dsimp only at h
  split at h
  · exact List.forall_mem_cons.2 ⟨by decide, value h⟩
  · exact value h

/-- Four characters of ASCII are four bytes. -/
theorem slice?_four {rest : List Char} (h : ∀ c ∈ rest.take 4, IsAscii c) :
    (slice? rest 0 4).getD rest = rest.take 4 := by
  by_cases long : 4 ≤ rest.length
  · have size : byteSize (rest.take 4) = 4 := by
      rw [byteSize_of_isAscii h, List.length_take, Nat.min_eq_left long]
    have found := slice?_append [] (rest.take 4) (rest.drop 4)
    rw [List.nil_append, List.take_append_drop, size] at found
    exact congrArg (·.getD rest) found
  · rw [List.take_of_length_le (by omega)] at h ⊢
    cases found : slice? rest 0 4 with
    | none => rfl
    | some t =>
      obtain ⟨a, b, split, -, size⟩ := slice?_eq_some_iff.1 found
      have whole := congrArg byteSize split
      rw [byteSize_append, byteSize_append, byteSize_of_isAscii h] at whole
      omega

theorem isAscii_of_slice?_four {rest : List Char}
    (h : ∀ c ∈ (slice? rest 0 4).getD rest, IsAscii c) : ∀ c ∈ rest.take 4, IsAscii c := by
  cases found : slice? rest 0 4 with
  | none =>
    rw [found] at h
    exact fun c mem => h c (List.mem_of_mem_take mem)
  | some t =>
    rw [found] at h
    obtain ⟨a, b, rfl, start, size⟩ := slice?_eq_some_iff.1 found
    have none : a = [] := by
      by_contra more
      exact absurd start (byteSize_pos more).ne'
    have four : t.length = 4 := by
      have count : byteSize t = t.length := byteSize_of_isAscii h
      omega
    rw [none, List.nil_append, List.take_append_of_le_length four.ge, ← four, List.take_length]
    exact h

/-- Other characters among the digits make them no number, however the digits are cut. -/
theorem hexNumber?_four (rest : List Char) :
    hexNumber? ((slice? rest 0 4).getD rest) = hexNumber? (rest.take 4) := by
  by_cases ascii : ∀ c ∈ rest.take 4, IsAscii c
  · rw [slice?_four ascii]
  · have none {cs : List Char} (h : ¬ ∀ c ∈ cs, IsAscii c) : hexNumber? cs = none := by
      by_contra some_
      obtain ⟨n, found⟩ := Option.ne_none_iff_exists'.1 some_
      exact h (isAscii_of_hexNumber? found)
    rw [none ascii, none (ascii ∘ isAscii_of_slice?_four)]

theorem sliceFrom_four {rest : List Char} (h : ∀ c ∈ rest.take 4, IsAscii c) :
    sliceFrom rest (min 4 (byteSize rest)) = .ok (rest.drop 4) := by
  have behind := sliceFrom_append (rest.take 4) (rest.drop 4)
  rw [List.take_append_drop, byteSize_of_isAscii h, List.length_take] at behind
  have size := congrArg byteSize (List.take_append_drop 4 rest)
  rw [byteSize_append, byteSize_of_isAscii h, List.length_take] at size
  by_cases long : 4 ≤ rest.length
  · rw [Nat.min_eq_left long] at behind size
    rwa [Nat.min_eq_left (by omega)]
  · rw [List.drop_of_length_le (by omega)] at behind size ⊢
    rw [byteSize_nil] at size
    rwa [← size, Nat.min_eq_right (by omega)]

theorem braces_eq {r rest : List Char} {d : Char} (closed : r.dropWhile (· != '\x7d') = d :: rest) :
    codeDigits ('\x7b' :: r) =
        .ok (r.takeWhile (· != '\x7d'), byteSize (r.takeWhile (· != '\x7d')) + 2) ∧
      sliceFrom ('\x7b' :: r) (min (byteSize (r.takeWhile (· != '\x7d')) + 2)
        (byteSize ('\x7b' :: r))) = .ok rest := by
  have whole := List.takeWhile_append_dropWhile (p := (· != '\x7d')) (l := r)
  have first := List.head?_dropWhile_not (· != '\x7d') r
  have found : findChar? (· == '\x7d') r = some (byteSize (r.takeWhile (· != '\x7d'))) := by
    rw [findChar?_eq]
    exact if_neg (by rw [show r.dropWhile (fun c => !(c == '\x7d')) = d :: rest from closed]; simp)
  rw [closed] at whole first
  obtain rfl : d = '\x7d' := by simpa using first
  generalize r.takeWhile (· != '\x7d') = digits at whole found ⊢
  subst whole
  constructor
  · have inside := slice_append [] digits ('\x7d' :: rest)
    rw [List.nil_append, byteSize_nil, Nat.zero_add] at inside
    rw [codeDigits, found]
    dsimp only
    rw [inside]
    rfl
  · have same : '\x7b' :: digits ++ ['\x7d'] ++ rest = '\x7b' :: (digits ++ '\x7d' :: rest) := by
      simp
    have behind := sliceFrom_append ('\x7b' :: digits ++ ['\x7d']) rest
    have size : byteSize ('\x7b' :: digits ++ ['\x7d']) = byteSize digits + 2 := by
      simp only [byteSize_cons, byteSize_append, List.cons_append, byteSize_nil]
      rw [show '\x7b'.utf8Size = 1 from rfl, show '\x7d'.utf8Size = 1 from rfl]
      omega
    have fits : byteSize digits + 2 ≤ byteSize ('\x7b' :: (digits ++ '\x7d' :: rest)) := by
      rw [← same, byteSize_append, size]
      exact Nat.le_add_right _ _
    rwa [size, same, ← Nat.min_eq_left fits] at behind

/-- The characters of a code point escape are found, whether or not there are any. -/
theorem codePoint_eq (rest : List Char) : codePoint rest = .ok (codePoint? rest) := by
  fun_cases codePoint? rest with
  | case1 r open_ =>
    have none : findChar? (· == '\x7d') r = none := by
      rw [findChar?_eq]
      exact if_pos open_
    rw [codePoint, codeDigits, none]
    dsimp only [pure_eq, ok_bind]
    cases (hexNumber? ('\x7b' :: r)).bind charOfCode? <;> rfl
  | case2 r d behind closed =>
    obtain ⟨digits, rest⟩ := braces_eq closed
    rw [codePoint, digits, ok_bind]
    dsimp only
    rw [rest]
    cases (hexNumber? (r.takeWhile (· != '\x7d'))).bind charOfCode? <;> rfl
  | case3 rest notBrace =>
    have digits : codeDigits rest = .ok ((slice? rest 0 4).getD rest, 4) := by
      unfold codeDigits
      split
      · exact absurd rfl (notBrace _)
      · rfl
    rw [codePoint, digits, ok_bind]
    dsimp only
    rw [hexNumber?_four]
    cases value : hexNumber? (rest.take 4) with
    | none => rfl
    | some n =>
      rw [sliceFrom_four (isAscii_of_hexNumber? value), Option.bind_some]
      cases charOfCode? n <;> rfl

-- The fourth byte is inside of a character.
example : codePoint ['1', '2', '3', 'é'] = .ok none := by decide +kernel

/-! ### Literals -/

theorem unescape_eq {rounds : Nat} {cs : List Char} (enough : cs.length < rounds) :
    unescape rounds cs = .ok (TypeScript.unescape cs) := by
  induction rounds generalizing cs with
  | zero => exact absurd enough (Nat.not_lt_zero _)
  | succ rounds ih =>
    have later {r : List Char} (shorter : r.length < cs.length) :
        unescape rounds r = .ok (TypeScript.unescape r) := ih (by omega)
    fun_cases TypeScript.unescape cs with
    | case1 | case2 => rfl
    | case7 rest decoded rest' found shorter =>
      have behind := later (r := rest') (by simp only [List.length_cons]; omega)
      simp [unescape, codePoint_eq, found, behind]
    | case8 rest found =>
      have behind := later (r := rest) (by simp only [List.length_cons]; omega)
      simp [unescape, codePoint_eq, found, behind]
    | case3 rest | case4 rest | case5 rest | case6 rest | case9 rest =>
      have behind := later (r := rest) (by simp only [List.length_cons]; omega)
      simp [unescape, behind]
    | case10 d rest =>
      have behind := later (r := rest) (by simp only [List.length_cons]; omega)
      simp [unescape, *]
    | case11 c rest notEscape =>
      have behind := later (r := rest) (by simp only [List.length_cons]; omega)
      simp [unescape, behind, notEscape]

/-- A literal with both its quotes. -/
def IsQuoted (literal : List Char) : Prop :=
  ∃ c inner, isQuote c = true ∧ literal = c :: (inner ++ [c])

theorem unquote_eq {literal : List Char} (h : IsQuoted literal) :
    unquote literal = .ok (TypeScript.unquote literal) := by
  obtain ⟨c, inner, isQuote, rfl⟩ := h
  have one := utf8Size_of_isAscii (isAscii_of_isQuote isQuote).1
  have size : byteSize (c :: (inner ++ [c])) - 1 = 1 + byteSize inner := by
    simp only [byteSize_cons, byteSize_append, byteSize_nil, one]
    omega
  have stop : minus (byteSize (c :: (inner ++ [c]))) 1 = .ok (1 + byteSize inner) := by
    rw [minus, size, if_pos (by rw [byteSize_cons, one]; omega)]
  have inside := slice_append [c] inner [c]
  rw [byteSize_cons, byteSize_nil, one, List.singleton_append] at inside
  rw [unquote, stop, ok_bind, inside, ok_bind, unescape_eq (Nat.lt_succ_self _),
    TypeScript.unquote, List.drop_one, List.tail_cons, List.dropLast_concat]

theorem isQuoted_of_splitLiteral {quote : Char} (isQuote : isQuote quote = true)
    {cs text rest : List Char} (h : splitLiteral quote cs = some (text, rest)) :
    IsQuoted (quote :: text) := by
  have ends : ∃ inner, text = inner ++ [quote] := by
    fun_induction splitLiteral quote cs generalizing text with
    | case1 | case2 | case5 => cases h
    | case3 d r ih =>
      obtain ⟨⟨t, s⟩, found, same⟩ := Option.map_eq_some_iff.1 h
      cases same
      obtain ⟨inner, rfl⟩ := ih found
      exact ⟨_ :: d :: inner, rfl⟩
    | case4 =>
      cases h
      exact ⟨[], rfl⟩
    | case6 c r _ _ _ ih =>
      obtain ⟨⟨t, s⟩, found, same⟩ := Option.map_eq_some_iff.1 h
      cases same
      obtain ⟨inner, rfl⟩ := ih found
      exact ⟨c :: inner, rfl⟩
  obtain ⟨inner, rfl⟩ := ends
  exact ⟨quote, inner, isQuote, rfl⟩

end OpenApiModels.Offsets
