import OpenApiModels.Proofs.Text.Slices
import OpenApiModels.Proofs.TypeScript.Lexing

/-!
# Scanning by byte offsets

A scanner that keeps offsets in the bytes of a text, and takes its tokens as slices, can go wrong in
ways in which one that splits lists of characters cannot: a slice can be out of range or cut a
character, and an offset can stop moving. Here such faults are outcomes of their own.
`tokens_eq` says that there is none, and that the tokens are those of the source.
-/

namespace OpenApiModels.Offsets

open Text TypeScript

/-- What a reading by offsets must not run into. -/
inductive Fault where
  /-- The ends of a slice are out of order, out of range or inside of a character. -/
  | slice (start stop : Nat)
  /-- No entry has the index. -/
  | index (i : Nat)
  /-- A number below zero. -/
  | underflow
  /-- A loop that does not end in the rounds it is given. -/
  | endless
deriving DecidableEq, Repr

inductive Stop where
  | fault (f : Fault)
  | error (e : SourceError)
deriving DecidableEq, Repr

abbrev Checked := Except Stop

/-- A result in which nothing goes wrong but what is wrong with the text. -/
def reported {α : Type} (x : Except SourceError α) : Checked α :=
  x.mapError .error

@[simp] theorem reported_ok {α : Type} (x : α) : reported (.ok x) = .ok x := rfl

section Results

variable {ε α β : Type}

@[simp] theorem pure_eq (x : α) : (pure x : Except ε α) = .ok x := rfl

@[simp] theorem ok_bind (x : α) (f : α → Except ε β) : (.ok x >>= f) = f x := rfl

end Results

/-- The text between two offsets. -/
def slice (cs : List Char) (start stop : Nat) : Checked (List Char) :=
  match slice? cs start stop with
  | some inside => .ok inside
  | none => .error (.fault (.slice start stop))

/-- The text from an offset on. -/
def sliceFrom (cs : List Char) (start : Nat) : Checked (List Char) :=
  slice cs start (byteSize cs)

def minus (m n : Nat) : Checked Nat :=
  if n ≤ m then .ok (m - n) else .error (.fault .underflow)

theorem slice_eq {cs t : List Char} {start stop : Nat} (h : slice? cs start stop = some t) :
    slice cs start stop = .ok t := by
  rw [slice, h]

theorem slice_append (a t b : List Char) :
    slice (a ++ (t ++ b)) (byteSize a) (byteSize a + byteSize t) = .ok t :=
  slice_eq (slice?_append a t b)

theorem sliceFrom_append (a b : List Char) : sliceFrom (a ++ b) (byteSize a) = .ok b := by
  have whole := slice_append a b []
  rwa [List.append_nil, ← byteSize_append] at whole

theorem minus_append (a b : List Char) :
    minus (byteSize (a ++ b)) (byteSize a) = .ok (byteSize b) := by
  rw [minus, byteSize_append, if_pos (Nat.le_add_right _ _), Nat.add_sub_cancel_left]

/-! ### Literals -/

/-- The offset just past the literal that starts at `start`; its characters are read from `i` on. A
backslash protects the byte behind it. -/
def literalEndFrom (text : List UInt8) (quote : UInt8) (start i : Nat) : Checked Nat :=
  if h : i < text.length then
    if text[i] = '\\'.toUInt8 then literalEndFrom text quote start (i + 2)
    else if text[i] = quote then .ok (i + 1)
    else if text[i] = '\n'.toUInt8 ∧ quote ≠ '\x60'.toUInt8 then
      .error (.error (.openLiteral start))
    else literalEndFrom text quote start (i + 1)
  else .error (.error (.openLiteral start))
termination_by text.length - i

def literalEnd (text : List UInt8) (start : Nat) : Checked Nat :=
  match text[start]? with
  | some quote => literalEndFrom text quote start (start + 1)
  | none => .error (.fault (.index start))

/-! ### Tokens -/

/-- The offset of the first character from `i` on that `p` does not hold of, or of the end. -/
def runEnd (p : Char → Bool) (text : List Char) (i : Nat) : Checked Nat := do
  let here ← sliceFrom text i
  let left ← minus (byteSize text) i
  return i + (findChar? (fun c => !p c) here).getD left

/-- The kind of the token that starts with `c` at `i`, and the offset just past it. -/
def tokenEnd (text : List Char) (i : Nat) (c : Char) : Checked (TokenKind × Nat) :=
  if isQuote c then do return (.literal, ← literalEnd (bytes text) i)
  else if c.isDigit then do return (.number, ← runEnd isNumberChar text i)
  else if isNameStart c then do return (.word, ← runEnd isNameChar text i)
  else return (.mark, i + c.utf8Size)

/-- What is found at an offset, and the offset to go on from. -/
inductive Round where
  | done
  | skip (next : Nat)
  | token (t : Token) (next : Nat)

/-- The end of the line comment that starts at `i`. -/
def lineEnd (text : List Char) (i : Nat) : Checked Nat := do
  match findChar? (· == '\n') (← sliceFrom text i) with
  | some n => return i + n
  | none => return byteSize text

/-- The end of the block comment that starts at `i`. -/
def blockEnd (text : List Char) (i : Nat) : Checked Nat := do
  match findText? ['*', '/'] (← sliceFrom text (i + 2)) with
  | some n => return i + (2 + n + 2)
  | none => .error (.error (.openComment i))

/-- Looks at the text from `i` on, where `c` stands. The gaps of the tokens are not kept. -/
def lookAt (text : List Char) (i : Nat) (c : Char) : Checked Round :=
  if isBlank c then return .skip (i + c.utf8Size)
  else if c = '/' ∧ (bytes text)[i + 1]? = some '/'.toUInt8 then return .skip (← lineEnd text i)
  else if c = '/' ∧ (bytes text)[i + 1]? = some '*'.toUInt8 then return .skip (← blockEnd text i)
  else do
    let (kind, stop) ← tokenEnd text i c
    return .token ⟨[], kind, ← slice text i stop, i⟩ stop

def round (text : List Char) (i : Nat) : Checked Round := do
  match ← sliceFrom text i with
  | [] => return .done
  | c :: _ => lookAt text i c

/-- The tokens from `i` on. -/
def tokensFrom (text : List Char) : Nat → Nat → Checked (List Token)
  | 0, _ => .error (.fault .endless)
  | rounds + 1, i => do
    match ← round text i with
    | .done => return []
    | .skip next => tokensFrom text rounds next
    | .token t next => return t :: (← tokensFrom text rounds next)

/-- The tokens of a text, in as many rounds as it has bytes and one more. -/
def tokens (text : List Char) : Checked (List Token) :=
  tokensFrom text (byteSize text + 1) 0

/-! ### The literals that are found -/

theorem literalEndFrom_beyond {text : List UInt8} {quote : UInt8} {start i : Nat}
    (h : text.length ≤ i) :
    literalEndFrom text quote start i = .error (.error (.openLiteral start)) := by
  rw [literalEndFrom, dif_neg (by omega)]

theorem isAscii_of_isQuote {c : Char} (h : isQuote c = true) : IsAscii c ∧ c ≠ '\\' ∧ c ≠ '\n' := by
  simp only [isQuote, Bool.or_eq_true, beq_iff_eq] at h
  rcases h with (rfl | rfl) | rfl <;> decide

section Literal

variable {quote : UInt8} {start : Nat}

/-- One byte is read. -/
theorem literalEndFrom_byte (before after : List UInt8) (b : UInt8) :
    literalEndFrom (before ++ b :: after) quote start before.length =
      if b = '\\'.toUInt8 then
        literalEndFrom (before ++ b :: after) quote start (before.length + 2)
      else if b = quote then .ok (before.length + 1)
      else if b = '\n'.toUInt8 ∧ quote ≠ '\x60'.toUInt8 then
        .error (.error (.openLiteral start))
      else literalEndFrom (before ++ b :: after) quote start (before.length + 1) := by
  rw [literalEndFrom, dif_pos (by simp)]
  simp only [List.getElem_append_right (Nat.le_refl _), Nat.sub_self, List.getElem_cons_zero]

/-- Bytes inside of characters are passed. -/
theorem literalEndFrom_skip (small : quote < 0x80) {skipped : List UInt8}
    (h : ∀ b ∈ skipped, 0x80 ≤ b) (before after : List UInt8) :
    literalEndFrom (before ++ (skipped ++ after)) quote start before.length =
      literalEndFrom (before ++ (skipped ++ after)) quote start
        (before.length + skipped.length) := by
  induction skipped generalizing before with
  | nil => rfl
  | cons b skipped ih =>
    obtain ⟨large, others⟩ := List.forall_mem_cons.1 h
    have ne (a : UInt8) (ha : a < 0x80) : b ≠ a := by
      rintro rfl
      exact absurd large (UInt8.not_le.2 ha)
    have later := ih others (before ++ [b])
    rw [← List.append_cons, List.length_append, List.length_singleton] at later
    rw [List.cons_append, literalEndFrom_byte, if_neg (ne _ (by decide)), if_neg (ne _ small),
      if_neg fun both => ne _ (by decide) both.1, later, List.length_cons,
      Nat.add_assoc, Nat.add_comm 1]

/-- A character of ASCII is read. -/
theorem literalEndFrom_ascii {d : Char} (ascii : IsAscii d) (before after : List Char) :
    literalEndFrom (bytes (before ++ d :: after)) quote start (byteSize before) =
      if d = '\\' then
        literalEndFrom (bytes (before ++ d :: after)) quote start (byteSize before + 2)
      else if d.toUInt8 = quote then .ok (byteSize before + 1)
      else if d = '\n' ∧ quote ≠ '\x60'.toUInt8 then
        .error (.error (.openLiteral start))
      else literalEndFrom (bytes (before ++ d :: after)) quote start (byteSize before + 1) := by
  have code : String.utf8EncodeChar d = [d.toUInt8] :=
    (utf8EncodeChar_cases d).elim And.right fun h => absurd ascii h.1
  have split : bytes (before ++ d :: after) = bytes before ++ d.toUInt8 :: bytes after := by
    rw [bytes_append, bytes_cons, code]
    rfl
  rw [split, ← length_bytes before, literalEndFrom_byte]
  simp only [toUInt8_inj ascii (show IsAscii '\\' by decide),
    toUInt8_inj ascii (show IsAscii '\n' by decide)]

/-- A backslash protects the character behind it: what is left of that after its first byte is
passed. -/
theorem literalEndFrom_escape (small : quote < 0x80) (before : List Char) (d : Char)
    (after : List Char) :
    literalEndFrom (bytes (before ++ '\\' :: d :: after)) quote start (byteSize before) =
      literalEndFrom (bytes (before ++ '\\' :: d :: after)) quote start
        (byteSize before + (1 + d.utf8Size)) := by
  obtain ⟨b, more, code, large, -⟩ := exists_firstByte d
  have size := String.length_utf8EncodeChar d
  rw [code, List.length_cons] at size
  have split : bytes (before ++ '\\' :: d :: after) =
      bytes before ++ '\\'.toUInt8 :: b :: (more ++ bytes after) := by
    rw [bytes_append, bytes_cons, bytes_cons, code]
    rfl
  have skip := @literalEndFrom_skip quote start small more large
    (bytes before ++ ['\\'.toUInt8, b]) (bytes after)
  simp only [List.append_assoc, List.cons_append, List.nil_append, List.length_append,
    List.length_cons, List.length_nil, length_bytes] at skip
  rw [split, ← length_bytes before, literalEndFrom_byte, if_pos rfl, length_bytes, skip]
  congr 1
  omega

/-- A character that neither ends the literal nor protects another one is passed. -/
theorem literalEndFrom_char {c d : Char} (ascii : IsAscii c) (notEscape : d ≠ '\\')
    (notQuote : d ≠ c) (inLine : ¬(d = '\n' ∧ c ≠ '\x60')) (before after : List Char) :
    literalEndFrom (bytes (before ++ d :: after)) c.toUInt8 start (byteSize before) =
      literalEndFrom (bytes (before ++ d :: after)) c.toUInt8 start
        (byteSize before + d.utf8Size) := by
  obtain ⟨b, more, code, large, first⟩ := exists_firstByte d
  have size := String.length_utf8EncodeChar d
  rw [code, List.length_cons] at size
  have split : bytes (before ++ d :: after) = bytes before ++ b :: (more ++ bytes after) := by
    rw [bytes_append, bytes_cons, code]
    rfl
  have skip := @literalEndFrom_skip c.toUInt8 start (toUInt8_lt ascii) more large
    (bytes before ++ [b]) (bytes after)
  simp only [List.append_assoc, List.cons_append, List.nil_append, List.length_append,
    List.length_cons, List.length_nil, length_bytes] at skip
  have sameLine : ¬(b = '\n'.toUInt8 ∧ c.toUInt8 ≠ '\x60'.toUInt8) := by
    rw [first _ (by decide), Ne, toUInt8_inj ascii (by decide)]
    exact inLine
  rw [split, ← length_bytes before, literalEndFrom_byte,
    if_neg (notEscape ∘ (first _ (by decide)).1),
    if_neg (notQuote ∘ (first c ascii).1), if_neg sameLine, length_bytes, skip]
  congr 1
  omega

/-- The end of a literal is found where the literal is split off. -/
theorem literalEndFrom_eq {c : Char} (isQuote : isQuote c = true) (before cs : List Char) :
    literalEndFrom (bytes (before ++ cs)) c.toUInt8 start (byteSize before) =
      match splitLiteral c cs with
      | some (text, _) => .ok (byteSize before + byteSize text)
      | none => .error (.error (.openLiteral start)) := by
  obtain ⟨ascii, notEscape, notBreak⟩ := isAscii_of_isQuote isQuote
  fun_induction splitLiteral c cs generalizing before with
  | case1 => exact literalEndFrom_beyond (by simp)
  | case2 =>
    rw [literalEndFrom_ascii (by decide), if_pos rfl]
    exact literalEndFrom_beyond (by simp; decide)
  | case3 d r ih =>
    have later := ih (before ++ ['\\', d])
    simp only [List.append_assoc, List.cons_append, List.nil_append, byteSize_append, byteSize_cons,
      byteSize_nil, Nat.add_zero] at later
    rw [literalEndFrom_escape (toUInt8_lt ascii)]
    refine later.trans ?_
    cases splitLiteral c r with
    | none => rfl
    | some cut => simp [Nat.add_assoc]
  | case4 r _ =>
    rw [literalEndFrom_ascii ascii, if_neg notEscape, if_pos rfl]
    simp [utf8Size_of_isAscii ascii]
  | case5 d r _ notQuote ends =>
    obtain ⟨rfl, long⟩ := ends
    rw [literalEndFrom_ascii (by decide), if_neg (by decide),
      if_neg (notQuote ∘ (toUInt8_inj (by decide) ascii).1),
      if_pos ⟨rfl, long ∘ (toUInt8_inj ascii (by decide)).1⟩]
  | case6 d r notEscape notQuote inLine ih =>
    have later := ih (before ++ [d])
    simp only [List.append_assoc, List.cons_append, List.nil_append, byteSize_append, byteSize_cons,
      byteSize_nil, Nat.add_zero] at later
    rw [literalEndFrom_char ascii notEscape notQuote inLine]
    refine later.trans ?_
    cases splitLiteral c r with
    | none => rfl
    | some cut => simp [Nat.add_assoc]

end Literal

theorem literalEnd_eq {c : Char} (isQuote : isQuote c = true) (before r : List Char) :
    literalEnd (bytes (before ++ c :: r)) (byteSize before) =
      match splitLiteral c r with
      | some (text, _) => .ok (byteSize before + byteSize (c :: text))
      | none => .error (.error (.openLiteral (byteSize before))) := by
  have ascii := (isAscii_of_isQuote isQuote).1
  have first := (getElem?_bytes_iff ascii before (c :: r)).2 rfl
  have size := utf8Size_of_isAscii ascii
  have inside := @literalEndFrom_eq (byteSize before) c isQuote (before ++ [c]) r
  simp only [List.append_assoc, List.cons_append, List.nil_append, byteSize_append, byteSize_cons,
    byteSize_nil, Nat.add_zero, size] at inside
  rw [literalEnd, first]
  refine inside.trans ?_
  cases splitLiteral c r with
  | none => rfl
  | some cut => simp [size, Nat.add_assoc]

/-! ### The tokens that are found -/

theorem isNumberChar_of_isDigit {c : Char} (h : c.isDigit = true) : isNumberChar c = true := by
  simp [isNumberChar, Char.isAlphanum, h]

theorem isNameChar_of_isNameStart {c : Char} (h : isNameStart c = true) : isNameChar c = true := by
  simp only [isNameStart, isNameChar, isAlphanumeric, Bool.or_eq_true] at h ⊢
  rcases h with (letter | underscore) | dollar
  · exact .inl (.inl (.inl letter))
  · exact .inl (.inr underscore)
  · exact .inr dollar

/-- The characters that `p` holds of are passed, the first one among them. -/
theorem runEnd_eq {p : Char → Bool} {c : Char} (first : p c = true) (before r : List Char) :
    runEnd p (before ++ c :: r) (byteSize before) =
      .ok (byteSize before + byteSize (c :: r.takeWhile p)) := by
  have passed := findChar?_getD (fun d => !p d) (c :: r)
  simp only [Bool.not_not, List.takeWhile_cons, first, if_true] at passed
  rw [runEnd, sliceFrom_append, minus_append]
  exact congrArg (fun n => Except.ok (byteSize before + n)) passed

/-- The end of a token is found where the token is split off. -/
theorem tokenEnd_eq (before : List Char) (c : Char) (r : List Char) :
    tokenEnd (before ++ c :: r) (byteSize before) c =
      reported ((splitToken (byteSize before) c r).map fun (kind, text, _) =>
        (kind, byteSize before + byteSize text)) := by
  unfold tokenEnd splitToken
  by_cases isQuote : isQuote c = true
  · rw [if_pos isQuote, if_pos isQuote, literalEnd_eq isQuote]
    cases splitLiteral c r <;> rfl
  · rw [if_neg isQuote, if_neg isQuote]
    by_cases digit : c.isDigit = true
    · rw [if_pos digit, if_pos digit, runEnd_eq (isNumberChar_of_isDigit digit)]
      rfl
    · rw [if_neg digit, if_neg digit]
      by_cases name : isNameStart c = true
      · rw [if_pos name, if_pos name, runEnd_eq (isNameChar_of_isNameStart name)]
        rfl
      · rw [if_neg name, if_neg name]
        rfl

/-! ### One round -/

theorem round_nil (text : List Char) : round text (byteSize text) = .ok .done := by
  have rest := sliceFrom_append text []
  rw [List.append_nil] at rest
  rw [round, rest]
  rfl

theorem round_cons (before : List Char) (c : Char) (r : List Char) :
    round (before ++ c :: r) (byteSize before) = lookAt (before ++ c :: r) (byteSize before) c := by
  rw [round, sliceFrom_append]
  rfl

theorem round_blank {c : Char} (blank : isBlank c = true) (before r : List Char) :
    round (before ++ c :: r) (byteSize before) = .ok (.skip (byteSize before + c.utf8Size)) := by
  rw [round_cons, lookAt, if_pos blank]
  rfl

/-- The second character of a mark for a comment is looked for in the bytes. -/
theorem secondByte_iff {a : Char} (ascii : IsAscii a) (before r : List Char) :
    (bytes (before ++ '/' :: r))[byteSize before + 1]? = some a.toUInt8 ↔ r.head? = some a := by
  have at_ := getElem?_bytes_iff ascii (before ++ ['/']) r
  rwa [List.append_assoc, byteSize_append] at at_

theorem lineEnd_eq (before r : List Char) :
    lineEnd (before ++ r) (byteSize before) =
      .ok (byteSize before + byteSize (r.takeWhile (· != '\n'))) := by
  have passed : (findChar? (· == '\n') r).getD (byteSize r) = byteSize (r.takeWhile (· != '\n')) :=
    findChar?_getD (· == '\n') r
  rw [lineEnd, sliceFrom_append, ok_bind, ← passed, byteSize_append]
  cases findChar? (· == '\n') r <;> rfl

theorem blockEnd_eq (before r : List Char) :
    blockEnd (before ++ '/' :: '*' :: r) (byteSize before) =
      match splitFirst? ['*', '/'] r with
      | some (body, _) => .ok (byteSize before + 4 + byteSize body)
      | none => .error (.error (.openComment (byteSize before))) := by
  have rest := sliceFrom_append (before ++ ['/', '*']) r
  rw [List.append_assoc, byteSize_append] at rest
  have rest : sliceFrom (before ++ '/' :: '*' :: r) (byteSize before + 2) = .ok r := rest
  rw [blockEnd, rest, ok_bind, findText?]
  cases splitFirst? ['*', '/'] r with
  | none => rfl
  | some cut =>
    refine congrArg Except.ok ?_
    dsimp only
    omega

theorem round_line (before r : List Char) :
    round (before ++ '/' :: '/' :: r) (byteSize before) =
      .ok (.skip (byteSize before + 2 + byteSize (r.takeWhile (· != '\n')))) := by
  have second := (secondByte_iff (a := '/') (by decide) before ('/' :: r)).2 rfl
  rw [round_cons, lookAt, if_neg (by decide), if_pos ⟨rfl, second⟩, lineEnd_eq,
    List.takeWhile_cons_of_pos (by decide), List.takeWhile_cons_of_pos (by decide), byteSize_cons,
    byteSize_cons, ← Nat.add_assoc, ← Nat.add_assoc]
  rfl

theorem round_block (before r : List Char) :
    round (before ++ '/' :: '*' :: r) (byteSize before) =
      match splitFirst? ['*', '/'] r with
      | some (body, _) => .ok (.skip (byteSize before + 4 + byteSize body))
      | none => .error (.error (.openComment (byteSize before))) := by
  have second := (secondByte_iff (a := '*') (by decide) before ('*' :: r)).2 rfl
  rw [round_cons, lookAt, if_neg (by decide), if_neg (by rw [second]; decide),
    if_pos ⟨rfl, second⟩, blockEnd_eq]
  cases splitFirst? ['*', '/'] r <;> rfl

/-- Where no gap starts, a token is found. -/
theorem round_token {c : Char} {r : List Char} (starts : startsToken (c :: r) = true)
    (before : List Char) :
    round (before ++ c :: r) (byteSize before) =
      reported ((splitToken (byteSize before) c r).map fun (kind, text, _) =>
        .token ⟨[], kind, text, byteSize before⟩ (byteSize before + byteSize text)) := by
  simp only [startsToken, Bool.and_eq_true, Bool.not_eq_true', Bool.and_eq_false_iff,
    beq_eq_false_iff_ne] at starts
  obtain ⟨notBlank, notComment⟩ := starts
  have noMark {a : Char} (mark : a = '/' ∨ a = '*') (ascii : IsAscii a) :
      ¬(c = '/' ∧ (bytes (before ++ c :: r))[byteSize before + 1]? = some a.toUInt8) := by
    rintro ⟨rfl, second⟩
    obtain ⟨more, rfl⟩ := List.head?_eq_some_iff.1 ((secondByte_iff ascii before r).1 second)
    rcases mark with rfl | rfl <;> simp at notComment
  rw [round_cons, lookAt, if_neg (by simp [notBlank]), if_neg (noMark (.inl rfl) (by decide)),
    if_neg (noMark (.inr rfl) (by decide)), tokenEnd_eq]
  cases split : splitToken (byteSize before) c r with
  | error e => rfl
  | ok cut =>
    obtain ⟨kind, text, rest⟩ := cut
    rw [← append_of_splitToken split]
    have inside := slice_append before text rest
    change Except.bind (slice _ _ _) _ = _
    rw [inside]
    rfl

/-! ### All rounds -/

theorem tokensFrom_skip {text : List Char} {i next : Nat} (h : round text i = .ok (.skip next))
    (rounds : Nat) : tokensFrom text (rounds + 1) i = tokensFrom text rounds next := by
  rw [tokensFrom, h]
  rfl

theorem tokensFrom_error {text : List Char} {i : Nat} {e : Stop} (h : round text i = .error e)
    (rounds : Nat) : tokensFrom text (rounds + 1) i = .error e := by
  rw [tokensFrom, h]
  rfl

/-- What the tokens from an offset on are, once there are enough rounds for each byte to take
one. -/
def Yields (text rest : List Char) (i : Nat) (x : Checked (List Token)) : Prop :=
  ∀ rounds, byteSize rest < rounds → tokensFrom text rounds i = x

theorem yields_error {text : List Char} {i : Nat} {e : Stop} (h : round text i = .error e)
    (cs : List Char) : Yields text cs i (.error e) := by
  intro rounds enough
  obtain ⟨n, rfl⟩ := Nat.exists_eq_succ_of_ne_zero (Nat.ne_zero_of_lt enough)
  exact tokensFrom_error h n

theorem utf8Size_slash : '/'.utf8Size = 1 := rfl

theorem utf8Size_star : '*'.utf8Size = 1 := rfl

section Gaps

variable {text before : List Char} {x : Checked (List Token)}

theorem yields_skip {cs rest : List Char} {i next : Nat} (step : round text i = .ok (.skip next))
    (shorter : byteSize rest < byteSize cs) (later : Yields text rest next x) :
    Yields text cs i x := by
  intro rounds enough
  obtain ⟨n, rfl⟩ := Nat.exists_eq_succ_of_ne_zero (Nat.ne_zero_of_lt enough)
  rw [tokensFrom_skip step]
  exact later n (by omega)

theorem yields_blank {c : Char} {r : List Char} (split : text = before ++ c :: r)
    (blank : isBlank c = true) (later : Yields text r (byteSize before + c.utf8Size) x) :
    Yields text (c :: r) (byteSize before) x := by
  subst split
  have := c.utf8Size_pos
  exact yields_skip (round_blank blank before r) (by rw [byteSize_cons]; omega) later

theorem yields_line {r : List Char} (split : text = before ++ '/' :: '/' :: r)
    (later : Yields text (r.dropWhile (· != '\n'))
      (byteSize before + 2 + byteSize (r.takeWhile (· != '\n'))) x) :
    Yields text ('/' :: '/' :: r) (byteSize before) x := by
  subst split
  have size := congrArg byteSize (List.takeWhile_append_dropWhile (p := (· != '\n')) (l := r))
  have := '/'.utf8Size_pos
  rw [byteSize_append] at size
  exact yields_skip (round_line before r) (by simp only [byteSize_cons]; omega) later

theorem yields_block {r body rest : List Char} (split : text = before ++ '/' :: '*' :: r)
    (found : splitFirst? ['*', '/'] r = some (body, rest))
    (later : Yields text rest (byteSize before + 4 + byteSize body) x) :
    Yields text ('/' :: '*' :: r) (byteSize before) x := by
  subst split
  have size := congrArg byteSize (splitFirst?_eq_some found)
  have step := round_block before r
  have := '/'.utf8Size_pos
  rw [found] at step
  simp only [byteSize_append] at size
  exact yields_skip step (by simp only [byteSize_cons]; omega) later

theorem split_line {r : List Char} (split : text = before ++ '/' :: '/' :: r) :
    text = before ++ '/' :: '/' :: r.takeWhile (· != '\n') ++ r.dropWhile (· != '\n') ∧
      byteSize before + 2 + byteSize (r.takeWhile (· != '\n')) =
        byteSize (before ++ '/' :: '/' :: r.takeWhile (· != '\n')) := by
  constructor
  · rw [split, List.append_assoc, List.cons_append, List.cons_append,
      List.takeWhile_append_dropWhile]
  · simp only [byteSize_append, byteSize_cons, utf8Size_slash, ← Nat.add_assoc]

theorem split_block {r body rest : List Char} (split : text = before ++ '/' :: '*' :: r)
    (found : splitFirst? ['*', '/'] r = some (body, rest)) :
    text = before ++ '/' :: '*' :: body ++ ['*', '/'] ++ rest ∧
      byteSize before + 4 + byteSize body =
        byteSize (before ++ '/' :: '*' :: body ++ ['*', '/']) := by
  constructor
  · simp [split, splitFirst?_eq_some found]
  · simp only [byteSize_append, byteSize_cons, byteSize_nil, utf8Size_slash, utf8Size_star]
    omega

/-- A gap is passed, whatever is found behind it. -/
theorem yields_gap {cs gap rest : List Char} {offset : Nat} (split : text = before ++ cs)
    (at_ : offset = byteSize before) (h : splitGap offset cs = .ok (gap, rest))
    (later : Yields text rest (offset + byteSize gap) x) : Yields text cs offset x := by
  fun_induction splitGap offset cs generalizing before gap rest with
  | case1 | case9 | case10 =>
    cases h
    exact later
  | case2 offset c r blank gap rest found ih =>
    cases h
    subst at_
    rw [byteSize_cons, ← Nat.add_assoc] at later
    have here : text = before ++ [c] ++ r := by simp [split]
    exact yields_blank split blank (ih here (by simp) found later)
  | case3 | case5 | case6 | case8 => cases h
  | case4 =>
    rename_i r line _ gap rest found _ ih
    cases h
    subst at_
    obtain ⟨here, size⟩ := split_line split
    refine yields_line split (ih here size found ?_)
    convert later using 1
    simp only [List.cons_append, byteSize_append, byteSize_cons, utf8Size_slash]
    omega
  | case7 =>
    rename_i r body r' found _ gap rest next _ ih
    cases h
    subst at_
    obtain ⟨here, size⟩ := split_block split found
    refine yields_block split found (ih here size next ?_)
    convert later using 1
    simp only [List.cons_append, byteSize_append, byteSize_cons, utf8Size_slash, utf8Size_star]
    omega

/-- A comment that is left open is found. -/
theorem yields_openGap {cs : List Char} {offset : Nat} {e : SourceError}
    (split : text = before ++ cs) (at_ : offset = byteSize before)
    (h : splitGap offset cs = .error e) : Yields text cs offset (.error (.error e)) := by
  fun_induction splitGap offset cs generalizing before with
  | case1 | case2 | case4 | case7 | case9 | case10 => cases h
  | case3 offset c r blank _ found ih =>
    cases h
    subst at_
    have here : text = before ++ [c] ++ r := by simp [split]
    exact yields_blank split blank (ih here (by simp) found)
  | case5 =>
    rename_i r line _ _ found _ ih
    cases h
    subst at_
    obtain ⟨here, size⟩ := split_line split
    exact yields_line split (ih here size found)
  | case6 =>
    rename_i r open_ _
    cases h
    subst at_ split
    have step := round_block before r
    rw [open_] at step
    exact yields_error step _
  | case8 =>
    rename_i r body r' found _ _ next _ ih
    cases h
    subst at_
    obtain ⟨here, size⟩ := split_block split found
    exact yields_block split found (ih here size next)

end Gaps

/-- A token without what is in front of it. -/
def gapless (t : Token) : Token :=
  { t with gap := [] }

section Tokens

variable {text before r : List Char} {c : Char} {i : Nat}

/-- A token is found, and what is found behind it follows. -/
theorem yields_token (split : text = before ++ c :: r) (at_ : i = byteSize before)
    (starts : startsToken (c :: r) = true) {kind : TokenKind} {word rest : List Char}
    (found : splitToken i c r = .ok (kind, word, rest)) {x : Checked (List Token)}
    (later : Yields text rest (i + byteSize word) x) :
    Yields text (c :: r) i (x.map fun ts => ⟨[], kind, word, i⟩ :: ts) := by
  subst split at_
  have fits : Token.Fits ⟨[], kind, word, 0⟩ rest := Token.fits_of_splitToken found starts
  have size := congrArg byteSize (append_of_splitToken found)
  have positive : 0 < byteSize word := byteSize_pos fits.text_ne_nil
  have step := round_token starts before
  rw [found] at step
  rw [byteSize_append] at size
  intro rounds enough
  obtain ⟨n, rfl⟩ := Nat.exists_eq_succ_of_ne_zero (Nat.ne_zero_of_lt enough)
  rw [tokensFrom, step]
  simp only [Except.map, reported_ok, ok_bind, later n (by omega)]
  cases x <;> rfl

/-- A literal that is left open is found. -/
theorem yields_openToken (split : text = before ++ c :: r) (at_ : i = byteSize before)
    (starts : startsToken (c :: r) = true) {e : SourceError}
    (fails : splitToken i c r = .error e) : Yields text (c :: r) i (.error (.error e)) := by
  subst split at_
  have step := round_token starts before
  rw [fails] at step
  exact yields_error step _

theorem split_gap {cs gap : List Char} {offset : Nat} (split : text = before ++ cs)
    (at_ : offset = byteSize before) (found : splitGap offset cs = .ok (gap, c :: r)) :
    text = before ++ gap ++ c :: r ∧ offset + byteSize gap = byteSize (before ++ gap) ∧
      startsToken (c :: r) = true := by
  refine ⟨?_, ?_, (splitGap_spec found).2.1⟩
  · rw [split, List.append_assoc, append_of_splitGap found]
  · rw [at_, byteSize_append]

/-- Given enough rounds, the tokens from an offset on are those of the text from there on. -/
theorem yields_readSource {cs : List Char} {offset : Nat} (split : text = before ++ cs)
    (at_ : offset = byteSize before) :
    Yields text cs offset
      (reported ((readSource offset cs).map fun s => s.tokens.map gapless)) := by
  fun_induction readSource offset cs generalizing before with
  | case1 offset cs e fails => exact yields_openGap split at_ fails
  | case2 offset cs gap found =>
    have whole := append_of_splitGap found
    rw [List.append_nil] at whole
    subst at_ split whole
    refine yields_gap rfl rfl found fun rounds enough => ?_
    obtain ⟨n, rfl⟩ := Nat.exists_eq_succ_of_ne_zero (Nat.ne_zero_of_lt enough)
    rw [← byteSize_append, tokensFrom, round_nil]
    rfl
  | case3 =>
    rename_i offset cs gap c r found _ e fails
    obtain ⟨here, size, starts⟩ := split_gap split at_ found
    exact yields_gap split at_ found (yields_openToken here size starts fails)
  | case4 =>
    rename_i offset cs gap c r found start kind word rest token _ _ e fails ih
    obtain ⟨here, size, starts⟩ := split_gap split at_ found
    have behind : text = before ++ gap ++ word ++ rest := by
      rw [List.append_assoc, append_of_splitToken token, here]
    have later := ih behind (by rw [byteSize_append _ word, ← size])
    rw [fails] at later
    exact yields_gap split at_ found (yields_token here size starts token later)
  | case5 =>
    rename_i offset cs gap c r found start kind word rest token _ _ s read ih
    obtain ⟨here, size, starts⟩ := split_gap split at_ found
    have behind : text = before ++ gap ++ word ++ rest := by
      rw [List.append_assoc, append_of_splitToken token, here]
    have later := ih behind (by rw [byteSize_append _ word, ← size])
    rw [read] at later
    exact yields_gap split at_ found (yields_token here size starts token later)

end Tokens

theorem yields_tokens (text : List Char) :
    Yields text text 0 (reported ((Source.ofText? text).map fun s => s.tokens.map gapless)) :=
  have whole : text = [] ++ text := rfl
  yields_readSource whole rfl

theorem tokens_eq (text : List Char) :
    tokens text = reported ((Source.ofText? text).map fun s => s.tokens.map gapless) :=
  yields_tokens text _ (Nat.lt_succ_self _)

end OpenApiModels.Offsets
