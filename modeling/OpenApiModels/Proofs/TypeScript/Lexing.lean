import OpenApiModels.Proofs.Text.Finding
import OpenApiModels.TypeScript.Source

/-!
# Reading tokens again

A list of tokens is stable when each of them, with its gap, is read back from the text of the list.
What was read is stable (`stable_of_readSource`), and a stable list is what is read from its text
(`readSource_of_stable`), so that a change to tokens that keeps them stable is a change to what is
read.
-/

namespace OpenApiModels.TypeScript

open Text

/-! ### Gaps -/

/-- Neither a blank nor a comment starts here. -/
def startsToken : List Char → Bool
  | [] => true
  | c :: r => !isBlank c && !(c == '/' && r.head?.any fun d => d == '/' || d == '*')

theorem startsToken_cons {c : Char} (notBlank : isBlank c = false) (notSlash : c ≠ '/')
    (r : List Char) : startsToken (c :: r) = true := by
  simp [startsToken, notBlank, notSlash]

theorem isBlank_slash : isBlank '/' = false := by decide

theorem splitGap_of_startsToken {cs : List Char} (h : startsToken cs = true) (offset : Nat) :
    splitGap offset cs = .ok ([], cs) := by
  cases cs with
  | nil => rw [splitGap]
  | cons c r =>
    simp only [startsToken, Bool.and_eq_true, Bool.not_eq_true'] at h
    obtain ⟨notBlank, notComment⟩ := h
    rw [splitGap.eq_def]
    dsimp only
    rw [if_neg (by simp [notBlank])]
    split
    · rename_i slash
      subst slash
      cases r with
      | nil => rfl
      | cons d r =>
        simp only [beq_self_eq_true, Bool.true_and, List.head?_cons, Option.any_some,
          Bool.or_eq_false_iff, beq_eq_false_iff_ne] at notComment
        split
        · rename_i line
          exact absurd (List.cons.inj line).1 notComment.1
        · rename_i block
          exact absurd (List.cons.inj block).1 notComment.2
        · rfl
    · rfl

theorem splitGap_blank {c : Char} {r gap rest : List Char} {offset : Nat}
    (h : isBlank c = true) (next : splitGap (offset + c.utf8Size) r = .ok (gap, rest)) :
    splitGap offset (c :: r) = .ok (c :: gap, rest) := by
  rw [splitGap.eq_def]
  dsimp only
  rw [if_pos h, next]

theorem splitGap_line_eq {line r : List Char} (offset : Nat) (h : '\n' ∉ line)
    (stop : r = [] ∨ r.head? = some '\n') :
    splitGap offset ('/' :: '/' :: (line ++ r)) =
      (splitGap (offset + 2 + byteSize line) r).map fun (gap, rest) =>
        ('/' :: '/' :: line ++ gap, rest) := by
  have keep : ∀ c ∈ line, (c != '\n') = true := by
    intro c hc
    rw [bne_iff_ne]
    rintro rfl
    exact h hc
  have ends : r.takeWhile (· != '\n') = [] ∧ r.dropWhile (· != '\n') = r := by
    rcases stop with rfl | first
    · exact ⟨rfl, rfl⟩
    · cases r with
      | nil => exact ⟨rfl, rfl⟩
      | cons d r =>
        cases Option.some.inj first
        exact ⟨rfl, rfl⟩
  have taken : (line ++ r).takeWhile (· != '\n') = line := by
    rw [List.takeWhile_append_of_pos keep, ends.1, List.append_nil]
  have dropped : (line ++ r).dropWhile (· != '\n') = r := by
    rw [List.dropWhile_append_of_pos keep, ends.2]
  rw [splitGap, if_neg (by simp [isBlank_slash]), if_pos rfl]
  simp only [taken, dropped]
  cases splitGap (offset + 2 + byteSize line) r <;> rfl

theorem splitGap_line {line r gap rest : List Char} (offset : Nat) (h : '\n' ∉ line)
    (stop : r = [] ∨ r.head? = some '\n')
    (next : splitGap (offset + 2 + byteSize line) r = .ok (gap, rest)) :
    splitGap offset ('/' :: '/' :: (line ++ r)) = .ok ('/' :: '/' :: line ++ gap, rest) := by
  rw [splitGap_line_eq offset h stop, next]
  rfl

theorem splitGap_block {body r gap rest : List Char} (offset : Nat)
    (h : splitFirst? ['*', '/'] (body ++ ['*', '/'] ++ r) = some (body, r))
    (next : splitGap (offset + 4 + byteSize body) r = .ok (gap, rest)) :
    splitGap offset ('/' :: '*' :: (body ++ ['*', '/'] ++ r)) =
      .ok ('/' :: '*' :: body ++ '*' :: '/' :: gap, rest) := by
  rw [splitGap, if_neg (by simp [isBlank_slash]), if_pos rfl]
  dsimp only
  split
  · rename_i none
    rw [h] at none
    cases none
  · rename_i body' r' found
    obtain ⟨rfl, rfl⟩ := Prod.mk.inj (Option.some.inj (found.symm.trans h))
    rw [next]

/-- A gap that ends wherever a token starts. -/
def ClosedGap (gap : List Char) : Prop :=
  ∀ offset rest, startsToken rest = true → splitGap offset (gap ++ rest) = .ok (gap, rest)

/-- A gap that the text ends with. -/
def EndsGap (gap : List Char) : Prop :=
  ∀ offset, splitGap offset gap = .ok (gap, [])

theorem closedGap_nil : ClosedGap [] :=
  fun offset _ h => splitGap_of_startsToken h offset

theorem closedGap_blank {c : Char} {gap : List Char} (h : isBlank c = true) (closed : ClosedGap gap) :
    ClosedGap (c :: gap) :=
  fun _ rest hr => splitGap_blank h (closed _ rest hr)

theorem closedGap_line {line gap : List Char} (h : '\n' ∉ line) (closed : ClosedGap ('\n' :: gap)) :
    ClosedGap ('/' :: '/' :: line ++ '\n' :: gap) := by
  intro offset rest hr
  have next := splitGap_line offset h (.inr rfl) (closed _ rest hr)
  simpa using next

theorem closedGap_block {body gap r : List Char}
    (h : splitFirst? ['*', '/'] (body ++ ['*', '/'] ++ r) = some (body, r))
    (closed : ClosedGap gap) : ClosedGap ('/' :: '*' :: body ++ '*' :: '/' :: gap) := by
  intro offset rest hr
  have next := splitGap_block offset (splitFirst?_congr (gap ++ rest) h)
    (closed _ rest hr)
  simpa using next

theorem not_mem_takeWhile_line (text : List Char) : '\n' ∉ text.takeWhile (· != '\n') := by
  intro mem
  have all := List.all_eq_true.1 (List.all_takeWhile (p := (· != '\n')) (l := text)) _ mem
  exact absurd all (by decide)

theorem dropWhile_line (text : List Char) :
    text.dropWhile (· != '\n') = [] ∨ (text.dropWhile (· != '\n')).head? = some '\n' := by
  cases left : text.dropWhile (· != '\n') with
  | nil => exact .inl rfl
  | cons d r =>
    have first := List.head?_dropWhile_not (· != '\n') text
    rw [left] at first
    exact .inr (congrArg some (by simpa using first))

/-- A gap goes on with the line break behind a line. -/
theorem gap_behind_line {offset : Nat} {text gap rest : List Char}
    (h : splitGap offset (text.dropWhile (· != '\n')) = .ok (gap, rest))
    (starts : startsToken rest = true) (more : rest ≠ []) : ∃ gap', gap = '\n' :: gap' := by
  have tiles := append_of_splitGap h
  rcases dropWhile_line text with nothing | first
  · rw [nothing] at tiles
    exact absurd (List.append_eq_nil_iff.1 tiles).2 more
  · rw [← tiles] at first
    cases gap with
    | nil =>
      obtain ⟨r, rfl⟩ := List.head?_eq_some_iff.1 first
      cases starts
    | cons d gap => exact ⟨gap, by rw [Option.some.inj first]⟩

/-- What is split off does not depend on the offset, ends where a token starts, and is closed
unless the text ends there. -/
theorem splitGap_spec {offset : Nat} {cs gap rest : List Char}
    (h : splitGap offset cs = .ok (gap, rest)) :
    (∀ other, splitGap other cs = .ok (gap, rest)) ∧ startsToken rest = true ∧
      (rest ≠ [] → ClosedGap gap) := by
  fun_induction splitGap offset cs generalizing gap rest with
  | case1 =>
    cases h
    exact ⟨fun other => by rw [splitGap], rfl, fun _ => closedGap_nil⟩
  | case2 offset c r blank g s found ih =>
    cases h
    obtain ⟨any, starts, closed⟩ := ih found
    exact ⟨fun other => splitGap_blank blank (any _), starts,
      fun ne => closedGap_blank blank (closed ne)⟩
  | case3 => cases h
  | case4 =>
    rename_i text line _ gap rest found _ ih
    cases h
    obtain ⟨any, starts, closed⟩ := ih found
    have split : text = line ++ text.dropWhile (· != '\n') :=
      (List.takeWhile_append_dropWhile).symm
    refine ⟨fun other => ?_, starts, fun ne => ?_⟩
    · rw [split]
      exact splitGap_line _ (not_mem_takeWhile_line text) (dropWhile_line text) (any _)
    · have closed := closed ne
      obtain ⟨gap, rfl⟩ := gap_behind_line found starts ne
      exact closedGap_line (not_mem_takeWhile_line text) closed
  | case5 => cases h
  | case6 => cases h
  | case7 =>
    rename_i text body r found _ _ _ next _ ih
    cases h
    obtain ⟨any, starts, closed⟩ := ih next
    have split := splitFirst?_eq_some found
    rw [split] at found
    refine ⟨fun other => ?_, starts, fun ne => closedGap_block found (closed ne)⟩
    rw [split]
    exact splitGap_block _ found (any _)
  | case8 => cases h
  | case9 =>
    rename_i r notLine notBlock _
    cases h
    have starts : startsToken ('/' :: r) = true := by
      cases r with
      | nil => rfl
      | cons d r =>
        have line : d ≠ '/' := by
          rintro rfl
          exact notLine r rfl
        have block : d ≠ '*' := by
          rintro rfl
          exact notBlock r rfl
        simp [startsToken, isBlank_slash, line, block]
    exact ⟨splitGap_of_startsToken starts, starts, fun _ => closedGap_nil⟩
  | case10 =>
    rename_i c r notBlank notSlash
    cases h
    have starts := startsToken_cons (by simpa using notBlank) notSlash r
    exact ⟨splitGap_of_startsToken starts, starts, fun _ => closedGap_nil⟩

/-! ### Tokens -/

theorem startsToken_congr {cs rest rest' : List Char} (hcs : cs ≠ [])
    (same : rest.head? = rest'.head?) (h : startsToken (cs ++ rest) = true) :
    startsToken (cs ++ rest') = true := by
  cases cs with
  | nil => exact absurd rfl hcs
  | cons c r =>
    cases r with
    | nil => simpa [startsToken, same] using h
    | cons d r => exact h

theorem splitLiteral_congr {quote : Char} {cs text rest : List Char}
    (h : splitLiteral quote cs = some (text, rest)) (rest' : List Char) :
    splitLiteral quote (text ++ rest') = some (text, rest') := by
  fun_induction splitLiteral quote cs generalizing text with
  | case1 => cases h
  | case2 => cases h
  | case3 d r ih =>
    simp only [Option.map_eq_some_iff, Prod.exists, Prod.mk.injEq] at h
    obtain ⟨inner, _, found, rfl, rfl⟩ := h
    simp [splitLiteral, ih found]
  | case4 r notEscape =>
    cases h
    rw [List.singleton_append, splitLiteral.eq_def]
    dsimp only
    rw [if_neg notEscape, if_pos rfl]
  | case5 => cases h
  | case6 c r notEscape notQuote inLine ih =>
    simp only [Option.map_eq_some_iff, Prod.exists, Prod.mk.injEq] at h
    obtain ⟨inner, _, found, rfl, rfl⟩ := h
    rw [List.cons_append, splitLiteral.eq_def]
    dsimp only
    rw [if_neg notEscape, if_neg notQuote, if_neg inLine, ih found]
    rfl

theorem span_append_iff {p : Char → Bool} {cs rest : List Char} :
    (cs ++ rest).takeWhile p = cs ∧ (cs ++ rest).dropWhile p = rest ↔
      (∀ c ∈ cs, p c = true) ∧ rest.head?.any p = false := by
  have taken : (cs ++ rest).takeWhile p = cs ↔
      (∀ c ∈ cs, p c = true) ∧ rest.head?.any p = false := by
    induction cs with
    | nil =>
      cases rest with
      | nil => simp
      | cons c rest => cases hc : p c <;> simp [hc]
    | cons c cs ih => cases hc : p c <;> simp [hc, ih]
  rw [← taken]
  refine ⟨And.left, fun h => ⟨h, ?_⟩⟩
  have whole := List.takeWhile_append_dropWhile (p := p) (l := cs ++ rest)
  rw [h] at whole
  exact List.append_cancel_left whole

namespace Token

/-- The token is read back where `rest` follows it. -/
def Fits (t : Token) (rest : List Char) : Prop :=
  ∃ c r, t.text = c :: r ∧ startsToken (t.text ++ rest) = true ∧
    ∀ offset, splitToken offset c (r ++ rest) = .ok (t.kind, t.text, rest)

theorem Fits.text_ne_nil {t : Token} {rest : List Char} (fits : t.Fits rest) : t.text ≠ [] := by
  obtain ⟨c, r, text, -⟩ := fits
  rw [text]
  exact List.cons_ne_nil c r

/-- How the characters of a token make up its kind, and what must not follow it. -/
theorem splitToken_append_iff {offset : Nat} {c : Char} {r rest : List Char} {kind : TokenKind} :
    splitToken offset c (r ++ rest) = .ok (kind, c :: r, rest) ↔
      (isQuote c = true ∧ kind = .literal ∧ splitLiteral c r = some (r, [])) ∨
      (isQuote c = false ∧ c.isDigit = true ∧ kind = .number ∧
        (∀ d ∈ r, isNumberChar d = true) ∧ rest.head?.any isNumberChar = false) ∨
      (isQuote c = false ∧ c.isDigit = false ∧ isNameStart c = true ∧ kind = .word ∧
        (∀ d ∈ r, isNameChar d = true) ∧ rest.head?.any isNameChar = false) ∨
      (isQuote c = false ∧ c.isDigit = false ∧ isNameStart c = false ∧ kind = .mark ∧ r = []) := by
  unfold splitToken
  cases quote : isQuote c with
  | true =>
    simp only [if_true, true_and, Bool.true_eq_false, false_and, or_false]
    constructor
    · intro h
      split at h
      · rename_i text rest' found
        simp only [Except.ok.injEq, Prod.mk.injEq, List.cons.injEq, true_and] at h
        obtain ⟨rfl, rfl, rfl⟩ := h
        have alone := splitLiteral_congr found []
        rw [List.append_nil] at alone
        exact ⟨rfl, alone⟩
      · cases h
    · rintro ⟨rfl, alone⟩
      rw [splitLiteral_congr alone rest]
  | false =>
    simp only [Bool.false_eq_true, if_false, false_and, false_or, true_and]
    cases digit : c.isDigit with
    | true =>
      simp only [if_true, true_and, Bool.true_eq_false, false_and, or_false, Except.ok.injEq,
        Prod.mk.injEq, List.cons.injEq, span_append_iff, eq_comm (a := TokenKind.number)]
    | false =>
      simp only [Bool.false_eq_true, if_false, false_and, false_or, true_and]
      cases name : isNameStart c with
      | true =>
        simp only [if_true, true_and, Bool.true_eq_false, false_and, or_false, Except.ok.injEq,
          Prod.mk.injEq, List.cons.injEq, span_append_iff, eq_comm (a := TokenKind.word)]
      | false =>
        simp only [Bool.false_eq_true, if_false, false_and, false_or, true_and, Except.ok.injEq,
          Prod.mk.injEq, List.cons.injEq, eq_comm (a := TokenKind.mark), eq_comm (a := [])]
        refine and_congr_right fun _ => and_iff_left_of_imp ?_
        rintro rfl
        rfl

theorem fits_of_splitToken {offset start : Nat} {c : Char} {gap r text rest : List Char}
    {kind : TokenKind} (h : splitToken offset c r = .ok (kind, text, rest))
    (starts : startsToken (c :: r) = true) : Fits ⟨gap, kind, text, start⟩ rest := by
  have tiles := append_of_splitToken h
  cases text with
  | nil =>
    have shorter := length_lt_of_splitToken h
    rw [← tiles] at shorter
    exact absurd shorter (Nat.lt_irrefl _)
  | cons d r' =>
    obtain ⟨rfl, rfl⟩ := List.cons.inj tiles
    refine ⟨d, r', rfl, starts, fun other => ?_⟩
    exact splitToken_append_iff.2 (splitToken_append_iff.1 h)

theorem Fits.congr {t : Token} {rest rest' : List Char} (h : t.Fits rest)
    (same : rest.head? = rest'.head?) : t.Fits rest' := by
  obtain ⟨c, r, text, starts, split⟩ := h
  refine ⟨c, r, text, startsToken_congr (by simp [text]) same starts, fun offset => ?_⟩
  have split := split offset
  rw [text, splitToken_append_iff] at split ⊢
  rwa [← same]

/-- What makes a word. -/
structure IsWordText (c : Char) (r : List Char) : Prop where
  notBlank : isBlank c = false
  notQuote : isQuote c = false
  notDigit : c.isDigit = false
  start : isNameStart c = true
  chars : ∀ d ∈ r, isNameChar d = true

theorem fits_word_iff {t : Token} (word : t.kind = .word) {rest : List Char} :
    t.Fits rest ↔ ∃ c r, t.text = c :: r ∧ IsWordText c r ∧ rest.head?.any isNameChar = false := by
  constructor
  · rintro ⟨c, r, text, starts, split⟩
    have split := split 0
    rw [text, splitToken_append_iff, word] at split
    simp only [reduceCtorEq, false_and, and_false, false_or, or_false, true_and] at split
    obtain ⟨notQuote, notDigit, start, chars, stop⟩ := split
    rw [text, List.cons_append] at starts
    simp only [startsToken, Bool.and_eq_true, Bool.not_eq_true'] at starts
    exact ⟨c, r, text, ⟨starts.1, notQuote, notDigit, start, chars⟩, stop⟩
  · rintro ⟨c, r, text, chars, stop⟩
    have slash : c ≠ '/' := by
      rintro rfl
      exact absurd chars.start (by decide)
    refine ⟨c, r, text, ?_, fun offset => ?_⟩
    · rw [text, List.cons_append]
      exact startsToken_cons chars.notBlank slash _
    · rw [text, splitToken_append_iff]
      exact .inr (.inr (.inl ⟨chars.notQuote, chars.notDigit, chars.start, word, chars.chars, stop⟩))

end Token

/-! ### Lists of tokens -/

/-- The text of tokens and of what follows them. -/
def textOf (ts : List Token) (tail : List Char) : List Char :=
  (Source.mk ts tail).text

@[simp] theorem textOf_nil (tail : List Char) : textOf [] tail = tail := rfl

theorem textOf_cons (t : Token) (ts : List Token) (tail : List Char) :
    textOf (t :: ts) tail = t.gap ++ (t.text ++ textOf ts tail) := by
  simp [textOf, Source.text]

theorem textOf_append (a b : List Token) (tail : List Char) :
    textOf (a ++ b) tail = textOf a (textOf b tail) := by
  simp [textOf, Source.text]

theorem Token.slice_append {a : List Token} (h : a ≠ []) (b : List Token) :
    Token.slice (a ++ b) = Token.slice a ++ b.flatMap fun t => t.gap ++ t.text := by
  cases a with
  | nil => exact absurd rfl h
  | cons t a => simp [Token.slice]

theorem Token.isWord_iff {t : Token} {word : String} :
    t.isWord word = true ↔ t.kind = .word ∧ t.text = word.toList := by
  simp [Token.isWord]

theorem Token.isMark_iff {t : Token} {c : Char} :
    t.isMark c = true ↔ t.kind = .mark ∧ t.text = [c] := by
  simp [Token.isMark]

theorem Token.isMark_eq_false {t : Token} {c d : Char} (h : t.isMark c = true) (other : c ≠ d) :
    t.isMark d = false := by
  have mark := Token.isMark_iff.1 h
  simp [Token.isMark, mark, other]

theorem textOf_eq_append (ts : List Token) (tail : List Char) :
    textOf ts tail = textOf ts [] ++ tail := by
  simp [textOf, Source.text]

/-- Each token and the gap before it are read back where `rest` follows the tokens. -/
def StableBefore : List Token → List Char → Prop
  | [], _ => True
  | t :: ts, rest => ClosedGap t.gap ∧ t.Fits (textOf ts rest) ∧ StableBefore ts rest

/-- Every token and every gap is read back from the text. -/
def Stable (ts : List Token) (tail : List Char) : Prop :=
  StableBefore ts tail ∧ EndsGap tail

theorem stableBefore_append {a b : List Token} {rest : List Char} :
    StableBefore (a ++ b) rest ↔ StableBefore a (textOf b rest) ∧ StableBefore b rest := by
  induction a with
  | nil => simp [StableBefore]
  | cons t a ih =>
    simp only [List.cons_append, StableBefore, textOf_append, ih]
    exact ⟨fun ⟨gap, fits, h⟩ => ⟨⟨gap, fits, h.1⟩, h.2⟩, fun ⟨⟨gap, fits, h⟩, k⟩ => ⟨gap, fits, h, k⟩⟩

theorem StableBefore.head?_textOf {ts : List Token} {rest rest' : List Char}
    (h : StableBefore ts rest) (same : rest.head? = rest'.head?) :
    (textOf ts rest).head? = (textOf ts rest').head? := by
  cases ts with
  | nil => exact same
  | cons t ts =>
    obtain ⟨-, ⟨c, r, text, -⟩, -⟩ := h
    rw [textOf_cons, textOf_cons, text]
    cases t.gap <;> rfl

/-- Of what follows the tokens, only the first character matters. -/
theorem StableBefore.congr {ts : List Token} {rest rest' : List Char} (h : StableBefore ts rest)
    (same : rest.head? = rest'.head?) : StableBefore ts rest' := by
  induction ts with
  | nil => trivial
  | cons t ts ih =>
    obtain ⟨gap, fits, more⟩ := h
    exact ⟨gap, fits.congr (more.head?_textOf same), ih more⟩

/-- Both texts start in the same way, or the first one with a character that goes on a word or a
number and the second one with one that no mark goes on with. -/
def Alike (rest rest' : List Char) : Prop :=
  rest.head? = rest'.head? ∨ ∃ c d r r', rest = c :: r ∧ rest' = d :: r' ∧
    isNameChar c = true ∧ isNumberChar c = true ∧ d ≠ '/' ∧ d ≠ '*'

theorem Alike.append {a rest rest' : List Char} (h : Alike rest rest') :
    Alike (a ++ rest) (a ++ rest') := by
  cases a with
  | nil => exact h
  | cons c a => exact .inl rfl

theorem Token.Fits.alike {t : Token} {rest rest' : List Char} (h : t.Fits rest)
    (same : Alike rest rest') : t.Fits rest' := by
  rcases same with same | ⟨c, d, r, r', rfl, rfl, isName, isNumber, slash, star⟩
  · exact h.congr same
  obtain ⟨first, more, text, starts, split⟩ := h
  refine ⟨first, more, text, ?_, fun offset => ?_⟩
  · rw [text] at starts ⊢
    cases more with
    | nil => simpa [TypeScript.startsToken, slash, star] using (Bool.and_eq_true_iff.1 starts).1
    | cons e more => exact starts
  · have split := split offset
    rw [text, splitToken_append_iff] at split ⊢
    simp only [List.head?_cons, Option.any_some, isName, isNumber, Bool.true_eq_false, and_false,
      false_or] at split
    exact split.imp_right fun mark => .inr (.inr mark)

theorem StableBefore.alike {ts : List Token} {rest rest' : List Char} (h : StableBefore ts rest)
    (same : Alike rest rest') :
    StableBefore ts rest' ∧ Alike (textOf ts rest) (textOf ts rest') := by
  induction ts with
  | nil => exact ⟨trivial, same⟩
  | cons t ts ih =>
    obtain ⟨gap, fits, more⟩ := h
    obtain ⟨again, alike⟩ := ih more
    refine ⟨⟨gap, fits.alike alike, again⟩, .inl ?_⟩
    obtain ⟨c, r, text, -⟩ := fits
    rw [textOf_cons, textOf_cons, text]
    cases t.gap <;> rfl

/-- The tokens with the offsets they have in a text that starts at `offset`. -/
def rebase (offset : Nat) : List Token → List Token
  | [] => []
  | t :: ts =>
    { t with start := offset + byteSize t.gap } ::
      rebase (offset + byteSize t.gap + byteSize t.text) ts

theorem rebase_append (offset : Nat) (a b : List Token) :
    rebase offset (a ++ b) = rebase offset a ++ rebase (offset + byteSize (textOf a [])) b := by
  induction a generalizing offset with
  | nil => rfl
  | cons t a ih =>
    rw [List.cons_append, rebase, rebase, ih, textOf_cons, byteSize_append, byteSize_append]
    simp only [List.cons_append, Nat.add_assoc]

theorem length_rebase (offset : Nat) (ts : List Token) : (rebase offset ts).length = ts.length := by
  induction ts generalizing offset with
  | nil => rfl
  | cons t ts ih => simp [rebase, ih]

/-- Where the offsets of a list are right, those of its parts are. -/
theorem rebase_parts {offset : Nat} {a b : List Token} (h : rebase offset (a ++ b) = a ++ b) :
    rebase offset a = a ∧ rebase (offset + byteSize (textOf a [])) b = b := by
  rw [rebase_append] at h
  exact List.append_inj h (length_rebase offset a)

theorem textOf_rebase (offset : Nat) (ts : List Token) (tail : List Char) :
    textOf (rebase offset ts) tail = textOf ts tail := by
  induction ts generalizing offset with
  | nil => rfl
  | cons t ts ih => rw [rebase, textOf_cons, textOf_cons, ih]

theorem readSource_end {offset : Nat} {cs gap : List Char}
    (h : splitGap offset cs = .ok (gap, [])) : readSource offset cs = .ok ⟨[], gap⟩ := by
  rw [readSource]
  split
  · rename_i fails
    rw [h] at fails
    cases fails
  · rename_i gap' ends
    rw [h] at ends
    cases ends
    rfl
  · rename_i more
    rw [h] at more
    cases more

theorem readSource_token {offset : Nat} {cs gap r text rest : List Char} {c : Char}
    {kind : TokenKind} (h : splitGap offset cs = .ok (gap, c :: r))
    (token : splitToken (offset + byteSize gap) c r = .ok (kind, text, rest)) :
    readSource offset cs = (readSource (offset + byteSize gap + byteSize text) rest).map
      fun s => ⟨⟨gap, kind, text, offset + byteSize gap⟩ :: s.tokens, s.tail⟩ := by
  rw [readSource]
  split
  · rename_i fails
    rw [h] at fails
    cases fails
  · rename_i ends
    rw [h] at ends
    cases ends
  · rename_i gap' c' r' starts
    rw [h] at starts
    cases starts
    dsimp only
    split
    · rename_i fails
      rw [token] at fails
      cases fails
    · rename_i kind' text' rest' found
      rw [token] at found
      cases found
      split <;> rename_i more <;> rw [more] <;> rfl

theorem Token.Fits.startsToken {t : Token} {rest : List Char} (h : t.Fits rest) :
    startsToken (t.text ++ rest) = true :=
  let ⟨_, _, _, starts, _⟩ := h
  starts

/-- Stable tokens are read first, then what follows them. -/
theorem readSource_of_stableBefore {ts : List Token} {rest : List Char} (h : StableBefore ts rest)
    (offset : Nat) :
    readSource offset (textOf ts rest) = (readSource (offset + byteSize (textOf ts [])) rest).map
      fun s => ⟨rebase offset ts ++ s.tokens, s.tail⟩ := by
  induction ts generalizing offset with
  | nil =>
    rw [textOf_nil, textOf_nil, byteSize_nil, Nat.add_zero]
    cases readSource offset rest <;> rfl
  | cons t ts ih =>
    obtain ⟨gap, fits, more⟩ := h
    have before := gap offset _ fits.startsToken
    obtain ⟨c, r, text, -, split⟩ := fits
    have before : splitGap offset (textOf (t :: ts) rest) =
        .ok (t.gap, c :: (r ++ textOf ts rest)) := by
      rw [textOf_cons, before, text, List.cons_append]
    rw [readSource_token before (split _), ih more]
    have size : offset + byteSize (textOf (t :: ts) []) =
        offset + byteSize t.gap + byteSize t.text + byteSize (textOf ts []) := by
      rw [textOf_cons, byteSize_append, byteSize_append]
      omega
    rw [size]
    cases readSource (offset + byteSize t.gap + byteSize t.text + byteSize (textOf ts [])) rest <;>
      rfl

/-- A stable list is what is read from its text. -/
theorem readSource_of_stable {ts : List Token} {tail : List Char} (h : Stable ts tail)
    (offset : Nat) : readSource offset (textOf ts tail) = .ok ⟨rebase offset ts, tail⟩ := by
  rw [readSource_of_stableBefore h.1, readSource_end (h.2 _)]
  simp [Except.map]

/-- What was read is stable. -/
theorem stable_of_readSource {offset : Nat} {cs : List Char} {s : Source}
    (h : readSource offset cs = .ok s) :
    Stable s.tokens s.tail ∧ rebase offset s.tokens = s.tokens := by
  fun_induction readSource offset cs generalizing s with
  | case1 => cases h
  | case2 offset cs gap found =>
    cases h
    have tiles := append_of_splitGap found
    rw [List.append_nil] at tiles
    subst tiles
    exact ⟨⟨trivial, (splitGap_spec found).1⟩, rfl⟩
  | case3 => cases h
  | case4 => cases h
  | case5 =>
    rename_i offset cs gap c r found start kind text rest token _ _ s' more ih
    cases h
    obtain ⟨stable, based⟩ := ih more
    obtain ⟨-, starts, closed⟩ := splitGap_spec found
    have whole : textOf s'.tokens s'.tail = rest := text_of_readSource more
    refine ⟨⟨⟨closed (List.cons_ne_nil c r), ?_, stable.1⟩, stable.2⟩, by rw [rebase, based]⟩
    rw [whole]
    exact Token.fits_of_splitToken token starts

end OpenApiModels.TypeScript
