import OpenApiModels.Proofs.Retyping.FirstOccurrence
import OpenApiModels.Proofs.TypeScript.Declarations

/-!
# Texts of enum declarations

What is known of the text of an enum declaration that was read: how it starts and ends, and that it
has a literal for each of its string values.
-/

namespace OpenApiModels.TypeScript

open Text Retyping

/-- A gap before a token ends with a blank or with a comment in stars. -/
theorem getLast?_of_splitGap {offset : Nat} {cs gap rest : List Char}
    (h : splitGap offset cs = .ok (gap, rest)) (more : rest ≠ []) {c : Char}
    (last : gap.getLast? = some c) : isBlank c = true ∨ c = '/' := by
  fun_induction splitGap offset cs generalizing gap rest with
  | case1 => cases h; cases last
  | case2 offset d r blank g s found ih =>
    cases h
    cases inner : g.getLast? with
    | none =>
      rw [List.getLast?_cons, inner] at last
      cases last
      exact .inl blank
    | some e =>
      rw [List.getLast?_cons, inner] at last
      cases last
      exact ih found more inner
  | case3 => cases h
  | case4 =>
    rename_i text line _ gap rest found _ ih
    cases h
    cases inner : gap.getLast? with
    | some e =>
      rw [List.getLast?_append, inner] at last
      cases last
      exact ih found more inner
    | none =>
      -- the line break that ends the comment would be in the gap
      obtain ⟨gap', isCons⟩ := gap_behind_line found (splitGap_spec found).2.1 more
      rw [isCons, List.getLast?_cons] at inner
      cases inner
  | case5 => cases h
  | case6 => cases h
  | case7 =>
    rename_i text body r found _ gap rest next _ ih
    cases h
    cases inner : gap.getLast? with
    | some e =>
      rw [List.getLast?_append, List.getLast?_cons, List.getLast?_cons, inner] at last
      cases last
      exact ih next more inner
    | none =>
      rw [List.getLast?_append, List.getLast?_cons, List.getLast?_cons, inner] at last
      cases last
      exact .inr rfl
  | case8 => cases h
  | case9 => cases h; cases last
  | case10 => cases h; cases last

theorem ClosedGap.getLast?_ne {gap : List Char} (closed : ClosedGap gap) :
    gap.getLast? ≠ some '\\' := by
  intro last
  have split := closed 0 ['x'] (by decide)
  rcases getLast?_of_splitGap split (List.cons_ne_nil _ _) last with h | h <;>
    exact absurd h (by decide)

namespace EnumTokens

variable (e : EnumTokens)

/-- The first modifier, or the keyword. -/
def first : Token :=
  e.modifiers.headD e.keyword

def others : List Token :=
  e.tokens.tail

theorem tokens_eq : e.tokens = e.first :: e.others := by
  rw [others, first, tokens]
  cases e.modifiers <;> rfl

theorem textOf_tokens (rest : List Char) :
    textOf e.tokens rest = e.first.gap ++ (e.decl.text ++ rest) := by
  have text : e.decl.text = Token.slice e.tokens := rfl
  rw [text, tokens_eq]
  simp [Token.slice, textOf, Source.text]

theorem opener_of_isModifier {t : Token} (h : t.isModifier = true) :
    t.kind = .word ∧ t.text ∈ openers := by
  simp only [Token.isModifier, Bool.or_eq_true, Token.isWord_iff] at h
  rcases h with (⟨word, text⟩ | ⟨word, text⟩) | ⟨word, text⟩ <;>
    exact ⟨word, by rw [text]; decide⟩

theorem startsEnum {rest : List Char} (stable : StableBefore e.tokens rest) :
    StartsEnum e.decl.text := by
  obtain ⟨keyword, enum⟩ := Token.isWord_iff.1 e.isWord_keyword
  -- the first two tokens are words, behind `export` the second one is not any word
  have two : ∃ t u us, e.tokens = t :: u :: us ∧ t.kind = .word ∧ t.text ∈ openers ∧
      u.kind = .word ∧ (t.text = "export".toList → u.text ∈ openers) := by
    unfold tokens
    match e.modifiers, e.isModifier_of_mem with
    | [], _ =>
      exact ⟨e.keyword, e.name, _, rfl, keyword, by rw [enum]; decide, e.kind_name,
        fun h => absurd (enum.symm.trans h) (by decide)⟩
    | [t], modifiers =>
      obtain ⟨word, opener⟩ := opener_of_isModifier (modifiers t (by simp))
      exact ⟨t, e.keyword, _, rfl, word, opener, keyword, fun _ => by rw [enum]; decide⟩
    | t :: u :: us, modifiers =>
      obtain ⟨word, opener⟩ := opener_of_isModifier (modifiers t (by simp))
      obtain ⟨word', opener'⟩ := opener_of_isModifier (modifiers u (by simp))
      exact ⟨t, u, _, rfl, word, opener, word', fun _ => opener'⟩
  obtain ⟨t, u, us, tokens, word, opener, word', behindExport⟩ := two
  rw [tokens] at stable
  obtain ⟨-, fits, closed, fits', -⟩ := stable
  obtain ⟨c, r, text, chars, -⟩ := (Token.fits_word_iff word').1 fits'
  obtain ⟨-, -, -, -, stop⟩ := (Token.fits_word_iff word).1 fits
  refine ⟨t.text, u.gap, c, r ++ us.flatMap fun t => t.gap ++ t.text, ?_, opener, closed, ?_,
    chars.notBlank, chars.start, ?_⟩
  · rw [show e.decl.text = Token.slice e.tokens from rfl, tokens]
    simp [Token.slice, text]
  · rw [textOf_cons, text] at stop
    cases gap : u.gap with
    | nil => simpa [gap] using stop
    | cons d gap' => simpa [gap] using stop
  · rintro isExport rfl
    have first : ∀ w ∈ openers, w.head? ≠ some 't' := by decide
    exact first u.text (behindExport isExport) (by rw [text]; rfl)

theorem getLast?_text : e.decl.text.getLast? = some '\x7d' := by
  have close := (Token.isMark_iff.1 e.isMark_close).2
  have text : e.decl.text = Token.slice
      (e.modifiers ++ e.keyword :: e.name :: e.brace :: e.body) ++ (e.close.gap ++ ['\x7d']) := by
    rw [show e.decl.text = Token.slice e.tokens from rfl, tokens, Token.slice_append (by simp),
      List.flatMap_singleton, close]
  rw [text, ← List.append_assoc, List.getLast?_concat]

theorem hasLiteral {rest : List Char} (stable : StableBefore e.tokens rest) {value : String}
    (h : value ∈ e.decl.strings) : HasLiteral e.decl.text value.toList := by
  obtain ⟨x, eq, literal, y, body, isEq, isLiteral, text, ends⟩ := e.literal_of_mem_strings h
  -- the token behind the literal is a comma or the closing brace
  have next : ∃ u us, y ++ [e.close] = u :: us ∧ ∃ c, u.text = [c] ∧ (c = ',' ∨ c = '\x7d') := by
    cases y with
    | nil => exact ⟨e.close, [], rfl, '\x7d', (Token.isMark_iff.1 e.isMark_close).2, .inr rfl⟩
    | cons u y =>
      have comma : u.isMark ',' = true := by simpa using ends
      exact ⟨u, y ++ [e.close], rfl, ',', (Token.isMark_iff.1 comma).2, .inl rfl⟩
  obtain ⟨u, us, behind, c, mark, isMark⟩ := next
  have tokens : e.tokens =
      (e.modifiers ++ e.keyword :: e.name :: e.brace :: x ++ [eq]) ++ literal :: u :: us := by
    rw [← behind, EnumTokens.tokens, body]
    simp
  rw [tokens, stableBefore_append] at stable
  obtain ⟨-, closed, ⟨quote, r, literalText, -, split⟩, closed', -⟩ := stable
  have split := split 0
  rw [literalText, Token.splitToken_append_iff, isLiteral] at split
  simp only [reduceCtorEq, false_and, and_false, or_false, true_and] at split
  refine ⟨Token.slice (e.modifiers ++ e.keyword :: e.name :: e.brace :: x ++ [eq]) ++ literal.gap,
    quote, r, u.gap, c, us.flatMap fun t => t.gap ++ t.text, ?_, ?_, split.1, split.2, ?_, closed',
    isMark⟩
  · rw [show e.decl.text = Token.slice e.tokens from rfl, tokens, Token.slice_append (by simp)]
    simp [literalText, mark]
  · rw [List.getLast?_append]
    cases last : literal.gap.getLast? with
    | some d =>
      have other := closed.getLast?_ne
      rw [last] at other
      exact other
    | none =>
      rw [Token.slice_append (by simp), List.flatMap_singleton, (Token.isMark_iff.1 isEq).2,
        ← List.append_assoc, List.getLast?_concat]
      decide
  · have value_eq := congrArg String.toList text
    rw [String.toList_ofList, unquote, literalText] at value_eq
    exact value_eq

end EnumTokens

end OpenApiModels.TypeScript
