import OpenApiModels.Proofs.Json.NumberText
import OpenApiModels.Proofs.Json.RoundTrip
import OpenApiModels.Proofs.Number.Literals

/-!
# Reading literals

A well-formed literal is read from its text for the number it stands for (`readNumber_text`), since
each part of it ends where the next one starts.
-/

namespace OpenApiModels.Json

open Number

/-! ### Digits -/

/-- Digits end where a text goes on like this. -/
def EndsDigits (rest : List Char) : Prop :=
  ∀ c ∈ rest.head?, c.isDigit = false

theorem endsDigits_of_endsNumber {rest : List Char} (ends : endsNumber rest = true) :
    EndsDigits rest := by
  intro c hc
  obtain ⟨rest, rfl⟩ := List.head?_eq_some_iff.1 hc
  cases digit : c.isDigit <;> simp [endsNumber, digit] at ends ⊢

theorem endsDigits_cons {c : Char} (h : c.isDigit = false) (rest : List Char) :
    EndsDigits (c :: rest) := by
  intro d hd
  rwa [← Option.some.inj hd]

theorem takeWhile_isDigit_append {ds rest : List Char} (digits : ∀ c ∈ ds, c.isDigit = true)
    (ends : EndsDigits rest) : (ds ++ rest).takeWhile Char.isDigit = ds := by
  rw [List.takeWhile_append_of_pos digits]
  cases rest with
  | nil => simp
  | cons c rest => simp [ends c rfl]

theorem dropWhile_isDigit_append {ds rest : List Char} (digits : ∀ c ∈ ds, c.isDigit = true)
    (ends : EndsDigits rest) : (ds ++ rest).dropWhile Char.isDigit = rest := by
  have whole := List.takeWhile_append_dropWhile (p := Char.isDigit) (l := ds ++ rest)
  rw [takeWhile_isDigit_append digits ends] at whole
  exact List.append_cancel_left whole

/-! ### Parts of literals -/

theorem readWhole_append {ds rest : List Char} (digits : ∀ c ∈ ds, c.isDigit = true)
    (ne_nil : ds ≠ []) (head : ds.head? = some '0' → ds = ['0']) (ends : EndsDigits rest) :
    forget (readWhole (ds ++ rest)) = some (ds, rest) := by
  have front := takeWhile_isDigit_append digits ends
  have behind := dropWhile_isDigit_append digits ends
  unfold readWhole
  split
  · rename_i none
    rw [front] at none
    exact absurd none ne_nil
  · rename_i c cs some
    obtain rfl : ds = c :: cs := front.symm.trans some
    have noZero : ¬ (c = '0' ∧ cs ≠ []) := by
      rintro ⟨rfl, more⟩
      exact more (List.cons.inj (head rfl)).2
    rw [if_neg noZero, forget_some]
    exact congrArg Option.some (Prod.ext rfl behind)

section Parts

variable {l : Literal} {rest : List Char}

theorem endsDigits_exponentText (ends : endsNumber rest = true) :
    EndsDigits (l.exponentText ++ rest) := by
  unfold Literal.exponentText
  split
  · exact endsDigits_of_endsNumber ends
  · exact endsDigits_cons rfl _

theorem readFraction_text (h : l.WellFormed) (ends : endsNumber rest = true) :
    readFraction (l.fractionText ++ (l.exponentText ++ rest)) =
      some (l.fraction, l.exponentText ++ rest) := by
  have behind := endsDigits_exponentText (l := l) ends
  cases fraction : l.fraction with
  | none =>
    have text : l.fractionText = [] := by rw [Literal.fractionText, fraction]
    rw [text, List.nil_append]
    unfold readFraction
    split
    · rename_i point
      -- an exponent does not start with a point, and no number ends with one
      unfold Literal.exponentText at point
      split at point
      · rw [List.nil_append] at point
        rw [point] at ends
        cases ends
      · cases point
    · rfl
  | some ds =>
    have text : l.fractionText = '.' :: ds := by rw [Literal.fractionText, fraction]
    obtain ⟨some, digits⟩ := h.places ds fraction
    have front := takeWhile_isDigit_append digits behind
    rw [text, List.cons_append]
    simp only [readFraction, front, dropWhile_isDigit_append digits behind]
    rw [if_neg (by simpa using some)]

theorem readExponent_text (ends : endsNumber rest = true) :
    readExponent (l.exponentText ++ rest) = some (l.exponent, rest) := by
  cases exponent : l.exponent with
  | none =>
    have text : l.exponentText = [] := by rw [Literal.exponentText, exponent]
    rw [text, List.nil_append]
    cases rest with
    | nil => rfl
    | cons c rest =>
      have noMark : ¬ (c = 'e' ∨ c = 'E') := by
        rintro (rfl | rfl) <;> cases ends
      simp [readExponent, noMark]
  | some e =>
    have text : l.exponentText = 'e' :: ((if e < 0 then ['-'] else ['+']) ++
        Nat.toDigits 10 e.natAbs) := by
      rw [Literal.exponentText, exponent]
      rfl
    have digits : ∀ c ∈ Nat.toDigits 10 e.natAbs, c.isDigit = true := fun _ =>
      isDigit_of_mem_toDigits
    have behind := endsDigits_of_endsNumber ends
    have sign : readSign ((if e < 0 then ['-'] else ['+']) ++ Nat.toDigits 10 e.natAbs ++ rest) =
        (decide (e < 0), Nat.toDigits 10 e.natAbs ++ rest) := by
      by_cases negative : e < 0 <;> simp [negative, readSign]
    have value : signed (decide (e < 0)) e.natAbs = e := by
      unfold signed
      split <;> rename_i negative <;> simp only [decide_eq_true_eq] at negative <;> omega
    rw [text, List.cons_append]
    simp only [readExponent, true_or, if_true, sign, takeWhile_isDigit_append digits behind,
      dropWhile_isDigit_append digits behind, digitsValue_toDigits, value]
    rw [if_neg (by simp)]

theorem readUnsigned_text (h : l.WellFormed) {v : Value} (value : l.value? = some v)
    (ends : endsNumber rest = true) :
    forget (readUnsigned l.negative (l.unsignedText ++ rest)) = some (v, rest) := by
  have behind : EndsDigits (l.fractionText ++ (l.exponentText ++ rest)) := by
    unfold Literal.fractionText
    split
    · exact endsDigits_exponentText ends
    · exact endsDigits_cons rfl _
  have text : l.unsignedText ++ rest = l.whole ++ (l.fractionText ++ (l.exponentText ++ rest)) := by
    simp [Literal.unsignedText]
  have whole := readWhole_append h.digits h.ne_nil h.head behind
  rw [← text] at whole
  obtain ⟨r, whole, left⟩ := forget_eq_some whole
  have fractions := readFraction_text h ends
  have exponents := readExponent_text (l := l) ends
  rw [← left] at fractions
  unfold readUnsigned
  rw [whole]
  dsimp only
  split
  · rename_i fraction
    rw [fractions] at fraction
    cases fraction
  · rename_i fraction
    obtain ⟨rfl, rfl⟩ := Prod.mk.inj (Option.some.inj (fractions.symm.trans fraction))
    split
    · rename_i exponent
      rw [exponents] at exponent
      cases exponent
    · rename_i exponent
      obtain ⟨rfl, rfl⟩ := Prod.mk.inj (Option.some.inj (exponents.symm.trans exponent))
      have value : Literal.value? ⟨l.negative, l.whole, l.fraction, l.exponent⟩ = some v := value
      rw [value]
      rfl

theorem readNumber_minus {cs rest : List Char} {v : Value}
    (h : forget (readUnsigned true cs) = some (v, rest)) :
    forget (readNumber ('-' :: cs)) = some (v, rest) := by
  obtain ⟨r, read, behind⟩ := forget_eq_some h
  simp [readNumber, read, Rest.widen, behind]

theorem readNumber_digit {c : Char} {cs rest : List Char} {v : Value} (digit : c.isDigit = true)
    (h : forget (readUnsigned false (c :: cs)) = some (v, rest)) :
    forget (readNumber (c :: cs)) = some (v, rest) := by
  have noMinus : ∀ r, c :: cs = '-' :: r → False := by
    intro r minus
    rw [(List.cons.inj minus).1] at digit
    cases digit
  rw [readNumber.eq_2 _ noMinus]
  exact h

/-- A well-formed literal is read for the number it stands for. -/
theorem readNumber_text (h : l.WellFormed) {v : Value} (value : l.value? = some v)
    (ends : endsNumber rest = true) : forget (readNumber (l.text ++ rest)) = some (v, rest) := by
  have read := readUnsigned_text h value ends
  unfold Literal.text
  cases sign : l.negative <;> rw [sign] at read
  · obtain ⟨c, cs, whole⟩ := List.exists_cons_of_ne_nil h.ne_nil
    have digit : c.isDigit = true := h.digits c (whole ▸ List.mem_cons_self)
    have text : l.unsignedText ++ rest =
        c :: (cs ++ (l.fractionText ++ l.exponentText) ++ rest) := by
      rw [Literal.unsignedText, whole]
      simp
    rw [text] at read
    rw [if_neg Bool.false_ne_true, List.nil_append, text]
    exact readNumber_digit digit read
  · exact readNumber_minus read

theorem startsNumber_text (h : l.WellFormed) :
    ∃ c cs, l.text = c :: cs ∧ startsNumber c = true := by
  unfold Literal.text
  cases l.negative with
  | true => exact ⟨_, _, rfl, rfl⟩
  | false =>
    obtain ⟨c, cs, whole⟩ := List.exists_cons_of_ne_nil h.ne_nil
    have digit : c.isDigit = true := h.digits c (whole ▸ List.mem_cons_self)
    refine ⟨c, cs ++ (l.fractionText ++ l.exponentText), ?_, by simp [startsNumber, digit]⟩
    simp [Literal.unsignedText, whole]

end Parts

end OpenApiModels.Json
