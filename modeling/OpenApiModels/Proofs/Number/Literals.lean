import OpenApiModels.Proofs.Number.RealText
import OpenApiModels.Proofs.Number.Scaling

/-!
# Literals

None of the digits of a literal is dropped while together they fit 64 bits (`value?_eq_real?`). So
what is written for a double stands for a double, and for itself if the literal is short
(`exists_value?_realLiteral`).
-/

namespace OpenApiModels.Number

-- Powers are those of the core library, whatever else is imported.
attribute [local instance (high)] instPowNat

namespace Literal


/-! ### Values -/

theorem appendDigits_eq {n : Nat} {ds : List Char}
    (fits : n * 10 ^ ds.length + digitsValue ds ≤ wordMax) :
    appendDigits n ds = (n * 10 ^ ds.length + digitsValue ds, ds.length) := by
  induction ds generalizing n with
  | nil => simp [appendDigits, digitsValue]
  | cons d ds ih =>
    have digits : n * 10 ^ (ds.length + 1) + digitsValue (d :: ds) =
        (n * 10 + digitValue d) * 10 ^ ds.length + digitsValue ds := by
      have first : digitsValue [d] = digitValue d := by simp [digitsValue]
      rw [← List.singleton_append, digitsValue_append, first, Nat.pow_succ]
      ring
    rw [List.length_cons, digits] at fits ⊢
    have small : n * 10 + digitValue d ≤ wordMax :=
      calc n * 10 + digitValue d ≤ (n * 10 + digitValue d) * 10 ^ ds.length :=
            Nat.le_mul_of_pos_right _ (Nat.pow_pos (by decide))
        _ ≤ wordMax := (Nat.le_add_right ..).trans fits
    simp only [appendDigits, if_neg (Nat.not_lt.2 small), ih fits]

theorem appendDigits_zero {ds : List Char} (fits : digitsValue ds ≤ wordMax) :
    appendDigits 0 ds = (digitsValue ds, ds.length) := by
  have small : 0 * 10 ^ ds.length + digitsValue ds ≤ wordMax := by
    rwa [Nat.zero_mul, Nat.zero_add]
  have all := appendDigits_eq small
  rwa [Nat.zero_mul, Nat.zero_add] at all

/-- The number that all digits write, without the point. -/
def mantissa (l : Literal) : Nat :=
  digitsValue (l.whole ++ l.fraction.getD [])

/-- The power of ten by which the point and the exponent scale it. -/
def scale (l : Literal) : Int :=
  l.exponent.getD 0 - (l.fraction.getD []).length

theorem value?_eq_real? {l : Literal} (fits : l.mantissa ≤ wordMax)
    (real : l.fraction ≠ none ∨ l.exponent ≠ none) :
    l.value? = real? l.negative l.mantissa l.scale := by
  have all := fits
  rw [mantissa, digitsValue_append] at all
  have front : digitsValue l.whole ≤ wordMax := by
    refine le_trans ?_ all
    exact (Nat.le_mul_of_pos_right _ (Nat.pow_pos (by decide))).trans (Nat.le_add_right ..)
  have whole := appendDigits_zero front
  have digits := appendDigits_eq all
  rw [← digitsValue_append] at digits
  have exponent : (l.whole.length : Int) - l.whole.length - (l.fraction.getD []).length +
      l.exponent.getD 0 = l.scale := by
    unfold scale
    omega
  unfold value?
  simp only [whole]
  split
  · rename_i none none'
    exact absurd (real.resolve_left (· none)) (· none')
  · simp only [digits, exponent]
    rfl

/-! ### Texts -/

/-- A literal of which the reader takes each part for what it is. -/
structure WellFormed (l : Literal) : Prop where
  digits : ∀ c ∈ l.whole, c.isDigit = true
  ne_nil : l.whole ≠ []
  head : l.whole.head? = some '0' → l.whole = ['0']
  places : ∀ ds ∈ l.fraction, ds ≠ [] ∧ ∀ c ∈ ds, c.isDigit = true

def fractionText (l : Literal) : List Char :=
  match l.fraction with
  | none => []
  | some ds => '.' :: ds

def exponentText (l : Literal) : List Char :=
  match l.exponent with
  | none => []
  | some e => 'e' :: RealFormat.exponentText true e

/-- The literal without its sign. -/
def unsignedText (l : Literal) : List Char :=
  l.whole ++ (l.fractionText ++ l.exponentText)

def text (l : Literal) : List Char :=
  (if l.negative then ['-'] else []) ++ l.unsignedText

end Literal

open Binary64 RealFormat

/-! ### Literals of digits -/

/-- The literal that JSON writes for digits with a point. -/
def digitsLiteral (negative : Bool) (d : Digits) : Literal :=
  if jsonReal.lowest < d.point ∧ d.point ≤ jsonReal.beyond then
    ⟨negative, wholePart d, some (fractionPart d), none⟩
  else
    ⟨negative, d.digits.take 1, if d.digits.length ≤ 1 then none else some (d.digits.drop 1),
      some (d.point - 1)⟩

section Digits

variable (negative : Bool) {d : Digits}

theorem text_digitsLiteral :
    (digitsLiteral negative d).text =
      (if negative then ['-'] else []) ++ digitsText jsonReal d := by
  unfold digitsLiteral digitsText
  split
  · rw [positional_eq]
    simp [Literal.text, Literal.unsignedText, Literal.fractionText, Literal.exponentText]
  · rw [scientific_eq, mantissa]
    split <;> simp [Literal.text, Literal.unsignedText, Literal.fractionText, Literal.exponentText,
      jsonReal]

theorem wellFormed_digitsLiteral (h : IsTrimmed d.digits) :
    (digitsLiteral negative d).WellFormed := by
  unfold digitsLiteral
  split
  · refine ⟨fun c hc => isDigit_of_mem_parts h (List.mem_append_left _ hc), wholePart_ne_nil h,
      fun zero => if_pos ((head?_wholePart h).1 zero), fun ds hds => ?_⟩
    obtain rfl := Option.some.inj hds
    exact ⟨fractionPart_ne_nil h, fun c hc => isDigit_of_mem_parts h (List.mem_append_right _ hc)⟩
  · obtain ⟨c, cs, digits, first⟩ := exists_first h
    refine ⟨fun c hc => h.digit c ((List.take_sublist _ _).mem hc), ?_, fun zero => ?_,
      fun ds hds => ?_⟩
    · simp [digits]
    · simp [digits, first] at zero
    · dsimp only at hds
      split at hds
      · cases hds
      · rename_i long
        obtain rfl := Option.some.inj hds
        refine ⟨?_, fun c hc => h.digit c ((List.drop_sublist _ _).mem hc)⟩
        rw [Ne, List.drop_eq_nil_iff]
        omega

theorem negative_digitsLiteral (d : Digits) : (digitsLiteral negative d).negative = negative := by
  unfold digitsLiteral
  split <;> rfl

theorem isReal_digitsLiteral (d : Digits) :
    (digitsLiteral negative d).fraction ≠ none ∨ (digitsLiteral negative d).exponent ≠ none := by
  unfold digitsLiteral
  split
  · exact .inl (Option.some_ne_none _)
  · exact .inr (Option.some_ne_none _)

theorem mantissa_digitsLiteral (h : IsTrimmed d.digits) :
    ∃ zeros : Nat, (digitsLiteral negative d).mantissa = digitsValue d.digits * 10 ^ zeros ∧
      (digitsLiteral negative d).scale = d.point - d.digits.length - zeros ∧
        (zeros = 0 ∨ (d.digits.length : Int) + zeros ≤ jsonReal.beyond + 1) := by
  unfold digitsLiteral
  split
  · rename_i range
    obtain ⟨a, b, text, point, few⟩ := exists_zeros_around d
    refine ⟨b, ?_, ?_, few.imp_right fun few => by omega⟩
    · have zero := digitsValue_replicate_zero
      simp only [Literal.mantissa, Option.getD_some, text]
      rw [digitsValue_append, digitsValue_append, zero, zero, List.length_replicate]
      ring
    · simp only [Literal.scale, Option.getD_none, Option.getD_some]
      omega
  · have some := List.length_pos_iff.2 h.ne_nil
    refine ⟨0, ?_, ?_, .inl rfl⟩
    · have digits : d.digits.take 1 ++
          (if d.digits.length ≤ 1 then none else Option.some (d.digits.drop 1)).getD [] =
            d.digits := by
        split
        · rename_i short
          rw [Option.getD_none, List.append_nil, List.take_of_length_le short]
        · rw [Option.getD_some, List.take_append_drop]
      simp only [Literal.mantissa, digits, Nat.pow_zero, Nat.mul_one]
    · simp only [Literal.scale, Option.getD_some]
      split
      · rw [Option.getD_none, List.length_nil]
        omega
      · rw [Option.getD_some, List.length_drop]
        omega

/-- The literal stands for the decimal of the digits. -/
theorem ratio_digitsLiteral (h : IsTrimmed d.digits) :
    ((digitsLiteral negative d).mantissa : ℚ) * 10 ^ (digitsLiteral negative d).scale =
      ratio d := by
  obtain ⟨zeros, mantissa, scale, -⟩ := mantissa_digitsLiteral negative h
  rw [mantissa, scale, ratio, zpow_sub₀ (by norm_num) _ (zeros : Int), zpow_natCast]
  push_cast
  field_simp

theorem mantissa_digitsLiteral_pos (h : IsTrimmed d.digits) (pos : 0 < digitsValue d.digits) :
    0 < (digitsLiteral negative d).mantissa := by
  obtain ⟨zeros, mantissa, -⟩ := mantissa_digitsLiteral negative h
  rw [mantissa]
  exact Nat.mul_pos pos (Nat.pow_pos (by decide))

theorem mantissa_digitsLiteral_le (h : IsTrimmed d.digits)
    (few : digitsValue d.digits ≤ 10 ^ (17 : Nat)) :
    (digitsLiteral negative d).mantissa ≤ 10 ^ (17 : Nat) := by
  obtain ⟨zeros, mantissa, -, rfl | places⟩ := mantissa_digitsLiteral negative h
  · rwa [mantissa, Nat.pow_zero, Nat.mul_one]
  · have bound : d.digits.length + zeros ≤ 17 := by
      change (d.digits.length : Int) + zeros ≤ 16 + 1 at places
      omega
    calc (digitsLiteral negative d).mantissa = digitsValue d.digits * 10 ^ zeros := mantissa
      _ ≤ 10 ^ d.digits.length * 10 ^ zeros := Nat.mul_le_mul_right _ (digitsValue_lt h.digit).le
      _ = 10 ^ (d.digits.length + zeros) := (Nat.pow_add ..).symm
      _ ≤ 10 ^ (17 : Nat) := Nat.pow_le_pow_right (by decide) bound

end Digits

/-! ### Literals of doubles -/

/-- The literal that JSON writes for a double. -/
def realLiteral (x : Binary64) : Literal :=
  if x.magnitude = 0 then ⟨x.negative, ['0'], some ['0'], none⟩
  else digitsLiteral x.negative (shortest jsonReal.tie x.magnitude)

theorem text_realLiteral (x : Binary64) : (realLiteral x).text = jsonReal.write x := by
  rw [write_eq, realLiteral, magnitudeText]
  split
  · rfl
  · exact text_digitsLiteral _

theorem wellFormed_realLiteral (x : Binary64) : (realLiteral x).WellFormed := by
  unfold realLiteral
  split
  · have zero : ∀ c ∈ ['0'], c.isDigit = true := fun c hc => by
      rw [List.mem_singleton.1 hc]
      rfl
    refine ⟨zero, List.cons_ne_nil _ _, fun _ => rfl, fun ds hds => ?_⟩
    obtain rfl := Option.some.inj hds
    exact ⟨List.cons_ne_nil _ _, zero⟩
  · rename_i some
    exact wellFormed_digitsLiteral _ (isTrimmed_shortest _ (Nat.pos_of_ne_zero some))

/-- The digits of a literal are those of a double, and so is the power of ten that scales them. -/
def Literal.IsShort (l : Literal) : Prop :=
  l.mantissa < 2 ^ (53 : Nat) ∧ l.scale.natAbs ≤ 22

instance (l : Literal) : Decidable l.IsShort :=
  inferInstanceAs (Decidable (_ ∧ _))

theorem real?_eq {negative : Bool} {n m : Nat} {e : Int}
    (scaled : scaleByTen (magnitudeOfNat n) e = some m) (finite : m < magnitudeBound) :
    Literal.real? negative n e = some (.real ⟨negative, m, finite⟩) := by
  rw [Literal.real?, scaled]
  exact dif_pos finite

theorem value?_realLiteral_zero {x : Binary64} (zero : x.magnitude = 0) :
    (realLiteral x).value? = some (.real x) := by
  have literal : realLiteral x = ⟨x.negative, ['0'], some ['0'], none⟩ := if_pos zero
  obtain ⟨m, le, scaled⟩ := exists_scaleByTen_of_nonpos (m := magnitudeOfNat 0) (by decide)
    (e := -1) (by decide)
  obtain rfl : m = 0 := Nat.le_zero.1 le
  rw [literal, Literal.value?_eq_real? (Nat.zero_le _) (.inl (Option.some_ne_none _))]
  refine (real?_eq scaled (by decide)).trans ?_
  obtain ⟨negative, magnitude, finite⟩ := x
  obtain rfl : magnitude = 0 := zero
  rfl

/-- What is written for a double stands for a double, and for itself if it is short. -/
theorem exists_value?_realLiteral (x : Binary64) :
    ∃ y, (realLiteral x).value? = some (.real y) ∧ ((realLiteral x).IsShort → y = x) := by
  by_cases zero : x.magnitude = 0
  · exact ⟨x, value?_realLiteral_zero zero, fun _ => rfl⟩
  have some := Nat.pos_of_ne_zero zero
  obtain ⟨trimmed, ⟨pos, few⟩, n, k, rounds, same⟩ := shortest_spec jsonReal.tie some
  have sign := negative_digitsLiteral x.negative (shortest jsonReal.tie x.magnitude)
  have isReal := isReal_digitsLiteral x.negative (shortest jsonReal.tie x.magnitude)
  have positive := mantissa_digitsLiteral_pos x.negative trimmed pos
  have digits := mantissa_digitsLiteral_le x.negative trimmed few
  have decimal := ratio_digitsLiteral x.negative trimmed
  have within := decimal.trans_le (ratio_shortest_le some x.finite)
  rw [realLiteral, if_neg zero]
  generalize digitsLiteral x.negative (shortest jsonReal.tie x.magnitude) = l at *
  obtain ⟨m, finite, scaled⟩ := exists_scaleByTen positive digits within
  refine ⟨⟨x.negative, m, finite⟩, ?_, fun short => ?_⟩
  · rw [Literal.value?_eq_real? (digits.trans (by decide)) isReal, real?_eq scaled finite, sign]
  · have exact := scaleByTen_eq short.1 short.2 x.finite some positive rounds (decimal.trans same)
    obtain rfl := Option.some.inj (scaled.symm.trans exact)
    rfl

example : (realLiteral ⟨false, magnitudeOfNat 5, by decide⟩).IsShort := by decide +kernel
example : (realLiteral ⟨true, nearestMagnitude 1 10, by decide⟩).IsShort := by decide +kernel

end OpenApiModels.Number
