import OpenApiModels.Proofs.Json.Literals

/-!
# Integers are read back

An integer that fits 64 bits is read back from its text (`rereads_integer`): its digits start with
zero only if it is zero, and none of them is dropped.
-/

namespace OpenApiModels.Json

open Number

/-- The literal that is written for an integer. -/
def integerLiteral (n : Int) : Literal :=
  ⟨decide (n < 0), Nat.toDigits 10 n.natAbs, none, none⟩

theorem text_integerLiteral (n : Int) : (integerLiteral n).text = numberText (.integer n) := by
  simp [integerLiteral, Literal.text, Literal.unsignedText, Literal.fractionText,
    Literal.exponentText, numberText, integerText]

theorem wellFormed_integerLiteral (n : Int) : (integerLiteral n).WellFormed where
  digits _ := isDigit_of_mem_toDigits
  ne_nil := Nat.toDigits_ne_nil
  head zero := by
    by_cases isZero : n.natAbs = 0
    · rw [integerLiteral, isZero]
      rfl
    · obtain ⟨d, ds, digits, first⟩ := toDigits_head isZero
      rw [integerLiteral, digits] at zero
      exact absurd (Option.some.inj zero) first
  places _ none := nomatch none

theorem value?_integerLiteral {n : Int} (fits : -0x8000000000000000 ≤ n ∧ n ≤ wordMax) :
    (integerLiteral n).value? = some (.integer n) := by
  have word : wordMax = 2 ^ 64 - 1 := rfl
  have value := digitsValue_toDigits n.natAbs
  have small : digitsValue (Nat.toDigits 10 n.natAbs) ≤ wordMax := by omega
  have digits := Literal.appendDigits_zero small
  rw [value] at digits
  simp only [integerLiteral, Literal.value?, digits, Int.sub_self, Int.lt_irrefl, if_false]
  by_cases negative : n < 0
  · have range : 0 < n.natAbs ∧ n.natAbs ≤ 2 ^ (63 : Nat) := by omega
    have sign : -(n.natAbs : Int) = n := by omega
    rw [if_neg (by simpa using negative), if_pos range, sign]
  · have sign : (n.natAbs : Int) = n := by omega
    rw [if_pos (by simpa using negative), sign]

theorem rereads_integer {n : Int} (fits : -0x8000000000000000 ≤ n ∧ n ≤ wordMax) :
    Rereads (.integer n) := by
  have wellFormed := wellFormed_integerLiteral n
  refine ⟨?_, fun rest ends => ?_⟩
  · rw [← text_integerLiteral]
    exact startsNumber_text wellFormed
  · rw [← text_integerLiteral]
    exact readNumber_text wellFormed (value?_integerLiteral fits) ends

end OpenApiModels.Json
