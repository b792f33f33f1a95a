import Mathlib.Tactic.Ring
import OpenApiModels.Number.Literal

/-!
# Values of decimal digits

The value of joined digits, bounds by the number of digits, and the digits of a number, which
start with zero only if it is zero (`toDigits_head`).
-/

namespace OpenApiModels.Number

-- Powers are those of the core library, whatever else is imported.
attribute [local instance (high)] instPowNat

theorem foldl_digits (n : Nat) (ds : List Char) :
    ds.foldl (fun n d => n * 10 + digitValue d) n = n * 10 ^ ds.length + digitsValue ds := by
  induction ds generalizing n with
  | nil => simp [digitsValue]
  | cons d ds ih =>
    rw [digitsValue, List.foldl_cons, List.foldl_cons, ih, ih (0 * 10 + digitValue d),
      List.length_cons, Nat.pow_succ]
    ring

theorem digitsValue_append (a b : List Char) :
    digitsValue (a ++ b) = digitsValue a * 10 ^ b.length + digitsValue b := by
  rw [digitsValue, List.foldl_append, foldl_digits]
  rfl

theorem digitsValue_lt {ds : List Char} (h : ∀ d ∈ ds, d.isDigit = true) :
    digitsValue ds < 10 ^ ds.length := by
  induction ds with
  | nil => decide
  | cons d ds ih =>
    obtain ⟨digit, digits⟩ := List.forall_mem_cons.1 h
    have value : digitValue d ≤ 9 := by
      have upper : d.toNat ≤ 57 := by
        simp only [Char.isDigit, Bool.and_eq_true, decide_eq_true_eq] at digit
        exact digit.2
      unfold digitValue
      exact Nat.sub_le_sub_right upper 48
    have first : digitsValue [d] = digitValue d := by simp [digitsValue]
    have rest := ih digits
    have scaled := Nat.mul_le_mul_right (10 ^ ds.length) value
    rw [← List.singleton_append, digitsValue_append, first, List.length_append,
      List.length_singleton, Nat.pow_add, Nat.pow_one]
    omega

/-- The first digit of a number, in the unit of that digit. -/
theorem digitsValue_take_one {ds : List Char} (h : ∀ d ∈ ds, d.isDigit = true) :
    digitsValue (ds.take 1) * 10 ^ ds.length ≤ 10 * digitsValue ds ∧
      10 * digitsValue ds < (digitsValue (ds.take 1) + 1) * 10 ^ ds.length := by
  cases ds with
  | nil => decide
  | cons d ds =>
    have rest := digitsValue_lt (List.forall_mem_cons.1 h).2
    have whole := digitsValue_append [d] ds
    rw [List.singleton_append] at whole
    rw [List.take_succ_cons, List.take_zero, whole, List.length_cons, Nat.pow_succ]
    constructor
    · calc digitsValue [d] * (10 ^ ds.length * 10)
          = 10 * (digitsValue [d] * 10 ^ ds.length) := by ring
        _ ≤ 10 * (digitsValue [d] * 10 ^ ds.length + digitsValue ds) := by omega
    · calc 10 * (digitsValue [d] * 10 ^ ds.length + digitsValue ds)
          < 10 * (digitsValue [d] * 10 ^ ds.length + 10 ^ ds.length) := by omega
        _ = (digitsValue [d] + 1) * (10 ^ ds.length * 10) := by ring

/-! ### The digits of a number -/

theorem digitsValue_toDigits (n : Nat) : digitsValue (Nat.toDigits 10 n) = n := by
  have same : digitsValue (Nat.toDigits 10 n) = Nat.ofDigitChars 10 (Nat.toDigits 10 n) 0 := by
    simp only [digitsValue, Nat.ofDigitChars, digitValue, Nat.mul_comm 10]
  rw [same, Nat.ofDigitChars_toDigits (by decide) (by decide)]

theorem digitsValue_replicate_zero (n : Nat) : digitsValue (List.replicate n '0') = 0 := by
  induction n with
  | zero => rfl
  | succ n ih =>
    have zero : digitsValue ['0'] = 0 := rfl
    rw [List.replicate_succ, ← List.singleton_append, digitsValue_append, ih, zero, Nat.zero_mul]

theorem isDigit_of_mem_toDigits {n : Nat} {c : Char} (h : c ∈ Nat.toDigits 10 n) :
    c.isDigit = true :=
  Nat.isDigit_of_mem_toDigits (by decide) (by decide) h

theorem toDigits_injective {m n : Nat} (h : Nat.toDigits 10 m = Nat.toDigits 10 n) : m = n := by
  rw [← digitsValue_toDigits m, h, digitsValue_toDigits]

/-- Digits start with zero only where they are those of zero. -/
theorem toDigits_head {n : Nat} (h : n ≠ 0) : ∃ d ds, Nat.toDigits 10 n = d :: ds ∧ d ≠ '0' := by
  induction n using Nat.strongRecOn with
  | _ n ih =>
    by_cases small : n < 10
    · have first : ∀ n < 10, n ≠ 0 → n.digitChar ≠ '0' := by decide
      exact ⟨_, [], Nat.toDigits_of_lt_base small, first n small h⟩
    · obtain ⟨d, ds, digits, first⟩ := ih (n / 10) (by omega) (by omega)
      refine ⟨d, ds ++ [(n % 10).digitChar], ?_, first⟩
      rw [Nat.toDigits_of_base_le (by decide) (by omega), digits, List.cons_append]

end OpenApiModels.Number
