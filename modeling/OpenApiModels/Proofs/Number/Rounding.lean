import Mathlib.Algebra.Order.Field.Power
import Mathlib.Algebra.Order.Field.Rat
import Mathlib.Tactic.Ring
import OpenApiModels.Number.Binary64

/-!
# Rounding keeps the order

The double nearest to a smaller fraction is no greater (`nearestMagnitude_mono`).
-/

namespace OpenApiModels.Number.Binary64

-- Powers are those of the core library, whatever else is imported.
attribute [local instance (high)] instPowNat

/-! ### Quotients -/

theorem le_divToNearest (num den : Nat) : num / den ≤ divToNearest num den := by
  unfold divToNearest
  dsimp only
  repeat' split
  all_goals omega

theorem divToNearest_le (num den : Nat) : divToNearest num den ≤ num / den + 1 := by
  unfold divToNearest
  dsimp only
  repeat' split
  all_goals omega

theorem divToNearest_mono {a b c d : Nat} (hb : 0 < b) (hd : 0 < d) (h : a * d ≤ c * b) :
    divToNearest a b ≤ divToNearest c d := by
  have quotients : a / b ≤ c / d := by
    rw [Nat.le_div_iff_mul_le hd]
    have floor := Nat.mul_le_mul_right d (Nat.div_mul_le_self a b)
    refine Nat.le_of_mul_le_mul_right ?_ hb
    calc a / b * d * b = a / b * b * d := Nat.mul_right_comm ..
      _ ≤ c * b := floor.trans h
  rcases quotients.lt_or_eq with below | same
  · exact (divToNearest_le a b).trans (Nat.le_trans below (le_divToNearest c d))
  · -- the integer parts agree, so the remainders decide
    have remainders : a % b * d ≤ c % d * b := by
      have left := Nat.div_add_mod a b
      have right := Nat.div_add_mod c d
      rw [← same] at right
      rw [← left, ← right, Nat.add_mul, Nat.add_mul] at h
      have whole : b * (a / b) * d = d * (a / b) * b := by
        rw [Nat.mul_right_comm, Nat.mul_comm b d, Nat.mul_right_comm]
      omega
    have half : b ≤ 2 * (a % b) → d ≤ 2 * (c % d) := fun up => by
      refine Nat.le_of_mul_le_mul_right ?_ hb
      have := Nat.mul_le_mul_right d up
      rw [Nat.mul_assoc] at this ⊢
      rw [Nat.mul_comm d b]
      omega
    have more : b < 2 * (a % b) → d < 2 * (c % d) := fun up => by
      refine Nat.lt_of_mul_lt_mul_right (a := b) ?_
      have := Nat.mul_lt_mul_of_pos_right up hd
      rw [Nat.mul_assoc] at this ⊢
      rw [Nat.mul_comm d b]
      omega
    unfold divToNearest
    dsimp only
    rw [← same]
    repeat' split
    all_goals omega

/-! ### Exponents -/

/-- The fraction in units of `2 ^ e`, against an integer. -/
theorem scaled_le_iff (num : Nat) {den : Nat} (hden : 0 < den) (e : Int) (n : Nat) :
    n * (den * 2 ^ e.toNat) ≤ num * 2 ^ (-e).toNat ↔ (n : ℚ) * 2 ^ e ≤ num / den := by
  have powers : ((2 ^ e.toNat : Nat) : ℚ) = 2 ^ e * ((2 ^ (-e).toNat : Nat) : ℚ) := by
    obtain ⟨k, rfl | rfl⟩ := e.eq_nat_or_neg <;> simp
  have positive : (0 : ℚ) < ((2 ^ (-e).toNat : Nat) : ℚ) := by
    exact_mod_cast Nat.two_pow_pos _
  rw [← Nat.cast_le (α := ℚ), Nat.cast_mul, Nat.cast_mul, Nat.cast_mul, powers,
    le_div_iff₀ (by exact_mod_cast hden),
    ← mul_le_mul_iff_left₀ (b := (n : ℚ) * 2 ^ e * den) positive]
  have same : (n : ℚ) * (den * (2 ^ e * ((2 ^ (-e).toNat : Nat) : ℚ))) =
      n * 2 ^ e * den * ((2 ^ (-e).toNat : Nat) : ℚ) := by ring
  rw [same]

theorem floorLog2_spec {num den : Nat} (hnum : 0 < num) (hden : 0 < den) :
    (2 : ℚ) ^ floorLog2 num den ≤ num / den ∧ (num / den : ℚ) < 2 ^ (floorLog2 num den + 1) := by
  have numBelow : ((2 : ℚ) ^ (num.log2 : Int)) ≤ num := by
    exact_mod_cast Nat.log2_self_le hnum.ne'
  have numAbove : (num : ℚ) < 2 ^ ((num.log2 : Int) + 1) := by
    exact_mod_cast Nat.lt_log2_self (n := num)
  have denBelow : ((2 : ℚ) ^ (den.log2 : Int)) ≤ den := by
    exact_mod_cast Nat.log2_self_le hden.ne'
  have denAbove : (den : ℚ) < 2 ^ ((den.log2 : Int) + 1) := by
    exact_mod_cast Nat.lt_log2_self (n := den)
  have positive : (0 : ℚ) < den := by exact_mod_cast hden
  have above : (num / den : ℚ) < 2 ^ ((num.log2 : Int) - den.log2 + 1) := by
    rw [div_lt_iff₀ positive]
    calc (num : ℚ) < 2 ^ ((num.log2 : Int) + 1) := numAbove
      _ = 2 ^ ((num.log2 : Int) - den.log2 + 1) * 2 ^ (den.log2 : Int) := by
        rw [← zpow_add₀ two_ne_zero]
        congr 1
        omega
      _ ≤ 2 ^ ((num.log2 : Int) - den.log2 + 1) * den := by gcongr
  have below : (2 : ℚ) ^ ((num.log2 : Int) - den.log2 - 1) ≤ num / den := by
    rw [le_div_iff₀ positive]
    calc (2 : ℚ) ^ ((num.log2 : Int) - den.log2 - 1) * den
        ≤ 2 ^ ((num.log2 : Int) - den.log2 - 1) * 2 ^ ((den.log2 : Int) + 1) := by gcongr
      _ = 2 ^ (num.log2 : Int) := by
        rw [← zpow_add₀ two_ne_zero]
        congr 1
        omega
      _ ≤ num := numBelow
  unfold floorLog2
  dsimp only
  have iff := scaled_le_iff num hden ((num.log2 : Int) - den.log2) 1
  rw [Nat.one_mul, Nat.cast_one, one_mul] at iff
  split <;> rename_i test
  · exact ⟨iff.1 test, above⟩
  · refine ⟨below, ?_⟩
    rw [Int.sub_add_cancel]
    exact not_le.1 fun le => test (iff.2 le)

/-- The exponent of the last bit of the double nearest to a fraction. -/
def unitExponent (num den : Nat) : Int :=
  max (-1074) (floorLog2 num den - 52)

theorem nearestMagnitude_eq {num den : Nat} (hnum : 0 < num) :
    nearestMagnitude num den = (unitExponent num den + 1074).toNat * 2 ^ (52 : Nat) +
      divToNearest (num * 2 ^ (-unitExponent num den).toNat)
        (den * 2 ^ (unitExponent num den).toNat) := by
  rw [nearestMagnitude, if_neg hnum.ne']
  rfl

/-- A rounded fraction has at most 53 bits. -/
theorem scaled_le {num den : Nat} (hnum : 0 < num) (hden : 0 < den) :
    divToNearest (num * 2 ^ (-unitExponent num den).toNat)
      (den * 2 ^ (unitExponent num den).toNat) ≤ 2 ^ (53 : Nat) := by
  refine (divToNearest_le _ _).trans (Nat.div_lt_of_lt_mul ?_)
  refine not_le.1 fun le => ?_
  rw [Nat.mul_comm (den * _)] at le
  have reached := (scaled_le_iff _ hden _ _).1 le
  have below := (floorLog2_spec hnum hden).2
  have exponent : floorLog2 num den + 1 ≤ 53 + unitExponent num den := by
    unfold unitExponent
    omega
  have grows : (2 : ℚ) ^ (floorLog2 num den + 1) ≤ 2 ^ (53 + unitExponent num den) :=
    zpow_le_zpow_right₀ one_le_two exponent
  rw [zpow_add₀ two_ne_zero 53] at grows
  have cast : (((2 : Nat) ^ (53 : Nat) : Nat) : ℚ) = 2 ^ (53 : Int) := by norm_num
  rw [cast] at reached
  exact absurd (reached.trans_lt (below.trans_le grows)) (lt_irrefl _)

/-- Above the least exponent it has no fewer. -/
theorem le_scaled {num den : Nat} (hnum : 0 < num) (hden : 0 < den)
    (normal : -1074 < unitExponent num den) :
    2 ^ (52 : Nat) ≤ divToNearest (num * 2 ^ (-unitExponent num den).toNat)
      (den * 2 ^ (unitExponent num den).toNat) := by
  refine le_trans ?_ (le_divToNearest _ _)
  rw [Nat.le_div_iff_mul_le (Nat.mul_pos hden (Nat.two_pow_pos _)), scaled_le_iff _ hden]
  have above := (floorLog2_spec hnum hden).1
  have exponent : floorLog2 num den = 52 + unitExponent num den := by
    unfold unitExponent at normal ⊢
    omega
  rw [exponent, zpow_add₀ two_ne_zero] at above
  have cast : (((2 : Nat) ^ (52 : Nat) : Nat) : ℚ) = 2 ^ (52 : Int) := by norm_num
  rw [cast]
  exact above

theorem nearestMagnitude_mono {a b c d : Nat} (hb : 0 < b) (hd : 0 < d) (h : a * d ≤ c * b) :
    nearestMagnitude a b ≤ nearestMagnitude c d := by
  rcases a.eq_zero_or_pos with rfl | ha
  · exact Nat.zero_le _
  have hc : 0 < c := Nat.pos_of_mul_pos_right (Nat.lt_of_lt_of_le (Nat.mul_pos ha hd) h)
  have fractions : (a / b : ℚ) ≤ c / d := by
    rw [div_le_div_iff₀ (by exact_mod_cast hb) (by exact_mod_cast hd)]
    exact_mod_cast h
  have logs : floorLog2 a b ≤ floorLog2 c d := by
    have grows := ((floorLog2_spec ha hb).1.trans fractions).trans_lt (floorLog2_spec hc hd).2
    have := (zpow_lt_zpow_iff_right₀ (one_lt_two (α := ℚ))).1 grows
    omega
  have units : unitExponent a b ≤ unitExponent c d := by
    unfold unitExponent
    omega
  have least : -1074 ≤ unitExponent a b := le_max_left _ _
  rw [nearestMagnitude_eq ha, nearestMagnitude_eq hc]
  rcases units.lt_or_eq with below | same
  · have left := scaled_le ha hb
    have right := le_scaled hc hd (lt_of_le_of_lt least below)
    have binades : (unitExponent a b + 1074).toNat + 1 ≤ (unitExponent c d + 1074).toNat := by
      omega
    have := Nat.mul_le_mul_right (2 ^ (52 : Nat)) binades
    omega
  · rw [same]
    refine Nat.add_le_add_left (divToNearest_mono ?_ ?_ ?_) _
    · exact Nat.mul_pos hb (Nat.two_pow_pos _)
    · exact Nat.mul_pos hd (Nat.two_pow_pos _)
    · have := Nat.mul_le_mul_right
        (2 ^ (-unitExponent c d).toNat * 2 ^ (unitExponent c d).toNat) h
      calc _ = a * d * (2 ^ (-unitExponent c d).toNat * 2 ^ (unitExponent c d).toNat) := by ring
        _ ≤ c * b * (2 ^ (-unitExponent c d).toNat * 2 ^ (unitExponent c d).toNat) := this
        _ = _ := by ring

end OpenApiModels.Number.Binary64
