import OpenApiModels.Proofs.Number.Rounding
import OpenApiModels.Proofs.Number.Shortest

/-!
# The double nearest to a fraction

A fraction is rounded to the double in whose interval it lies (`nearestMagnitude_eq_iff`), so that
decimals which round to a double are nearest to it, and each double is nearest to itself.
-/

namespace OpenApiModels.Number.Binary64

-- Powers are those of the core library, whatever else is imported.
attribute [local instance (high)] instPowNat

/-! ### Bounds of rounded fractions -/

theorem divToNearest_le_iff (num : Nat) {den : Nat} (hden : 0 < den) (n : Nat) :
    divToNearest num den ≤ n ↔
      2 * num < (2 * n + 1) * den ∨ 2 * num = (2 * n + 1) * den ∧ n % 2 = 0 := by
  have parts := Nat.div_add_mod num den
  have remainder := Nat.mod_lt num hden
  have bound : (2 * n + 1) * den = 2 * (den * n) + den := by ring
  rw [bound]
  rcases Nat.lt_trichotomy (num / den) n with below | same | above
  · have least : divToNearest num den ≤ n := (divToNearest_le num den).trans below
    have products := Nat.mul_le_mul_left den below
    rw [Nat.succ_eq_add_one, Nat.mul_add, Nat.mul_one] at products
    exact iff_of_true least (.inl (by omega))
  · unfold divToNearest
    dsimp only
    subst same
    repeat' split
    all_goals omega
  · have greater : n < divToNearest num den := Nat.lt_of_lt_of_le above (le_divToNearest num den)
    have products := Nat.mul_le_mul_left den above
    rw [Nat.succ_eq_add_one, Nat.mul_add, Nat.mul_one] at products
    exact iff_of_false (Nat.not_le.2 greater) (by omega)

theorem scaled_lt_iff (num : Nat) {den : Nat} (hden : 0 < den) (e : Int) (n : Nat) :
    num * 2 ^ (-e).toNat < n * (den * 2 ^ e.toNat) ↔ (num : ℚ) / den < n * 2 ^ e := by
  rw [← not_le, ← not_le, scaled_le_iff num hden]

theorem scaled_eq_iff (num : Nat) {den : Nat} (hden : 0 < den) (e : Int) (n : Nat) :
    num * 2 ^ (-e).toNat = n * (den * 2 ^ e.toNat) ↔ (num : ℚ) / den = n * 2 ^ e := by
  have positive : (0 : ℚ) < 2 ^ (-e).toNat := by positivity
  have same : (n : ℚ) * (den * (2 ^ e * 2 ^ (-e).toNat)) = n * 2 ^ e * den * 2 ^ (-e).toNat := by
    ring
  rw [← Nat.cast_inj (R := ℚ), div_eq_iff (by exact_mod_cast hden.ne')]
  push_cast
  rw [pow_toNat two_ne_zero e, same]
  exact mul_left_inj' positive.ne'

/-- The upper end of the interval of a double, doubled, in units of its last place. -/
theorem two_mul_upper (m : Nat) :
    2 * upper m = ((2 * significand m + 1 : Nat) : ℚ) * 2 ^ exponent m := by
  rw [upper, quarter, zpow_sub₀ two_ne_zero]
  push_cast
  ring

/-- A magnitude as its exponent and its significand. -/
theorem magnitude_eq (m : Nat) :
    m = (exponent m + 1074).toNat * 2 ^ (52 : Nat) + significand m := by
  unfold exponent significand
  split <;> omega

theorem least_le_exponent (m : Nat) : -1074 ≤ exponent m := by
  unfold exponent
  split <;> omega

theorem le_significand {m : Nat} (normal : -1074 < exponent m) :
    2 ^ (52 : Nat) ≤ significand m := by
  unfold exponent at normal
  unfold significand
  split at normal <;> split <;> omega

/-- A fraction is rounded to a double or one below it if it is less than the upper end of its
interval, which belongs to even doubles. -/
theorem nearestMagnitude_le_iff {num den : Nat} (hnum : 0 < num) (hden : 0 < den) (m : Nat) :
    nearestMagnitude num den ≤ m ↔
      (num / den : ℚ) < upper m ∨ (num / den : ℚ) = upper m ∧ m % 2 = 0 := by
  have parts := magnitude_eq m
  have least := least_le_exponent m
  have small := significand_lt m
  have units : -1074 ≤ unitExponent num den := le_max_left _ _
  have unit : (0 : ℚ) < 2 ^ exponent m := by positivity
  have ends := two_mul_upper m
  push_cast at ends
  obtain ⟨above, below⟩ := floorLog2_spec hnum hden
  rw [nearestMagnitude_eq hnum]
  rcases lt_trichotomy (unitExponent num den) (exponent m) with less | same | greater
  · -- the fraction lies below the binade of the double
    have rounded := scaled_le hnum hden
    have large := le_significand (units.trans_lt less)
    have binades : (unitExponent num den + 1074).toNat + 1 ≤ (exponent m + 1074).toNat := by omega
    have scaled := Nat.mul_le_mul_right (2 ^ (52 : Nat)) binades
    have bound : (num / den : ℚ) < 2 ^ (52 : Int) * 2 ^ exponent m := by
      rw [← zpow_add₀ two_ne_zero]
      refine below.trans_le (zpow_le_zpow_right₀ one_le_two ?_)
      unfold unitExponent at less
      omega
    have start : (2 : ℚ) ^ (52 : Int) ≤ significand m := by exact_mod_cast large
    have product := mul_le_mul_of_nonneg_right start unit.le
    exact iff_of_true (by omega) (.inl (by linarith))
  · -- they share the unit of their last places
    have scaledDen : 0 < den * 2 ^ (exponent m).toNat := Nat.mul_pos hden (Nat.two_pow_pos _)
    have lt := scaled_lt_iff (2 * num) hden (exponent m) (2 * significand m + 1)
    have eq := scaled_eq_iff (2 * num) hden (exponent m) (2 * significand m + 1)
    have half : ((2 * num : Nat) : ℚ) / den = 2 * (num / den) := by
      push_cast
      ring
    rw [half, ← two_mul_upper, mul_lt_mul_iff_right₀ two_pos, Nat.mul_assoc] at lt
    rw [half, ← two_mul_upper, mul_right_inj' two_ne_zero, Nat.mul_assoc] at eq
    have rounded := divToNearest_le_iff (num * 2 ^ (-exponent m).toNat) scaledDen (significand m)
    rw [same]
    have cancelled : (exponent m + 1074).toNat * 2 ^ (52 : Nat) +
        divToNearest (num * 2 ^ (-exponent m).toNat) (den * 2 ^ (exponent m).toNat) ≤ m ↔
        divToNearest (num * 2 ^ (-exponent m).toNat) (den * 2 ^ (exponent m).toNat) ≤
          significand m := by omega
    rw [cancelled, rounded, lt, eq, significand_mod_two]
  · -- the fraction lies above the binade of the double
    have reached := le_scaled hnum hden (least.trans_lt greater)
    have binades : (exponent m + 1074).toNat + 1 ≤ (unitExponent num den + 1074).toNat := by omega
    have scaled := Nat.mul_le_mul_right (2 ^ (52 : Nat)) binades
    have bound : (2 : ℚ) ^ (53 : Int) * 2 ^ exponent m ≤ num / den := by
      rw [← zpow_add₀ two_ne_zero]
      refine le_trans (zpow_le_zpow_right₀ one_le_two ?_) above
      unfold unitExponent at greater
      omega
    have top : (significand m : ℚ) + 1 ≤ 2 ^ (53 : Int) := by exact_mod_cast small
    have product := mul_le_mul_of_nonneg_right top unit.le
    refine iff_of_false (by omega) ?_
    rintro (low | ⟨touching, -⟩) <;> linarith

/-- A fraction is rounded to the double in whose interval it lies; even doubles own its ends. -/
theorem nearestMagnitude_eq_iff {num den : Nat} (hnum : 0 < num) (hden : 0 < den) {m : Nat}
    (hm : 0 < m) :
    nearestMagnitude num den = m ↔
      if m % 2 = 0 then lower m ≤ num / den ∧ (num / den : ℚ) ≤ upper m
      else lower m < num / den ∧ (num / den : ℚ) < upper m := by
  obtain ⟨before, rfl⟩ : ∃ before, m = before + 1 := ⟨m - 1, by omega⟩
  have split : nearestMagnitude num den = before + 1 ↔
      nearestMagnitude num den ≤ before + 1 ∧ ¬ nearestMagnitude num den ≤ before := by omega
  rw [split, nearestMagnitude_le_iff hnum hden, nearestMagnitude_le_iff hnum hden,
    upper_eq_lower before]
  have parity : before % 2 = 0 ↔ ¬ (before + 1) % 2 = 0 := by omega
  rw [parity]
  by_cases even : (before + 1) % 2 = 0
  · simp only [even, and_true, not_true, and_false, or_false, not_lt, if_true]
    rw [← le_iff_lt_or_eq, and_comm]
  · simp only [even, and_false, or_false, not_false_eq_true, and_true, if_false, not_or, not_lt]
    rw [and_comm, and_congr_left_iff]
    exact fun _ => ⟨fun h => lt_of_le_of_ne h.1 (Ne.symm h.2), fun h => ⟨h.le, h.ne'⟩⟩

theorem nearestMagnitude_of_roundsTo {num den m n : Nat} {k : Int} (hnum : 0 < num)
    (hden : 0 < den) (hm : 0 < m) (h : roundsTo m n k = true)
    (same : (num / den : ℚ) = n * 10 ^ k) : nearestMagnitude num den = m := by
  rw [roundsTo_iff, ← same] at h
  exact (nearestMagnitude_eq_iff hnum hden hm).2 h

theorem numerator_pos {m : Nat} (h : 0 < m) : 0 < numerator m :=
  Nat.mul_pos (significand_pos h) (Nat.two_pow_pos _)

theorem denominator_pos (m : Nat) : 0 < denominator m :=
  Nat.two_pow_pos _

theorem nearestMagnitude_self (m : Nat) :
    nearestMagnitude (numerator m) (denominator m) = m := by
  rcases m.eq_zero_or_pos with rfl | hm
  · rfl
  rw [nearestMagnitude_eq_iff (numerator_pos hm) (denominator_pos m) hm, ← value_eq]
  obtain ⟨above, below⟩ := value_mem hm
  split
  · exact ⟨above.le, below.le⟩
  · exact ⟨above, below⟩

theorem nearestMagnitude_congr {a b c d : Nat} (hb : 0 < b) (hd : 0 < d)
    (h : (a / b : ℚ) = c / d) : nearestMagnitude a b = nearestMagnitude c d := by
  rw [div_eq_div_iff (by exact_mod_cast hb.ne') (by exact_mod_cast hd.ne')] at h
  have h : a * d = c * b := by exact_mod_cast h
  exact le_antisymm (nearestMagnitude_mono hb hd h.le) (nearestMagnitude_mono hd hb h.ge)

theorem nearestMagnitude_of_value {num den m : Nat} (hden : 0 < den)
    (h : (num / den : ℚ) = value m) : nearestMagnitude num den = m := by
  rw [value_eq] at h
  rw [nearestMagnitude_congr hden (denominator_pos m) h, nearestMagnitude_self]

end OpenApiModels.Number.Binary64
