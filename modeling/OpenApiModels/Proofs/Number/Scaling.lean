import OpenApiModels.Number.Literal
import OpenApiModels.Proofs.Number.Nearest

/-!
# Digits scaled by powers of ten

The shortest digits of a finite double are never too big when they are scaled (`exists_scaleByTen`).
If they are few and the power of ten is small, both are doubles, and the result is the double
nearest to the decimal (`scaleByTen_eq`).
-/

namespace OpenApiModels.Number

-- Powers are those of the core library, whatever else is imported.
attribute [local instance (high)] instPowNat

namespace Binary64

/-! ### Values -/

theorem value_strictMono : StrictMono value :=
  strictMono_nat_of_lt_succ fun m => by
    have below : value m < upper m := by
      rw [value_eq_quarters, upper]
      exact mul_lt_mul_of_pos_right (by exact_mod_cast (by omega)) (quarter_pos m)
    calc value m < upper m := below
      _ = lower (m + 1) := upper_eq_lower m
      _ < value (m + 1) := (value_mem (Nat.succ_pos m)).1

theorem mulMagnitude_eq {x y num den : Nat} (hden : 0 < den)
    (h : value x * value y = num / den) : mulMagnitude x y = nearestMagnitude num den := by
  refine nearestMagnitude_congr (Nat.mul_pos (denominator_pos x) (denominator_pos y)) hden ?_
  rw [← h, value_eq, value_eq, div_mul_div_comm]
  push_cast
  rfl

theorem divMagnitude_eq {x y num den : Nat} (hy : 0 < y) (hden : 0 < den)
    (h : value x / value y = num / den) : divMagnitude x y = nearestMagnitude num den := by
  refine nearestMagnitude_congr (Nat.mul_pos (denominator_pos x) (numerator_pos hy)) hden ?_
  rw [← h, value_eq, value_eq, div_div_div_eq]
  push_cast
  rfl

/-! ### Integers that are doubles -/

/-- A number of 53 bits in the unit of some double is the value of one. -/
theorem exists_value {q : Nat} (small : q < 2 ^ (53 : Nat)) (i : Nat) :
    ∃ m, value m = q * 2 ^ ((i : Int) - 1074) := by
  -- A number of fewer bits is doubled until it has all 53 or the unit is the least.
  induction i generalizing q with
  | zero =>
    have sig : significand q = q := by
      unfold significand
      split <;> omega
    have exp : exponent q = -1074 := by
      unfold exponent
      split <;> omega
    exact ⟨q, by rw [value, sig, exp]; rfl⟩
  | succ i ih =>
    by_cases low : q < 2 ^ (52 : Nat)
    · obtain ⟨m, hm⟩ := ih (q := 2 * q) (by omega)
      refine ⟨m, hm.trans ?_⟩
      rw [show ((i + 1 : Nat) : Int) - 1074 = (i : Int) - 1074 + 1 by omega,
        zpow_add_one₀ two_ne_zero]
      push_cast
      ring
    · refine ⟨(i + 1) * 2 ^ (52 : Nat) + q, ?_⟩
      have sig : significand ((i + 1) * 2 ^ (52 : Nat) + q) = q := by
        unfold significand
        rw [if_neg (by omega)]
        omega
      have exp : exponent ((i + 1) * 2 ^ (52 : Nat) + q) = ((i + 1 : Nat) : Int) - 1074 := by
        unfold exponent
        rw [if_neg (by omega)]
        omega
      rw [value, sig, exp]

theorem value_magnitudeOfNat {q : Nat} (small : q < 2 ^ (53 : Nat)) (j : Nat) :
    value (magnitudeOfNat (q * 2 ^ j)) = (q * 2 ^ j : Nat) := by
  obtain ⟨m, hm⟩ := exists_value small (j + 1074)
  have value : value m = (q * 2 ^ j : Nat) := by
    rw [hm, show ((j + 1074 : Nat) : Int) - 1074 = j by omega, zpow_natCast]
    push_cast
    rfl
  have same : magnitudeOfNat (q * 2 ^ j) = m :=
    nearestMagnitude_of_value Nat.one_pos (by rw [value, Nat.cast_one, div_one])
  rw [same, value]

theorem value_magnitudeOfNat_of_lt {n : Nat} (small : n < 2 ^ (53 : Nat)) :
    value (magnitudeOfNat n) = n := by
  have exact := value_magnitudeOfNat small 0
  rwa [Nat.pow_zero, Nat.mul_one] at exact

/-- Powers of ten are doubles up to the twenty-second. -/
theorem value_magnitudeOfNat_power {k : Nat} (h : k ≤ 22) :
    value (magnitudeOfNat (10 ^ k)) = (10 ^ k : Nat) := by
  have small : 5 ^ k < 2 ^ (53 : Nat) :=
    (Nat.pow_le_pow_right (by decide) h).trans_lt (by decide : 5 ^ 22 < 2 ^ (53 : Nat))
  have exact := value_magnitudeOfNat small k
  rwa [← Nat.mul_pow] at exact

theorem magnitudeOfNat_mono {m n : Nat} (h : m ≤ n) : magnitudeOfNat m ≤ magnitudeOfNat n :=
  nearestMagnitude_mono Nat.one_pos Nat.one_pos (Nat.mul_le_mul_right 1 h)

theorem one_le_value_magnitudeOfNat {n : Nat} (h : 0 < n) : 1 ≤ value (magnitudeOfNat n) := by
  have one := value_magnitudeOfNat_of_lt (n := 1) (by decide)
  rw [Nat.cast_one] at one
  rw [← one]
  exact value_strictMono.monotone (magnitudeOfNat_mono h)

theorem pos_of_one_le_value {m : Nat} (h : 1 ≤ value m) : 0 < m := by
  refine Nat.pos_of_ne_zero ?_
  rintro rfl
  rw [value, show significand 0 = 0 from rfl, Nat.cast_zero, zero_mul] at h
  exact absurd h (by norm_num)

/-! ### Scaled digits -/

theorem value_le_iff (x y : Nat) :
    value x ≤ value y ↔ numerator x * denominator y ≤ numerator y * denominator x := by
  rw [value_eq, value_eq, div_le_div_iff₀ (by exact_mod_cast denominator_pos x)
    (by exact_mod_cast denominator_pos y)]
  exact_mod_cast Iff.rfl

theorem mulMagnitude_mono {x x' y y' : Nat} (hx : x ≤ x') (hy : y ≤ y') :
    mulMagnitude x y ≤ mulMagnitude x' y' := by
  have left := (value_le_iff x x').1 (value_strictMono.monotone hx)
  have right := (value_le_iff y y').1 (value_strictMono.monotone hy)
  refine nearestMagnitude_mono (Nat.mul_pos (denominator_pos x) (denominator_pos y))
    (Nat.mul_pos (denominator_pos x') (denominator_pos y')) ?_
  calc numerator x * numerator y * (denominator x' * denominator y')
      = numerator x * denominator x' * (numerator y * denominator y') := by ring
    _ ≤ numerator x' * denominator x * (numerator y' * denominator y) := Nat.mul_le_mul left right
    _ = numerator x' * numerator y' * (denominator x * denominator y) := by ring

/-- Division by a number that is at least one makes no double greater. -/
theorem divMagnitude_le (x : Nat) {y : Nat} (h : 1 ≤ value y) : divMagnitude x y ≤ x := by
  have numY := numerator_pos (pos_of_one_le_value h)
  have dy : (0 : ℚ) < denominator y := by exact_mod_cast denominator_pos y
  rw [value_eq, one_le_div₀ dy] at h
  have larger : denominator y ≤ numerator y := by exact_mod_cast h
  calc divMagnitude x y ≤ nearestMagnitude (numerator x) (denominator x) := by
        refine nearestMagnitude_mono (Nat.mul_pos (denominator_pos x) numY) (denominator_pos x) ?_
        rw [Nat.mul_assoc, Nat.mul_comm (denominator y)]
        exact Nat.mul_le_mul_left _ (Nat.mul_le_mul_left _ larger)
    _ = x := nearestMagnitude_self x

end Binary64

open Binary64

theorem scaleByTen_of_le {e : Int} (h : e.natAbs ≤ 308) (m : Nat) :
    scaleByTen m e =
      if 0 ≤ e then
        if mulMagnitude m (magnitudeOfNat (10 ^ e.natAbs)) < magnitudeBound then
          some (mulMagnitude m (magnitudeOfNat (10 ^ e.natAbs))) else none
      else some (divMagnitude m (magnitudeOfNat (10 ^ e.natAbs))) := by
  rw [scaleByTen, if_pos h]

theorem one_le_value_power (k : Nat) : 1 ≤ value (magnitudeOfNat (10 ^ k)) :=
  one_le_value_magnitudeOfNat (Nat.pow_pos (by decide))

/-- Few digits scaled by a small power of ten give the nearest double. -/
theorem scaleByTen_eq {m n n' : Nat} {e k : Int} (few : n < 2 ^ (53 : Nat))
    (small : e.natAbs ≤ 22) (finite : m < magnitudeBound) (hm : 0 < m) (hn : 0 < n)
    (rounds : roundsTo m n' k = true) (same : (n : ℚ) * 10 ^ e = n' * 10 ^ k) :
    scaleByTen (magnitudeOfNat n) e = some m := by
  have digits := value_magnitudeOfNat_of_lt few
  have power := value_magnitudeOfNat_power small
  have ten : 0 < 10 ^ e.natAbs := Nat.pow_pos (by decide)
  rw [scaleByTen_of_le (small.trans (by decide))]
  split
  · rename_i up
    have exact : value (magnitudeOfNat n) * value (magnitudeOfNat (10 ^ e.natAbs)) =
        (n * 10 ^ e.natAbs : Nat) / (1 : Nat) := by
      rw [digits, power, Nat.cast_one, div_one, Nat.cast_mul]
    have scaled : ((n * 10 ^ e.natAbs : Nat) / (1 : Nat) : ℚ) = n' * 10 ^ k := by
      have nonneg : (10 : ℚ) ^ e = 10 ^ e.natAbs := by
        rw [← zpow_natCast, Int.natAbs_of_nonneg up]
      rw [← same, nonneg]
      push_cast
      rw [div_one]
    have product : mulMagnitude (magnitudeOfNat n) (magnitudeOfNat (10 ^ e.natAbs)) = m :=
      (mulMagnitude_eq Nat.one_pos exact).trans
        (nearestMagnitude_of_roundsTo (Nat.mul_pos hn ten) Nat.one_pos hm rounds scaled)
    rw [product, if_pos finite]
  · rename_i down
    have exact : value (magnitudeOfNat n) / value (magnitudeOfNat (10 ^ e.natAbs)) =
        n / (10 ^ e.natAbs : Nat) := by
      rw [digits, power]
    have scaled : (n / (10 ^ e.natAbs : Nat) : ℚ) = n' * 10 ^ k := by
      have negative : (10 : ℚ) ^ e = (10 ^ e.natAbs)⁻¹ := by
        rw [← zpow_natCast, ← zpow_neg]
        congr 1
        omega
      rw [← same, negative]
      push_cast
      rfl
    have quotient : divMagnitude (magnitudeOfNat n) (magnitudeOfNat (10 ^ e.natAbs)) = m :=
      (divMagnitude_eq (pos_of_one_le_value (one_le_value_power _)) ten exact).trans
        (nearestMagnitude_of_roundsTo hn ten hm rounds scaled)
    rw [quotient]

/-- Scaling down makes no double too big. -/
theorem exists_scaleByTen_of_nonpos {m : Nat} (finite : m < magnitudeBound) {e : Int}
    (h : e ≤ 0) : ∃ m' ≤ m, scaleByTen m e = some m' := by
  induction hk : e.natAbs using Nat.strongRecOn generalizing m e with
  | _ k ih =>
    rw [scaleByTen]
    split
    · split
      · obtain rfl : e = 0 := by omega
        have one : magnitudeOfNat (10 ^ (0 : Int).natAbs) = magnitudeOfNat 1 := rfl
        have same : mulMagnitude m (magnitudeOfNat 1) = m := by
          rw [mulMagnitude_eq (denominator_pos m), nearestMagnitude_self]
          rw [value_magnitudeOfNat_of_lt (by decide), Nat.cast_one, mul_one, value_eq]
        refine ⟨m, le_rfl, ?_⟩
        simp only [one, same, if_pos finite]
      · exact ⟨_, divMagnitude_le m (one_le_value_power _), rfl⟩
    split
    · exact ⟨0, Nat.zero_le _, rfl⟩
    rw [if_neg (by omega)]
    have smaller := divMagnitude_le m (one_le_value_power 308)
    obtain ⟨m', le, scaled⟩ := ih (e + 308).natAbs (by omega)
      (smaller.trans_lt finite) (by omega) rfl
    exact ⟨m', le.trans smaller, scaled⟩

/-- The largest finite double, as the decimal of its shortest digits. -/
def largest : Nat := 17976931348623157 * 10 ^ (292 : Nat)

/-- Of seventeen digits none are too big that write at most the largest double. -/
theorem mulMagnitude_lt_bound {k : Nat} (h : k < 309) :
    mulMagnitude (magnitudeOfNat (min (10 ^ (17 : Nat)) (largest / 10 ^ k)))
      (magnitudeOfNat (10 ^ k)) < magnitudeBound := by
  rcases Nat.lt_or_ge k 292 with small | large
  · have power := Nat.pow_le_pow_right (n := 10) (by decide) (Nat.le_of_lt_succ small)
    refine (mulMagnitude_mono (magnitudeOfNat_mono (Nat.min_le_left ..))
      (magnitudeOfNat_mono power)).trans_lt ?_
    decide +kernel
  · -- From here on the largest double bounds the digits, so the powers are checked one by one.
    obtain ⟨j, rfl⟩ := Nat.exists_eq_add_of_le large
    have table : ∀ j < 17,
        mulMagnitude (magnitudeOfNat (min (10 ^ (17 : Nat)) (largest / 10 ^ (292 + j))))
          (magnitudeOfNat (10 ^ (292 + j))) < magnitudeBound := by
      decide +kernel
    exact table j (by omega)

theorem exists_scaleByTen {n : Nat} {e : Int} (hn : 0 < n) (digits : n ≤ 10 ^ (17 : Nat))
    (within : (n : ℚ) * 10 ^ e ≤ largest) :
    ∃ m < magnitudeBound, scaleByTen (magnitudeOfNat n) e = some m := by
  have finite : magnitudeOfNat n < magnitudeBound :=
    (magnitudeOfNat_mono digits).trans_lt (by decide +kernel)
  rcases le_or_gt e 0 with down | up
  · obtain ⟨m, le, scaled⟩ := exists_scaleByTen_of_nonpos finite down
    exact ⟨m, le.trans_lt finite, scaled⟩
  obtain ⟨k, rfl⟩ := Int.eq_ofNat_of_zero_le up.le
  have within : n * 10 ^ k ≤ largest := by
    rw [zpow_natCast] at within
    exact_mod_cast within
  have few : k < 309 := by
    refine (Nat.pow_lt_pow_iff_right (by decide : 1 < 10)).1 ?_
    calc 10 ^ k ≤ n * 10 ^ k := Nat.le_mul_of_pos_left _ hn
      _ ≤ largest := within
      _ < 10 ^ (309 : Nat) := by decide +kernel
  have factor : n ≤ min (10 ^ (17 : Nat)) (largest / 10 ^ k) :=
    le_min digits ((Nat.le_div_iff_mul_le (Nat.pow_pos (by decide))).2 within)
  have product := (mulMagnitude_mono (magnitudeOfNat_mono factor) le_rfl).trans_lt
    (mulMagnitude_lt_bound few)
  refine ⟨_, product, ?_⟩
  rw [scaleByTen_of_le (by omega), if_pos up.le]
  exact if_pos product

/-! ### Shortest digits -/

-- The power stays a variable, since none this large is computed among the rationals.
theorem cast_le_largest {c b j : Nat} {x : ℚ} (base : x = b) (h : c * b ^ j ≤ largest) :
    c * x ^ j ≤ largest := by
  subst base
  exact_mod_cast h

theorem upper_le_largest {m : Nat} (h : m + 1 < magnitudeBound) : upper m ≤ largest := by
  have below : m ≤ magnitudeBound - 2 := by omega
  have sig : significand (magnitudeBound - 2) = 2 ^ (53 : Nat) - 2 := by decide
  have exp : exponent (magnitudeBound - 2) - 2 = ((969 : Nat) : Int) := by decide
  have last : upper (magnitudeBound - 2) ≤ largest := by
    rw [upper, quarter, sig, exp, zpow_natCast]
    exact cast_le_largest (b := 2) (by norm_num) (by decide +kernel)
  exact (upper_strictMono.monotone below).trans last

/-- The shortest digits of a finite double write no more than the largest one. -/
theorem ratio_shortest_le {m : Nat} (h : 0 < m) (finite : m < magnitudeBound) :
    ratio (shortest .toEven m) ≤ largest := by
  rcases Nat.lt_or_ge (m + 1) magnitudeBound with below | last
  · obtain ⟨-, -, n, k, rounds, same⟩ := shortest_spec .toEven h
    rw [roundsTo_iff] at rounds
    rw [same]
    refine le_trans ?_ (upper_le_largest below)
    split at rounds
    · exact rounds.2
    · exact rounds.2.le
  · obtain rfl : m = magnitudeBound - 1 := by omega
    have digits : shortest .toEven (magnitudeBound - 1) = ⟨"17976931348623157".toList, 309⟩ := by
      decide +kernel
    have written : digitsValue "17976931348623157".toList = 17976931348623157 := by decide
    have point : (309 : Int) - "17976931348623157".toList.length = (292 : Nat) := by decide
    rw [digits, ratio, written, point, zpow_natCast]
    exact cast_le_largest (b := 10) (by norm_num) (by decide +kernel)

end OpenApiModels.Number
