import Mathlib.Algebra.Order.Field.Power
import Mathlib.Algebra.Order.Field.Rat
import Mathlib.Data.List.DropRight
import Mathlib.Tactic.FieldSimp
import Mathlib.Tactic.Linarith
import Mathlib.Tactic.Ring
import OpenApiModels.Number.Shortest
import OpenApiModels.Proofs.Number.Digits

/-!
# Decimals that read back

The intervals of the numbers that round to a double lie side by side and share their ends, of which
the even double owns both. So a decimal rounds to one double at most, and the shortest digits of a
double are those of no other one (`shortest_injective`): 17 digits are enough, since the step of
the last of them is less than the interval is wide (`exists_digitsOnGrid`).
-/

namespace OpenApiModels.Number

-- Powers are those of the core library, whatever else is imported.
attribute [local instance (high)] instPowNat

namespace Binary64

/-! ### Intervals of numbers that round to a double -/

/-- A quarter of the unit in the last place. -/
def quarter (magnitude : Nat) : ℚ :=
  2 ^ (exponent magnitude - 2)

def lower (magnitude : Nat) : ℚ :=
  (4 * significand magnitude - (roundingRadius magnitude).1 : Nat) * quarter magnitude

def upper (magnitude : Nat) : ℚ :=
  (4 * significand magnitude + 2 : Nat) * quarter magnitude

theorem quarter_pos (magnitude : Nat) : 0 < quarter magnitude := by
  unfold quarter
  positivity

theorem roundingRadius_cases (magnitude : Nat) :
    roundingRadius magnitude = (2, 2) ∨
      roundingRadius magnitude = (1, 2) ∧ significand magnitude = 2 ^ (52 : Nat) := by
  unfold roundingRadius
  split
  · rename_i boundary
    refine .inr ⟨rfl, ?_⟩
    unfold significand
    rw [if_neg (by omega), boundary.1, Nat.zero_add]
  · exact .inl rfl

theorem significand_pos {magnitude : Nat} (h : 0 < magnitude) : 0 < significand magnitude := by
  unfold significand
  split <;> omega

theorem significand_mod_two (magnitude : Nat) : significand magnitude % 2 = magnitude % 2 := by
  unfold significand
  split <;> omega

theorem lower_lt_upper (magnitude : Nat) : lower magnitude < upper magnitude := by
  refine mul_lt_mul_of_pos_right ?_ (quarter_pos magnitude)
  exact_mod_cast (by omega :
    4 * significand magnitude - (roundingRadius magnitude).1 < 4 * significand magnitude + 2)

/-- The interval of a double starts where that of the one before ends. -/
theorem upper_eq_lower (magnitude : Nat) : upper magnitude = lower (magnitude + 1) := by
  have same (sig : significand (magnitude + 1) = significand magnitude + 1)
      (exp : exponent (magnitude + 1) = exponent magnitude)
      (radius : roundingRadius (magnitude + 1) = (2, 2)) :
      upper magnitude = lower (magnitude + 1) := by
    rw [upper, lower, quarter, quarter, sig, exp, radius]
    congr 2
  by_cases small : magnitude + 1 < 2 ^ (52 : Nat)
  · apply same
    · unfold significand
      rw [if_pos small, if_pos (by omega)]
    · unfold exponent
      rw [if_pos small, if_pos (by omega)]
    · exact if_neg fun h => absurd h.2 (by omega)
  by_cases first : magnitude + 1 = 2 ^ (52 : Nat)
  · apply same
    · unfold significand
      rw [if_neg small, if_pos (by omega)]
      omega
    · unfold exponent
      rw [if_neg small, if_pos (by omega), first]
      rfl
    · exact if_neg fun h => absurd h.2 (by omega)
  by_cases binade : (magnitude + 1) % 2 ^ (52 : Nat) = 0
  · -- The unit doubles, and only half of it lies below a power of two.
    have sig : significand magnitude = 2 ^ (53 : Nat) - 1 := by
      unfold significand
      rw [if_neg (by omega)]
      omega
    have sig' : significand (magnitude + 1) = 2 ^ (52 : Nat) := by
      unfold significand
      rw [if_neg small]
      omega
    have exp : exponent (magnitude + 1) - 2 = exponent magnitude - 2 + 1 := by
      unfold exponent
      rw [if_neg small, if_neg (by omega)]
      omega
    have radius : roundingRadius (magnitude + 1) = (1, 2) := if_pos ⟨binade, by omega⟩
    rw [upper, lower, quarter, quarter, sig, sig', radius, exp, zpow_add_one₀ two_ne_zero]
    norm_num
    ring
  · apply same
    · unfold significand
      rw [if_neg small, if_neg (by omega)]
      omega
    · unfold exponent
      rw [if_neg small, if_neg (by omega)]
      omega
    · exact if_neg fun h => binade h.1

theorem upper_strictMono : StrictMono upper :=
  strictMono_nat_of_lt_succ fun magnitude => by
    rw [upper_eq_lower magnitude]
    exact lower_lt_upper _

theorem pow_toNat {b : ℚ} (h : b ≠ 0) (e : Int) : b ^ e.toNat = b ^ e * b ^ (-e).toNat := by
  obtain ⟨k, rfl | rfl⟩ := e.eq_nat_or_neg
  · simp
  · simp [h]

theorem roundsTo_iff (magnitude n : Nat) (k : Int) :
    roundsTo magnitude n k = true ↔
      if magnitude % 2 = 0 then
        lower magnitude ≤ n * 10 ^ k ∧ n * 10 ^ k ≤ upper magnitude
      else lower magnitude < n * 10 ^ k ∧ n * 10 ^ k < upper magnitude := by
  have denominator : (0 : ℚ) < 2 ^ (-(exponent magnitude - 2)).toNat * 10 ^ (-k).toNat := by
    positivity
  have candidate : ((n * 10 ^ k.toNat * 2 ^ (-(exponent magnitude - 2)).toNat : Nat) : ℚ) =
      n * 10 ^ k * (2 ^ (-(exponent magnitude - 2)).toNat * 10 ^ (-k).toNat) := by
    push_cast
    rw [pow_toNat (by norm_num) k]
    ring
  have bound (m : Nat) : ((m * (2 ^ (exponent magnitude - 2).toNat * 10 ^ (-k).toNat) : Nat) : ℚ) =
      m * quarter magnitude * (2 ^ (-(exponent magnitude - 2)).toNat * 10 ^ (-k).toNat) := by
    push_cast
    rw [pow_toNat two_ne_zero (exponent magnitude - 2), quarter]
    ring
  have two : (roundingRadius magnitude).2 = 2 := by
    rcases roundingRadius_cases magnitude with radius | ⟨radius, -⟩ <;> rw [radius]
  unfold roundsTo
  dsimp only
  rw [significand_mod_two, two]
  split <;> rw [Bool.and_eq_true, decide_eq_true_eq, decide_eq_true_eq]
  · rw [← Nat.cast_le (α := ℚ), ← Nat.cast_le (α := ℚ), candidate, bound, bound,
      mul_le_mul_iff_left₀ denominator, mul_le_mul_iff_left₀ denominator]
    rfl
  · rw [← Nat.cast_lt (α := ℚ), ← Nat.cast_lt (α := ℚ), candidate, bound, bound,
      mul_lt_mul_iff_left₀ denominator, mul_lt_mul_iff_left₀ denominator]
    rfl

/-- A decimal rounds to one double at most. -/
theorem eq_of_roundsTo {magnitude magnitude' n n' : Nat} {k k' : Int}
    (h : roundsTo magnitude n k = true) (h' : roundsTo magnitude' n' k' = true)
    (same : (n : ℚ) * 10 ^ k = n' * 10 ^ k') : magnitude = magnitude' := by
  have le {m m' n n' : Nat} {k k' : Int} (h : roundsTo m n k = true)
      (h' : roundsTo m' n' k' = true) (same : (n : ℚ) * 10 ^ k = n' * 10 ^ k') : m' ≤ m := by
    refine not_lt.1 fun below => ?_
    obtain ⟨before, rfl⟩ : ∃ before, m' = before + 1 := ⟨m' - 1, by omega⟩
    rw [roundsTo_iff, same] at h
    rw [roundsTo_iff, ← upper_eq_lower] at h'
    have ends : upper m ≤ upper before := upper_strictMono.monotone (by omega)
    -- The two intervals share an end at most, and one of the doubles is odd.
    split at h
    · split at h'
      · have touching := upper_strictMono.injective (le_antisymm ends (h'.1.trans h.2))
        omega
      · exact absurd (h'.1.trans_le h.2) (not_lt.2 ends)
    · split at h'
      · exact absurd (h'.1.trans_lt h.2) (not_lt.2 ends)
      · exact absurd (h'.1.trans h.2) (not_lt.2 ends)
  exact le_antisymm (le h' h same.symm) (le h h' same)

/-! ### Seventeen digits -/

/-- The exact value of a magnitude. -/
def value (magnitude : Nat) : ℚ :=
  significand magnitude * 2 ^ exponent magnitude

theorem value_eq (magnitude : Nat) :
    value magnitude = numerator magnitude / denominator magnitude := by
  have positive : (0 : ℚ) < 2 ^ (-exponent magnitude).toNat := by positivity
  rw [value, numerator, denominator, eq_div_iff (by exact_mod_cast positive.ne')]
  push_cast
  rw [pow_toNat two_ne_zero (exponent magnitude)]
  ring

theorem value_eq_quarters (magnitude : Nat) :
    value magnitude = (4 * significand magnitude : Nat) * quarter magnitude := by
  rw [value, quarter, zpow_sub₀ two_ne_zero]
  push_cast
  ring

theorem value_mem {magnitude : Nat} (h : 0 < magnitude) :
    lower magnitude < value magnitude ∧ value magnitude < upper magnitude := by
  have positive := significand_pos h
  have below : 0 < (roundingRadius magnitude).1 := by
    rcases roundingRadius_cases magnitude with radius | ⟨radius, -⟩ <;> simp [radius]
  rw [value_eq_quarters, lower, upper]
  constructor <;> refine mul_lt_mul_of_pos_right ?_ (quarter_pos magnitude) <;>
    exact_mod_cast (by omega)

theorem roundsTo_of_nearestOnGrid {tie : Tie} {magnitude n : Nat} {k : Int}
    (h : nearestOnGrid tie magnitude k = some n) : roundsTo magnitude n k = true := by
  unfold nearestOnGrid at h
  dsimp only at h
  split at h <;> cases h
  · rename_i floor ceiling
    unfold Tie.round
    repeat' split
    all_goals assumption
  all_goals assumption

/-- The neighbours of a double on a grid. -/
theorem value_mem_grid (magnitude : Nat) (k : Int) {n : Nat}
    (h : n = numerator magnitude * 10 ^ (-k).toNat / (denominator magnitude * 10 ^ k.toNat)) :
    n * 10 ^ k ≤ value magnitude ∧ value magnitude < (n + 1 : Nat) * 10 ^ k := by
  have step : (0 : ℚ) < 10 ^ k := by positivity
  generalize hnum : numerator magnitude * 10 ^ (-k).toNat = num at h
  generalize hden : denominator magnitude * 10 ^ k.toNat = den at h
  have denPos : 0 < den := by
    rw [← hden]
    exact Nat.mul_pos (Nat.two_pow_pos _) (Nat.pow_pos (by decide))
  have denPos' : (0 : ℚ) < den := by exact_mod_cast denPos
  have scaled : value magnitude = num / den * 10 ^ k := by
    have positive : (0 : ℚ) < denominator magnitude := by
      exact_mod_cast Nat.two_pow_pos _
    have ten : (0 : ℚ) < 10 ^ (-k).toNat := by positivity
    rw [value_eq, ← hnum, ← hden]
    push_cast
    rw [pow_toNat (by norm_num) k]
    field_simp
  rw [scaled, mul_le_mul_iff_left₀ step, mul_lt_mul_iff_left₀ step, le_div_iff₀ denPos',
    div_lt_iff₀ denPos', h]
  exact ⟨by exact_mod_cast Nat.div_mul_le_self num den,
    by exact_mod_cast Nat.lt_mul_of_div_lt (Nat.lt_succ_self (num / den)) denPos⟩

/-- What is taken on a grid is at most one step above the double. -/
theorem le_of_nearestOnGrid {tie : Tie} {magnitude n : Nat} {k : Int}
    (h : nearestOnGrid tie magnitude k = some n) : n * 10 ^ k ≤ value magnitude + 10 ^ k := by
  unfold nearestOnGrid at h
  dsimp only at h
  generalize floored : numerator magnitude * 10 ^ (-k).toNat /
    (denominator magnitude * 10 ^ k.toNat) = floor at h
  have floorLe := (value_mem_grid magnitude k floored.symm).1
  have step : (0 : ℚ) < 10 ^ k := by positivity
  have near : n = floor ∨ n = floor + 1 := by
    split at h <;> cases h
    · unfold Tie.round
      repeat' split
      all_goals simp
    · exact .inl rfl
    · exact .inr rfl
  rcases near with rfl | rfl
  · linarith
  · push_cast
    linarith

/-- On a grid with smaller steps than the interval is wide, one of the neighbours reads back. -/
theorem exists_nearestOnGrid (tie : Tie) {magnitude : Nat} (h : 0 < magnitude) {k : Int}
    (fine : (10 : ℚ) ^ k < upper magnitude - lower magnitude) :
    ∃ n, nearestOnGrid tie magnitude k = some n := by
  obtain ⟨above, below⟩ := value_mem h
  generalize floored : numerator magnitude * 10 ^ (-k).toNat /
    (denominator magnitude * 10 ^ k.toNat) = n
  obtain ⟨floor, ceiling⟩ := value_mem_grid magnitude k floored.symm
  have inside {n : Nat} (left : lower magnitude < n * 10 ^ k)
      (right : n * 10 ^ k < upper magnitude) : roundsTo magnitude n k = true := by
    rw [roundsTo_iff]
    split
    · exact ⟨left.le, right.le⟩
    · exact ⟨left, right⟩
  have some : roundsTo magnitude n k = true ∨ roundsTo magnitude (n + 1) k = true := by
    by_contra neither
    obtain ⟨notFloor, notCeiling⟩ := not_or.1 neither
    have left := not_lt.1 fun left => notFloor (inside left (floor.trans_lt below))
    have right := not_lt.1 fun right => notCeiling (inside (above.trans ceiling) right)
    push_cast at right
    linarith
  unfold nearestOnGrid
  simp only [floored]
  split
  case h_4 none none' =>
    rw [none, none'] at some
    rcases some with h | h <;> cases h
  all_goals exact ⟨_, rfl⟩

/-- The exponent of a double in powers of ten. -/
theorem floorLog10_spec {magnitude : Nat} (h : 0 < magnitude) {first : Int}
    (isFirst : first = floorLog10 (numerator magnitude) (denominator magnitude)) :
    (10 : ℚ) ^ first ≤ value magnitude ∧ value magnitude < 10 ^ (first + 1) := by
  have numPos : 0 < numerator magnitude := Nat.mul_pos (significand_pos h) (Nat.two_pow_pos _)
  have denPos : 0 < denominator magnitude := Nat.two_pow_pos _
  rw [value_eq]
  generalize numerator magnitude = num at numPos isFirst
  generalize denominator magnitude = den at denPos isFirst
  have numPos' : (0 : ℚ) < num := by exact_mod_cast numPos
  have denPos' : (0 : ℚ) < den := by exact_mod_cast denPos
  -- A number with `l + 1` digits is at least `10 ^ l` and less than `10 ^ (l + 1)`.
  have length (n : Nat) : ∃ l, (Nat.toDigits 10 n).length = l + 1 ∧ n < 10 ^ (l + 1) ∧
      (0 < n → 10 ^ l ≤ n) := by
    obtain ⟨l, hl⟩ : ∃ l, (Nat.toDigits 10 n).length = l + 1 :=
      ⟨_, (Nat.succ_pred_eq_of_pos Nat.length_toDigits_pos).symm⟩
    refine ⟨l, hl, (Nat.length_toDigits_le_iff (by decide) (Nat.succ_pos l)).1 hl.le, fun pos => ?_⟩
    cases l with
    | zero => exact pos
    | succ l =>
      refine not_lt.1 fun less => ?_
      have := (Nat.length_toDigits_le_iff (b := 10) (by decide) (Nat.succ_pos l)).2 less
      omega
  unfold floorLog10 at isFirst
  split at isFirst
  · rename_i whole
    obtain ⟨l, hl, below, least⟩ := length (num / den)
    obtain rfl : first = l := by omega
    have reached := (Nat.le_div_iff_mul_le denPos).1 (least (Nat.div_pos whole denPos))
    have passed := (Nat.div_lt_iff_lt_mul denPos).1 below
    rw [← Nat.cast_succ, zpow_natCast, zpow_natCast, le_div_iff₀ denPos', div_lt_iff₀ denPos']
    exact ⟨by exact_mod_cast reached, by exact_mod_cast passed⟩
  · rename_i small
    obtain ⟨l, hl, below, least⟩ := length (den / num)
    dsimp only at isFirst
    rw [hl] at isFirst
    split at isFirst
    · rename_i power
      obtain rfl : first = -(l : Int) := by omega
      have exact : (num / den : ℚ) = 10 ^ (-(l : Int)) := by
        rw [← power, Nat.add_sub_cancel, zpow_neg, zpow_natCast]
        push_cast
        field_simp
      rw [exact]
      exact ⟨le_rfl, zpow_lt_zpow_right₀ (by norm_num) (by omega)⟩
    · rename_i power
      obtain rfl : first = -((l + 1 : Nat) : Int) := by omega
      have reached : num * 10 ^ l ≤ den :=
        (Nat.mul_comm ..).trans_le
          ((Nat.le_div_iff_mul_le numPos).1 (least (Nat.div_pos (by omega) numPos)))
      have passed := (Nat.div_lt_iff_lt_mul numPos).1 below
      rw [Nat.add_sub_cancel] at power
      have strict : num * 10 ^ l < den := lt_of_le_of_ne reached power
      rw [show -((l + 1 : Nat) : Int) + 1 = -(l : Int) by omega, zpow_neg, zpow_neg, zpow_natCast,
        zpow_natCast, inv_le_comm₀ (by positivity) (div_pos numPos' denPos'), inv_div,
        div_le_iff₀ numPos', div_lt_iff₀ denPos', ← div_eq_inv_mul, lt_div_iff₀ (by positivity)]
      exact ⟨by exact_mod_cast passed.le, by exact_mod_cast strict⟩

/-- The step of the seventeenth digit is less than the interval is wide. -/
theorem step_lt_width {magnitude : Nat} (pos : 0 < magnitude) {first : Int}
    (h : (10 : ℚ) ^ first ≤ value magnitude) :
    (10 : ℚ) ^ (first - 16) < upper magnitude - lower magnitude := by
  have quarter := quarter_pos magnitude
  have some := significand_pos pos
  have scaled : (10 : ℚ) ^ first = 10 ^ (first - 16) * 10 ^ (16 : Nat) := by
    rw [← zpow_natCast, ← zpow_add₀ (by norm_num)]
    congr 1
    omega
  rw [scaled, value_eq_quarters] at h
  rw [upper, lower, ← sub_mul]
  rcases roundingRadius_cases magnitude with radius | ⟨radius, sig⟩
  · rw [radius, Nat.cast_sub (by dsimp only; omega)]
    have bound : ((4 * significand magnitude : Nat) : ℚ) * Binary64.quarter magnitude <
        (4 * 2 ^ (53 : Nat) : Nat) * Binary64.quarter magnitude := by
      refine mul_lt_mul_of_pos_right ?_ quarter
      have := significand_lt magnitude
      exact_mod_cast (by omega : 4 * significand magnitude < 4 * 2 ^ (53 : Nat))
    push_cast at h bound ⊢
    linarith
  · -- Below a power of two the interval is narrower, but such a double is also smaller.
    rw [sig] at h
    rw [radius, sig]
    push_cast at h ⊢
    norm_num at h ⊢
    linarith

/-! ### Shortest digits -/

/-- Digits that start and end with none that could be left out. -/
structure IsTrimmed (ds : List Char) : Prop where
  digit : ∀ c ∈ ds, c.isDigit = true
  ne_nil : ds ≠ []
  head : ds.head? ≠ some '0'
  last : ds.getLast? ≠ some '0'

/-- The digits of a number are trimmed digits and zeros. -/
theorem exists_zeros {n : Nat} (h : n ≠ 0) :
    IsTrimmed ((Nat.toDigits 10 n).rdropWhile (· == '0')) ∧ ∃ zeros,
      Nat.toDigits 10 n =
        (Nat.toDigits 10 n).rdropWhile (· == '0') ++ List.replicate zeros '0' := by
  obtain ⟨c, cs, text, first⟩ := toDigits_head h
  have kept : (Nat.toDigits 10 n).rdropWhile (· == '0') ≠ [] := by
    rw [Ne, List.rdropWhile_eq_nil_iff, text]
    exact fun all => first (by simpa using all c List.mem_cons_self)
  obtain ⟨tail, split⟩ := List.rdropWhile_prefix (· == '0') (Nat.toDigits 10 n)
  refine ⟨⟨fun d hd => ?_, kept, fun zero => ?_, fun zero => ?_⟩,
    ((Nat.toDigits 10 n).rtakeWhile (· == '0')).length, ?_⟩
  · exact isDigit_of_mem_toDigits ((List.rdropWhile_prefix _ _).mem hd)
  · obtain ⟨ds, trimmed⟩ := List.head?_eq_some_iff.1 zero
    rw [trimmed, text, List.cons_append] at split
    exact first (List.cons.inj split).1.symm
  · have last := List.rdropWhile_last_not (· == '0') (Nat.toDigits 10 n) kept
    rw [List.getLast?_eq_some_getLast kept] at zero
    rw [Option.some.inj zero] at last
    exact last rfl
  · have zeros : (Nat.toDigits 10 n).rtakeWhile (· == '0') =
        List.replicate ((Nat.toDigits 10 n).rtakeWhile (· == '0')).length '0' :=
      List.eq_replicate_iff.2 ⟨rfl, fun d hd => by simpa using List.mem_rtakeWhile_imp hd⟩
    rw [← zeros]
    exact List.rdropWhile_append_rtakeWhile.symm

/-- The number that digits with a point write. -/
def ratio (d : Digits) : ℚ :=
  digitsValue d.digits * 10 ^ (d.point - d.digits.length)

/-- The digits on a grid are those of a number on it that reads back, without zeros behind. -/
theorem exists_of_digitsOnGrid {tie : Tie} {magnitude : Nat} (pos : 0 < magnitude) {k : Int}
    {d : Digits} (h : digitsOnGrid tie magnitude k = some d) :
    IsTrimmed d.digits ∧ 0 < digitsValue d.digits ∧
      ∃ n, nearestOnGrid tie magnitude k = some n ∧ digitsValue d.digits ≤ n ∧
        ratio d = n * 10 ^ k := by
  obtain ⟨n, found, rfl⟩ := Option.map_eq_some_iff.1 h
  have reads := roundsTo_of_nearestOnGrid found
  have nonzero : n ≠ 0 := by
    rintro rfl
    have positive : 0 < lower magnitude := by
      have some := significand_pos pos
      refine mul_pos (Nat.cast_pos.2 ?_) (quarter_pos magnitude)
      rcases roundingRadius_cases magnitude with radius | ⟨radius, -⟩ <;> rw [radius] <;>
        dsimp only <;> omega
    rw [roundsTo_iff, Nat.cast_zero, zero_mul] at reads
    split at reads <;> linarith [reads.1]
  obtain ⟨trimmed, zeros, text⟩ := exists_zeros nonzero
  change IsTrimmed ((Nat.toDigits 10 n).rdropWhile (· == '0')) ∧
    0 < digitsValue ((Nat.toDigits 10 n).rdropWhile (· == '0')) ∧ ∃ n', _ ∧
      digitsValue ((Nat.toDigits 10 n).rdropWhile (· == '0')) ≤ n' ∧
        ratio ⟨(Nat.toDigits 10 n).rdropWhile (· == '0'), (Nat.toDigits 10 n).length + k⟩ = _
  refine ⟨trimmed, ?_⟩
  generalize (Nat.toDigits 10 n).rdropWhile (· == '0') = ds at text
  have value := digitsValue_toDigits n
  rw [text, digitsValue_append, digitsValue_replicate_zero, Nat.add_zero,
    List.length_replicate] at value
  have point : ((ds ++ List.replicate zeros '0').length : Int) + k - ds.length = zeros + k := by
    rw [List.length_append, List.length_replicate]
    omega
  refine ⟨Nat.pos_of_mul_pos_right (value ▸ Nat.pos_of_ne_zero nonzero), n, found, ?_, ?_⟩
  · rw [← value]
    exact Nat.le_mul_of_pos_right _ (Nat.pow_pos (by decide))
  · rw [ratio, text, point, zpow_add₀ (by norm_num), zpow_natCast, ← mul_assoc]
    congr 1
    exact_mod_cast value

/-- Seventeen digits are enough. -/
theorem exists_digitsOnGrid (tie : Tie) {magnitude : Nat} (h : 0 < magnitude) :
    ∃ k, floorLog10 (numerator magnitude) (denominator magnitude) - 16 ≤ k ∧
      digitsOnGrid tie magnitude k = some (shortest tie magnitude) := by
  unfold shortest
  dsimp only
  split
  · rename_i d found
    obtain ⟨n, inRange, onGrid⟩ := List.exists_of_findSome?_eq_some found
    have := List.mem_range.1 inRange
    exact ⟨_, by omega, onGrid⟩
  · rename_i none
    have last := List.findSome?_eq_none_iff.1 none 16 (by decide)
    obtain ⟨n, found⟩ := exists_nearestOnGrid tie h (step_lt_width h (floorLog10_spec h rfl).1)
    rw [digitsOnGrid, Nat.cast_ofNat, found] at last
    cases last

/-- The shortest digits of a double, with the decimal they were taken from. -/
theorem shortest_spec (tie : Tie) {magnitude : Nat} (h : 0 < magnitude) :
    IsTrimmed (shortest tie magnitude).digits ∧
      (0 < digitsValue (shortest tie magnitude).digits ∧
        digitsValue (shortest tie magnitude).digits ≤ 10 ^ (17 : Nat)) ∧
        ∃ n k, roundsTo magnitude n k = true ∧ ratio (shortest tie magnitude) = n * 10 ^ k := by
  obtain ⟨k, fine, onGrid⟩ := exists_digitsOnGrid tie h
  obtain ⟨trimmed, pos, n, found, le, same⟩ := exists_of_digitsOnGrid h onGrid
  refine ⟨trimmed, ⟨pos, le.trans ?_⟩, n, k, roundsTo_of_nearestOnGrid found, same⟩
  generalize isFirst : floorLog10 (numerator magnitude) (denominator magnitude) = first at fine
  have step : (0 : ℚ) < 10 ^ k := by positivity
  have below : value magnitude < 10 ^ (17 : Nat) * 10 ^ k := by
    calc value magnitude < 10 ^ (first + 1) := (floorLog10_spec h isFirst.symm).2
      _ ≤ 10 ^ (17 + k) := zpow_le_zpow_right₀ (by norm_num) (by omega)
      _ = 10 ^ (17 : Nat) * 10 ^ k := by rw [zpow_add₀ (by norm_num)]; rfl
  have near : (n : ℚ) * 10 ^ k < (10 ^ (17 : Nat) + 1 : Nat) * 10 ^ k := by
    have near := le_of_nearestOnGrid found
    push_cast
    linarith
  have digits : n < 10 ^ (17 : Nat) + 1 := by
    exact_mod_cast (mul_lt_mul_iff_left₀ step).1 near
  omega

theorem isTrimmed_shortest (tie : Tie) {magnitude : Nat} (h : 0 < magnitude) :
    IsTrimmed (shortest tie magnitude).digits :=
  (shortest_spec tie h).1

theorem shortest_injective {tie : Tie} {magnitude magnitude' : Nat} (h : 0 < magnitude)
    (h' : 0 < magnitude') (same : shortest tie magnitude = shortest tie magnitude') :
    magnitude = magnitude' := by
  obtain ⟨-, -, n, k, reads, ratio⟩ := shortest_spec tie h
  obtain ⟨-, -, n', k', reads', ratio'⟩ := shortest_spec tie h'
  exact eq_of_roundsTo reads reads' (ratio.symm.trans (same ▸ ratio'))

end Binary64

end OpenApiModels.Number
