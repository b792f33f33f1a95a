/-!
# Doubles

Finite doubles in exact arithmetic. A magnitude is the number of doubles between it and zero, so
the order of doubles is that of magnitudes, and the next double is the next number.
-/

namespace OpenApiModels.Number

-- Powers are those of the core library, whatever else is imported.
attribute [local instance (high)] instPowNat

/-- The number of finite magnitudes: 2047 binades of 52 bits. -/
def magnitudeBound : Nat := 2047 * 2 ^ (52 : Nat)

/-- A finite double. -/
structure Binary64 where
  negative : Bool
  magnitude : Nat
  finite : magnitude < magnitudeBound
deriving DecidableEq

/-- What rounding to a double yields: magnitudes from halfway past the largest one are too big. -/
inductive Rounded where
  | finite (x : Binary64)
  | overflow (negative : Bool)
deriving DecidableEq

namespace Binary64

/-- The integer `m` in `m · 2^e`. -/
def significand (magnitude : Nat) : Nat :=
  if magnitude < 2 ^ (52 : Nat) then magnitude else magnitude % 2 ^ (52 : Nat) + 2 ^ (52 : Nat)

/-- The exponent `e` in `m · 2^e`. -/
def exponent (magnitude : Nat) : Int :=
  if magnitude < 2 ^ (52 : Nat) then -1074 else (magnitude / 2 ^ (52 : Nat) : Nat) - 1075

theorem significand_lt (magnitude : Nat) : significand magnitude < 2 ^ (53 : Nat) := by
  unfold significand
  split <;> omega

/-! ### Rounding -/

/-- The quotient rounded to the nearest integer, a half to the even one. -/
def divToNearest (num den : Nat) : Nat :=
  let q := num / den
  let r := num % den
  if 2 * r < den then q else if 2 * r = den then q + q % 2 else q + 1

/-- The exponent of the largest power of two that is at most `num / den`. -/
def floorLog2 (num den : Nat) : Int :=
  let k : Int := (Nat.log2 num : Int) - Nat.log2 den
  if den * 2 ^ k.toNat ≤ num * 2 ^ (-k).toNat then k else k - 1

/-- The magnitude nearest to `num / den`, with the doubles continued past the largest one. -/
def nearestMagnitude (num den : Nat) : Nat :=
  if num = 0 then 0 else
  let e := max (-1074) (floorLog2 num den - 52)
  (e + 1074).toNat * 2 ^ (52 : Nat) + divToNearest (num * 2 ^ (-e).toNat) (den * 2 ^ e.toNat)

def ofMagnitude (negative : Bool) (magnitude : Nat) : Rounded :=
  if h : magnitude < magnitudeBound then .finite ⟨negative, magnitude, h⟩ else .overflow negative

/-- The double nearest to `±num / den`. -/
def ofRatio (negative : Bool) (num den : Nat) : Rounded :=
  ofMagnitude negative (nearestMagnitude num den)

/-- The numerator of the exact value of a magnitude. -/
def numerator (magnitude : Nat) : Nat :=
  significand magnitude * 2 ^ (exponent magnitude).toNat

/-- The denominator of the exact value of a magnitude. -/
def denominator (magnitude : Nat) : Nat :=
  2 ^ (-exponent magnitude).toNat

/-- The magnitude nearest to a product. -/
def mulMagnitude (x y : Nat) : Nat :=
  nearestMagnitude (numerator x * numerator y) (denominator x * denominator y)

/-- The magnitude nearest to a quotient. -/
def divMagnitude (x y : Nat) : Nat :=
  nearestMagnitude (numerator x * denominator y) (denominator x * numerator y)

/-- The magnitude nearest to a natural number. -/
def magnitudeOfNat (n : Nat) : Nat :=
  nearestMagnitude n 1

example : magnitudeOfNat 1 = 0x3FF0000000000000 := by decide
example : nearestMagnitude 1 10 = 0x3FB999999999999A := by decide
example : nearestMagnitude 5 (10 ^ 324) = 1 := by decide +kernel
example : nearestMagnitude (2 ^ 1024 - 2 ^ 970) 1 = magnitudeBound := by decide +kernel

end Binary64

end OpenApiModels.Number
