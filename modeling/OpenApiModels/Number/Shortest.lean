import OpenApiModels.Number.Binary64

/-!
# Decimal texts of doubles

The digits written are the fewest that read back as the same double, and of those the nearest to
it. `RealFormat` says which of two equally near ones is taken, where positional notation ends and
how exponents are written.
-/

namespace OpenApiModels.Number

-- Powers are those of the core library, whatever else is imported.
attribute [local instance (high)] instPowNat

/-- The value `0.d₁d₂… · 10^point`. -/
structure Digits where
  digits : List Char
  point : Int
deriving DecidableEq

/-- Which of the two neighbours of a number halfway between them is taken. -/
inductive Tie where
  | toEven
  | up
deriving DecidableEq, Repr

/-- The lower neighbour `n` or the upper one, of a number that is `rest / den` above `n`. -/
def Tie.round (tie : Tie) (n rest den : Nat) : Nat :=
  if 2 * rest < den then n
  else if 2 * rest = den ∧ tie = .toEven ∧ n % 2 = 0 then n
  else n + 1

namespace Binary64

/-- The exponent of the largest power of ten that is at most `num / den`. -/
def floorLog10 (num den : Nat) : Int :=
  if den ≤ num then (Nat.toDigits 10 (num / den)).length - 1
  else
    let length := (Nat.toDigits 10 (den / num)).length
    if num * 10 ^ (length - 1) = den then 1 - (length : Int) else -(length : Int)

/-- The interval that rounds to a magnitude, in quarters of its last place: the distances to
its lower and its upper end. -/
def roundingRadius (magnitude : Nat) : Nat × Nat :=
  if magnitude % 2 ^ (52 : Nat) = 0 ∧ 2 ^ (53 : Nat) ≤ magnitude then (1, 2) else (2, 2)

/-- Whether `n · 10^k` rounds to the magnitude. Even significands own both ends. -/
def roundsTo (magnitude n : Nat) (k : Int) : Bool :=
  let m := significand magnitude
  let e := exponent magnitude - 2
  let (below, above) := roundingRadius magnitude
  -- the candidate and the quarters, both over the same denominator
  let candidate := n * 10 ^ k.toNat * 2 ^ (-e).toNat
  let quarter := 2 ^ e.toNat * 10 ^ (-k).toNat
  let low := (4 * m - below) * quarter
  let high := (4 * m + above) * quarter
  if m % 2 = 0 then decide (low ≤ candidate) && decide (candidate ≤ high)
  else decide (low < candidate) && decide (candidate < high)

/-- The nearer of the two neighbours on the grid of `10^k` that round to the magnitude. -/
def nearestOnGrid (tie : Tie) (magnitude : Nat) (k : Int) : Option Nat :=
  let num := numerator magnitude * 10 ^ (-k).toNat
  let den := denominator magnitude * 10 ^ k.toNat
  let n := num / den
  match roundsTo magnitude n k, roundsTo magnitude (n + 1) k with
  | true, true => some (tie.round n (num % den) den)
  | true, false => some n
  | false, true => some (n + 1)
  | false, false => none

def digitsOnGrid (tie : Tie) (magnitude : Nat) (k : Int) : Option Digits :=
  (nearestOnGrid tie magnitude k).map fun n =>
    let text := Nat.toDigits 10 n
    ⟨(text.reverse.dropWhile (· == '0')).reverse, text.length + k⟩

/-- The fewest digits that read back, at most 17; the exact integer digits if there were none. -/
def shortest (tie : Tie) (magnitude : Nat) : Digits :=
  let first := floorLog10 (numerator magnitude) (denominator magnitude)
  match (List.range 17).findSome? fun (n : Nat) => digitsOnGrid tie magnitude (first - n) with
  | some d => d
  | none =>
    let text := Nat.toDigits 10 (numerator magnitude / denominator magnitude)
    ⟨text, text.length⟩

end Binary64

/-! ### Formats -/

/-- How doubles are written: exponents of ten from `lowest` to below `beyond` positionally, the
others with an exponent, whose plus sign is written or not. -/
structure RealFormat where
  lowest : Int
  beyond : Int
  plusSign : Bool
  tie : Tie

namespace RealFormat

/-- Digits with a point, and at least one digit on either side of it. -/
def positional (d : Digits) : List Char :=
  if d.point ≤ 0 then '0' :: '.' :: List.replicate (-d.point).toNat '0' ++ d.digits
  else
    let whole := d.point.toNat
    let fraction := d.digits.drop whole
    d.digits.take whole ++ List.replicate (whole - d.digits.length) '0' ++
      '.' :: (if fraction.isEmpty then ['0'] else fraction)

/-- One digit, the others behind a point, and the exponent of ten. -/
def scientific (plusSign : Bool) (d : Digits) : List Char :=
  let e := d.point - 1
  d.digits.take 1 ++ (if d.digits.length ≤ 1 then [] else '.' :: d.digits.drop 1) ++
    'e' :: (if e < 0 then ['-'] else if plusSign then ['+'] else []) ++ Nat.toDigits 10 e.natAbs

def write (format : RealFormat) (x : Binary64) : List Char :=
  (if x.negative then ['-'] else []) ++
  if x.magnitude = 0 then ['0', '.', '0']
  else
    let d := Binary64.shortest format.tie x.magnitude
    if format.lowest < d.point ∧ d.point ≤ format.beyond then positional d
    else scientific format.plusSign d

end RealFormat

/-- Doubles as JSON writes them. -/
def jsonReal : RealFormat := ⟨-5, 16, true, .toEven⟩

/-- Doubles in messages and reports. -/
def plainReal : RealFormat := ⟨-4, 16, false, .up⟩

namespace Rounded

def text (format : RealFormat) : Rounded → String
  | .finite x => String.ofList (format.write x)
  | .overflow false => "inf"
  | .overflow true => "-inf"

example : (Binary64.ofRatio false 1 100000).text jsonReal = "0.00001" := by decide
example : (Binary64.ofRatio false 5 (10 ^ 324)).text jsonReal = "5e-324" := by decide +kernel
example : (Binary64.ofRatio true (10 ^ 16) 1).text jsonReal = "-1e+16" := by decide
example : (Binary64.ofRatio false 123456789 1000).text jsonReal = "123456.789" := by
  decide
example : (Binary64.ofRatio false (10 ^ 20) 1).text plainReal = "1e20" := by decide
example : (Binary64.ofRatio false (2 ^ 52 + 1) 4).text jsonReal = "1125899906842624.2" := by
  decide
example : (Binary64.ofRatio false (2 ^ 52 + 1) 4).text plainReal = "1125899906842624.3" := by
  decide

end Rounded

end OpenApiModels.Number
