import OpenApiModels.Number.Binary64

/-!
# Numbers of documents

A number is an integer that fits 64 bits, or a double. `Literal.value?` turns a decimal literal
into one: the leading digits form an integer of 64 bits, which is rounded to a double and then
multiplied or divided once by a power of ten.
-/

namespace OpenApiModels.Number

-- Powers are those of the core library, whatever else is imported.
attribute [local instance (high)] instPowNat

inductive Value where
  | integer (n : Int)
  | real (x : Binary64)
deriving DecidableEq

/-- The parts of a decimal literal. -/
structure Literal where
  negative : Bool
  whole : List Char
  fraction : Option (List Char)
  exponent : Option Int

/-- The largest number of 64 bits. -/
def wordMax : Nat := 2 ^ (64 : Nat) - 1

def digitValue (c : Char) : Nat :=
  c.toNat - '0'.toNat

/-- The number that decimal digits write. -/
def digitsValue (ds : List Char) : Nat :=
  ds.foldl (fun n d => n * 10 + digitValue d) 0

def signed (negative : Bool) (n : Nat) : Int :=
  if negative then -(n : Int) else n

/-- Appends digits to `n` while the result fits 64 bits. Yields it with the number of digits
taken. -/
def appendDigits (n : Nat) : List Char → Nat × Nat
  | [] => (n, 0)
  | d :: ds =>
    let next := n * 10 + digitValue d
    if wordMax < next then (n, 0)
    else
      let (m, taken) := appendDigits next ds
      (m, taken + 1)

theorem appendDigits_le {n : Nat} (h : n ≤ wordMax) (ds : List Char) :
    (appendDigits n ds).1 ≤ wordMax := by
  induction ds generalizing n with
  | nil => exact h
  | cons d ds ih =>
    simp only [appendDigits]
    split
    · exact h
    · exact ih (by omega)

/-- The magnitude scaled by a power of ten. Quotients below `10^-308` are formed in steps.
Yields nothing when the result is too big. -/
def scaleByTen (magnitude : Nat) (e : Int) : Option Nat :=
  if e.natAbs ≤ 308 then
    let power := Binary64.magnitudeOfNat (10 ^ e.natAbs)
    if 0 ≤ e then
      let m := Binary64.mulMagnitude magnitude power
      if m < magnitudeBound then some m else none
    else some (Binary64.divMagnitude magnitude power)
  else if magnitude = 0 then some 0
  else if 0 ≤ e then none
  else
    let power := Binary64.magnitudeOfNat (10 ^ (308 : Nat))
    scaleByTen (Binary64.divMagnitude magnitude power) (e + 308)
termination_by e.natAbs

namespace Literal

/-- The double `±n · 10^e`, unless it is too big. -/
def real? (negative : Bool) (n : Nat) (e : Int) : Option Value :=
  match scaleByTen (Binary64.magnitudeOfNat n) e with
  | some m => if h : m < magnitudeBound then some (.real ⟨negative, m, h⟩) else none
  | none => none

/-- The number a literal stands for. Digits beyond 64 bits are dropped, and each dropped digit
before the point counts as a factor of ten. Zero with a minus sign is a double. -/
def value? (l : Literal) : Option Value :=
  let (n, taken) := appendDigits 0 l.whole
  let dropped : Int := l.whole.length - taken
  match l.fraction, l.exponent with
  | none, none =>
    if 0 < dropped then real? l.negative n dropped
    else if !l.negative then some (.integer n)
    else if 0 < n ∧ n ≤ 2 ^ (63 : Nat) then some (.integer (-n))
    else real? true n 0
  | fraction, exponent =>
    let (m, places) := appendDigits n (fraction.getD [])
    real? l.negative m (dropped - places + exponent.getD 0)

end Literal

end OpenApiModels.Number
