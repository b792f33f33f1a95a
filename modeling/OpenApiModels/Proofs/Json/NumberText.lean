import OpenApiModels.Json.Printer
import OpenApiModels.Proofs.Number.RealText

/-!
# Texts of numbers

A number is written with digits, signs, a point and an exponent mark, and with one of them at least
(`isNumeral_of_mem_numberText`, `numberText_ne_nil`). Numbers are told apart by their texts
(`numberText_injective`).
-/

namespace OpenApiModels.Json

open Number

/-- A character of the text of a number. -/
def isNumeral (c : Char) : Bool :=
  c.isDigit || c == '-' || c == '+' || c == '.' || c == 'e'

theorem isNumeral_of_isDigit {c : Char} (h : c.isDigit = true) : isNumeral c = true := by
  simp [isNumeral, h]

/-! ### Digits -/

theorem isDigit_of_mem_shortest {tie : Tie} {magnitude : Nat} {c : Char}
    (h : c ∈ (Binary64.shortest tie magnitude).digits) : c.isDigit = true := by
  unfold Binary64.shortest at h
  dsimp only at h
  split at h
  · rename_i d found
    obtain ⟨n, -, onGrid⟩ := List.exists_of_findSome?_eq_some found
    obtain ⟨m, -, rfl⟩ := Option.map_eq_some_iff.1 onGrid
    have kept := (List.dropWhile_sublist _).mem (List.mem_reverse.1 h)
    exact isDigit_of_mem_toDigits (List.mem_reverse.1 kept)
  · exact isDigit_of_mem_toDigits h

theorem all_isNumeral_of_digits {cs : List Char} (h : ∀ c ∈ cs, c.isDigit = true) :
    cs.all isNumeral = true :=
  List.all_eq_true.2 fun c hc => isNumeral_of_isDigit (h c hc)

theorem all_isNumeral_toDigits (n : Nat) : (Nat.toDigits 10 n).all isNumeral = true :=
  all_isNumeral_of_digits fun _ => isDigit_of_mem_toDigits

/-! ### Doubles -/

section Write

variable {d : Digits} (digits : ∀ c ∈ d.digits, c.isDigit = true)

include digits

theorem all_isNumeral_of_sublist {cs : List Char} (sub : cs.Sublist d.digits) :
    cs.all isNumeral = true :=
  all_isNumeral_of_digits fun c hc => digits c (sub.mem hc)

theorem all_isNumeral_positional : (RealFormat.positional d).all isNumeral = true := by
  have zeros (n : Nat) : (List.replicate n '0').all isNumeral = true := by
    refine all_isNumeral_of_digits fun c hc => ?_
    rw [(List.mem_replicate.1 hc).2]
    decide
  have zero : isNumeral '0' = true := by decide
  have point : isNumeral '.' = true := by decide
  unfold RealFormat.positional
  dsimp only
  split
  · have all := all_isNumeral_of_sublist digits (.refl _)
    simp only [List.all_append, List.all_cons, zero, point, zeros, all, Bool.and_self]
  · have whole := all_isNumeral_of_sublist digits (List.take_sublist d.point.toNat _)
    have fraction : (if (d.digits.drop d.point.toNat).isEmpty then ['0']
        else d.digits.drop d.point.toNat).all isNumeral = true := by
      split
      · decide
      · exact all_isNumeral_of_sublist digits (List.drop_sublist _ _)
    simp only [List.all_append, List.all_cons, point, zeros, whole, fraction, Bool.and_self]

theorem all_isNumeral_scientific (plusSign : Bool) :
    (RealFormat.scientific plusSign d).all isNumeral = true := by
  have first := all_isNumeral_of_sublist digits (List.take_sublist 1 _)
  have fraction : (if d.digits.length ≤ 1 then [] else '.' :: d.digits.drop 1).all isNumeral =
      true := by
    split
    · rfl
    · have others := all_isNumeral_of_sublist digits (List.drop_sublist 1 _)
      have point : isNumeral '.' = true := by decide
      rw [List.all_cons, point, others, Bool.and_self]
  have sign : (if d.point - 1 < 0 then ['-'] else if plusSign then ['+'] else []).all isNumeral =
      true := by
    split
    · decide
    split <;> decide
  have letter : isNumeral 'e' = true := by decide
  unfold RealFormat.scientific
  simp only [List.all_append, List.all_cons, first, fraction, letter, sign,
    all_isNumeral_toDigits, Bool.and_self]

end Write

theorem positional_ne_nil (d : Digits) : RealFormat.positional d ≠ [] := by
  unfold RealFormat.positional
  dsimp only
  split <;> simp

theorem scientific_ne_nil (plusSign : Bool) (d : Digits) :
    RealFormat.scientific plusSign d ≠ [] := by
  simp [RealFormat.scientific]

/-! ### Numbers -/

theorem all_isNumeral_numberText (n : Value) : (numberText n).all isNumeral = true := by
  have minus {negative : Prop} [Decidable negative] :
      (if negative then ['-'] else []).all isNumeral = true := by
    split <;> decide
  cases n with
  | integer n =>
    change ((if n < 0 then ['-'] else []) ++ Nat.toDigits 10 n.natAbs).all isNumeral = true
    rw [List.all_append, minus, all_isNumeral_toDigits, Bool.and_self]
  | real x =>
    unfold numberText RealFormat.write
    rw [List.all_append, minus, Bool.true_and]
    split
    · decide
    · dsimp only
      split
      · exact all_isNumeral_positional fun _ => isDigit_of_mem_shortest
      · exact all_isNumeral_scientific (fun _ => isDigit_of_mem_shortest) _

theorem isNumeral_of_mem_numberText {n : Value} {c : Char} (h : c ∈ numberText n) :
    isNumeral c = true :=
  List.all_eq_true.1 (all_isNumeral_numberText n) c h

theorem numberText_ne_nil (n : Value) : numberText n ≠ [] := by
  cases n with
  | integer n => simp [numberText, integerText, Nat.toDigits_ne_nil]
  | real x =>
    unfold numberText RealFormat.write
    refine List.append_ne_nil_of_right_ne_nil _ ?_
    split
    · simp
    · dsimp only
      split
      · exact positional_ne_nil _
      · exact scientific_ne_nil _ _

theorem integerText_injective {m n : Int} (h : integerText m = integerText n) : m = n := by
  have plain (k : Nat) (cs : List Char) : Nat.toDigits 10 k ≠ '-' :: cs := by
    intro starts
    have minus : ('-' : Char).isDigit = true :=
      isDigit_of_mem_toDigits (n := k) (by rw [starts]; exact List.mem_cons_self)
    exact absurd minus (by decide)
  unfold integerText at h
  split at h <;> split at h
  · have := toDigits_injective (List.append_cancel_left h)
    omega
  · exact absurd h.symm (plain _ _)
  · exact absurd h (plain _ _)
  · have := toDigits_injective (List.append_cancel_left h)
    omega

theorem numberText_injective {m n : Value} (h : numberText m = numberText n) : m = n := by
  have differ (k : Int) (x : Binary64) : numberText (.integer k) ≠ numberText (.real x) := by
    have plain {c : Char} (hc : c ∈ numberText (.integer k)) : c = '-' ∨ c.isDigit = true := by
      rcases List.mem_append.1 hc with sign | digit
      · split at sign
        · exact .inl (List.mem_singleton.1 sign)
        · cases sign
      · exact .inr (isDigit_of_mem_toDigits digit)
    intro same
    rw [same] at plain
    rcases RealFormat.exists_mark_write jsonReal x with mark | mark
    · exact absurd (plain mark) (by decide)
    · exact absurd (plain mark) (by decide)
  cases m with
  | integer k =>
    cases n with
    | integer l => exact congrArg Value.integer (integerText_injective h)
    | real y => exact absurd h (differ k y)
  | real x =>
    cases n with
    | integer l => exact absurd h.symm (differ l x)
    | real y => exact congrArg Value.real (RealFormat.write_injective jsonReal h)

end OpenApiModels.Json
