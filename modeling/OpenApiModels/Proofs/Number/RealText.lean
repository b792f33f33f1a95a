import Mathlib.Data.List.Basic
import OpenApiModels.Proofs.Number.Shortest

/-!
# Doubles told apart by their texts

The text of a double shows its digits, where their point is and its sign, in positional notation as
in that with an exponent. Since the digits are those of no other double, no other one has the same
text (`write_injective`).
-/

namespace OpenApiModels.Number

open Binary64

namespace RealFormat

theorem digits_ext {d d' : Digits} (digits : d.digits = d'.digits) (point : d.point = d'.point) :
    d = d' := by
  cases d
  cases d'
  exact congr (congrArg Digits.mk digits) point

theorem exists_first {d : Digits} (h : IsTrimmed d.digits) :
    ∃ c cs, d.digits = c :: cs ∧ c ≠ '0' := by
  obtain ⟨c, cs, digits⟩ := List.exists_cons_of_ne_nil h.ne_nil
  refine ⟨c, cs, digits, fun zero => h.head ?_⟩
  rw [digits, zero, List.head?_cons]

/-- Trimmed digits are told from the zeros around them. -/
theorem eq_of_zeros_around {ds ds' : List Char} (h : IsTrimmed ds) (h' : IsTrimmed ds')
    {a a' b b' : Nat}
    (same : List.replicate a '0' ++ ds ++ List.replicate b '0' =
      List.replicate a' '0' ++ ds' ++ List.replicate b' '0') : ds = ds' := by
  have trim {ds : List Char} (h : IsTrimmed ds) (a b : Nat) :
      ((List.replicate a '0' ++ ds ++ List.replicate b '0').dropWhile (· == '0')).rdropWhile
        (· == '0') = ds := by
    obtain ⟨c, cs, rfl⟩ := List.exists_cons_of_ne_nil h.ne_nil
    have first : c ≠ '0' := fun zero => h.head (by rw [zero, List.head?_cons])
    rw [List.append_assoc, List.dropWhile_append_of_pos (by simp), List.cons_append,
      List.dropWhile_cons_of_neg (by simpa using first), ← List.cons_append]
    induction b with
    | zero =>
      rw [List.replicate_zero, List.append_nil, List.rdropWhile_eq_self_iff]
      intro some last
      refine h.last ?_
      rw [List.getLast?_eq_some_getLast some, beq_iff_eq.1 last]
    | succ b ih =>
      rw [List.replicate_succ', ← List.append_assoc, List.rdropWhile_concat_pos _ _ _ (by simp),
        ih]
  rw [← trim h a b, same, trim h']

/-! ### Positional notation -/

/-- What stands before the point. -/
def wholePart (d : Digits) : List Char :=
  if d.point ≤ 0 then ['0']
  else d.digits.take d.point.toNat ++ List.replicate (d.point.toNat - d.digits.length) '0'

/-- What stands behind the point. -/
def fractionPart (d : Digits) : List Char :=
  if d.point ≤ 0 then List.replicate (-d.point).toNat '0' ++ d.digits
  else if (d.digits.drop d.point.toNat).isEmpty then ['0'] else d.digits.drop d.point.toNat

theorem positional_eq (d : Digits) : positional d = wholePart d ++ '.' :: fractionPart d := by
  unfold positional wholePart fractionPart
  split
  · rfl
  · rfl

/-- The digits before and behind the point are those of the number between zeros. Those at the end
make up for the point, of which there is no more than one place. -/
theorem exists_zeros_around (d : Digits) : ∃ a b,
    wholePart d ++ fractionPart d = List.replicate a '0' ++ d.digits ++ List.replicate b '0' ∧
      d.point + (fractionPart d).length = d.digits.length + b ∧
        (b = 0 ∨ (d.digits.length + b : Int) = d.point + 1) := by
  unfold wholePart fractionPart
  split
  · refine ⟨(-d.point).toNat + 1, 0, by simp [List.replicate_succ], ?_, .inl rfl⟩
    rw [List.length_append, List.length_replicate]
    omega
  · split
    · rename_i none
      rw [List.isEmpty_iff, List.drop_eq_nil_iff] at none
      refine ⟨0, d.point.toNat - d.digits.length + 1, ?_, ?_, .inr (by omega)⟩
      · rw [List.take_of_length_le none, List.replicate_succ']
        simp
      · rw [List.length_singleton]
        omega
    · rename_i some
      rw [List.isEmpty_iff, List.drop_eq_nil_iff, not_le] at some
      refine ⟨0, 0, ?_, ?_, .inl rfl⟩
      · rw [Nat.sub_eq_zero_of_le some.le]
        simp
      · rw [List.length_drop]
        omega

theorem isDigit_of_mem_parts {d : Digits} (h : IsTrimmed d.digits) {c : Char}
    (hc : c ∈ wholePart d ++ fractionPart d) :
    c.isDigit = true := by
  obtain ⟨a, b, text, -⟩ := exists_zeros_around d
  rw [text, List.mem_append, List.mem_append, List.mem_replicate, List.mem_replicate] at hc
  rcases hc with (⟨-, rfl⟩ | inside) | ⟨-, rfl⟩
  · decide
  · exact h.digit c inside
  · decide

theorem wholePart_ne_nil {d : Digits} (h : IsTrimmed d.digits) : wholePart d ≠ [] := by
  obtain ⟨c, cs, digits, -⟩ := exists_first h
  unfold wholePart
  split
  · exact List.cons_ne_nil _ _
  · obtain ⟨n, whole⟩ : ∃ n, d.point.toNat = n + 1 := ⟨d.point.toNat - 1, by omega⟩
    simp [digits, whole]

theorem fractionPart_ne_nil {d : Digits} (h : IsTrimmed d.digits) : fractionPart d ≠ [] := by
  unfold fractionPart
  split
  · exact List.append_ne_nil_of_right_ne_nil _ h.ne_nil
  split
  · exact List.cons_ne_nil _ _
  · rename_i some
    rwa [List.isEmpty_iff] at some

theorem length_wholePart {d : Digits} (positive : 0 < d.point) :
    (wholePart d).length = d.point.toNat := by
  rw [wholePart, if_neg (by omega), List.length_append, List.length_take, List.length_replicate]
  omega

/-- A number that is less than one starts with zero, the others do not. -/
theorem head?_wholePart {d : Digits} (h : IsTrimmed d.digits) :
    (wholePart d).head? = some '0' ↔ d.point ≤ 0 := by
  obtain ⟨c, cs, digits, first⟩ := exists_first h
  unfold wholePart
  split
  · simpa
  · rename_i positive
    obtain ⟨n, whole⟩ : ∃ n, d.point.toNat = n + 1 := ⟨d.point.toNat - 1, by omega⟩
    simpa [digits, whole, positive] using first

theorem positional_injective {d d' : Digits} (h : IsTrimmed d.digits) (h' : IsTrimmed d'.digits)
    (same : positional d = positional d') : d = d' := by
  have noPoint {d : Digits} (h : IsTrimmed d.digits) : '.' ∉ wholePart d ++ fractionPart d :=
    fun point => absurd (isDigit_of_mem_parts h point) (by decide)
  obtain ⟨inWhole, inFraction⟩ := not_or.1 (List.mem_append.not.1 (noPoint h))
  rw [positional_eq, positional_eq, List.append_cons_inj_of_notMem inWhole inFraction] at same
  obtain ⟨whole, -, fraction⟩ := same
  obtain ⟨a, b, text, -⟩ := exists_zeros_around d
  obtain ⟨a', b', text', -⟩ := exists_zeros_around d'
  rw [whole, fraction, text'] at text
  have digits : d.digits = d'.digits := eq_of_zeros_around h h' text.symm
  have point : d.point = d'.point := by
    have sides : d.point ≤ 0 ↔ d'.point ≤ 0 := by
      rw [← head?_wholePart h, whole, head?_wholePart h']
    by_cases small : d.point ≤ 0
    · have small' := sides.1 small
      rw [fractionPart, fractionPart, if_pos small, if_pos small', digits] at fraction
      have length := congrArg List.length (List.append_cancel_right fraction)
      rw [List.length_replicate, List.length_replicate] at length
      omega
    · have big' := sides.not.1 small
      have length := congrArg List.length whole
      rw [length_wholePart (by omega), length_wholePart (by omega)] at length
      omega
  exact digits_ext digits point

/-! ### Notation with an exponent -/

/-- The digits, with a point behind the first if there are others. -/
def mantissa (d : Digits) : List Char :=
  d.digits.take 1 ++ if d.digits.length ≤ 1 then [] else '.' :: d.digits.drop 1

/-- The exponent of ten with its sign. -/
def exponentText (plusSign : Bool) (e : Int) : List Char :=
  (if e < 0 then ['-'] else if plusSign then ['+'] else []) ++ Nat.toDigits 10 e.natAbs

theorem scientific_eq (plusSign : Bool) (d : Digits) :
    scientific plusSign d = mantissa d ++ 'e' :: exponentText plusSign (d.point - 1) := by
  simp [scientific, mantissa, exponentText]

theorem filter_mantissa {d : Digits} (h : IsTrimmed d.digits) :
    (mantissa d).filter (· != '.') = d.digits := by
  have kept {ds : List Char} (sub : ds ⊆ d.digits) : ds.filter (· != '.') = ds := by
    refine List.filter_eq_self.2 fun c hc => ?_
    rw [bne_iff_ne]
    rintro rfl
    exact absurd (h.digit _ (sub hc)) (by decide)
  unfold mantissa
  rw [List.filter_append, kept (List.take_subset _ _)]
  split
  · rename_i short
    rw [List.filter_nil, List.append_nil, List.take_of_length_le short]
  · rw [List.filter_cons_of_neg (by decide), kept (List.drop_subset _ _),
      List.take_append_drop]

theorem noMark_mantissa {d : Digits} (h : IsTrimmed d.digits) : 'e' ∉ mantissa d := by
  intro mark
  have digit : 'e' ∈ d.digits := filter_mantissa h ▸ List.mem_filter.2 ⟨mark, by decide⟩
  exact absurd (h.digit _ digit) (by decide)

theorem noMark_exponentText (plusSign : Bool) (e : Int) : 'e' ∉ exponentText plusSign e := by
  intro mark
  rcases List.mem_append.1 mark with sign | digit
  · split at sign
    · exact absurd sign (by decide)
    · split at sign <;> exact absurd sign (by decide)
  · exact absurd (isDigit_of_mem_toDigits digit) (by decide)

theorem exponentText_injective {plusSign : Bool} {e e' : Int}
    (same : exponentText plusSign e = exponentText plusSign e') : e = e' := by
  have noMinus (n : Nat) (tail : List Char) :
      (if plusSign then ['+'] else []) ++ Nat.toDigits 10 n ≠ '-' :: tail := by
    intro minus
    cases plusSign with
    | true => cases minus
    | false =>
      have digit : ('-' : Char) ∈ Nat.toDigits 10 n := by
        rw [show Nat.toDigits 10 n = '-' :: tail from minus]
        exact List.mem_cons_self
      exact absurd (isDigit_of_mem_toDigits digit) (by decide)
  unfold exponentText at same
  by_cases negative : e < 0 <;> by_cases negative' : e' < 0 <;>
    simp only [negative, negative', if_true, if_false] at same
  · have := toDigits_injective (List.append_cancel_left same)
    omega
  · exact absurd same.symm (noMinus _ _)
  · exact absurd same (noMinus _ _)
  · have := toDigits_injective (List.append_cancel_left same)
    omega

theorem scientific_injective {d d' : Digits} (h : IsTrimmed d.digits) (h' : IsTrimmed d'.digits)
    {plusSign : Bool} (same : scientific plusSign d = scientific plusSign d') : d = d' := by
  rw [scientific_eq, scientific_eq,
    List.append_cons_inj_of_notMem (noMark_mantissa h) (noMark_exponentText _ _)] at same
  obtain ⟨mantissas, -, exponents⟩ := same
  have digits : d.digits = d'.digits := by
    rw [← filter_mantissa h, mantissas, filter_mantissa h']
  have point := exponentText_injective exponents
  exact digits_ext digits (by omega)

/-! ### Doubles -/

/-- The text of digits, in the one notation or the other. -/
def digitsText (format : RealFormat) (d : Digits) : List Char :=
  if format.lowest < d.point ∧ d.point ≤ format.beyond then positional d
  else scientific format.plusSign d

theorem digitsText_injective (format : RealFormat) {d d' : Digits} (h : IsTrimmed d.digits)
    (h' : IsTrimmed d'.digits) (same : digitsText format d = digitsText format d') : d = d' := by
  have differ {d d' : Digits} (h : IsTrimmed d.digits) :
      positional d ≠ scientific format.plusSign d' := by
    intro same
    have mark : 'e' ∈ positional d := by
      rw [same, scientific_eq]
      exact List.mem_append_right _ List.mem_cons_self
    rw [positional_eq, List.mem_append, List.mem_cons] at mark
    obtain whole | point | fraction := mark
    · exact absurd (isDigit_of_mem_parts h (List.mem_append_left _ whole)) (by decide)
    · exact absurd point (by decide)
    · exact absurd (isDigit_of_mem_parts h (List.mem_append_right _ fraction)) (by decide)
  unfold digitsText at same
  split at same <;> split at same
  · exact positional_injective h h' same
  · exact absurd same (differ h)
  · exact absurd same.symm (differ h')
  · exact scientific_injective h h' same

/-- The text starts with a digit, and shows one that is not zero. -/
theorem exists_start_digitsText (format : RealFormat) {d : Digits} (h : IsTrimmed d.digits) :
    (∃ c cs, digitsText format d = c :: cs ∧ c.isDigit = true) ∧
      ∃ c ∈ digitsText format d, c.isDigit = true ∧ c ≠ '0' := by
  obtain ⟨first, more, digits, nonzero⟩ := exists_first h
  have digit := h.digit first (digits ▸ List.mem_cons_self)
  unfold digitsText
  split
  · have parts {c : Char} (hc : c ∈ wholePart d ++ fractionPart d) : c ∈ positional d := by
      rw [positional_eq, List.mem_append, List.mem_cons]
      exact (List.mem_append.1 hc).imp_right .inr
    refine ⟨?_, first, parts ?_, digit, nonzero⟩
    · obtain ⟨c, cs, whole⟩ := List.exists_cons_of_ne_nil (wholePart_ne_nil h)
      refine ⟨c, cs ++ '.' :: fractionPart d, by rw [positional_eq, whole]; rfl, ?_⟩
      exact isDigit_of_mem_parts h (List.mem_append_left _ (whole ▸ List.mem_cons_self))
    · obtain ⟨a, b, text, -⟩ := exists_zeros_around d
      rw [text, digits]
      exact List.mem_append_left _ (List.mem_append_right _ List.mem_cons_self)
  · have text : ∃ tail, scientific format.plusSign d = first :: tail := by
      rw [scientific_eq, mantissa, digits]
      exact ⟨_, rfl⟩
    obtain ⟨tail, text⟩ := text
    exact ⟨⟨first, tail, text, digit⟩, first, text ▸ List.mem_cons_self, digit, nonzero⟩

/-- The text of a magnitude. -/
def magnitudeText (format : RealFormat) (magnitude : Nat) : List Char :=
  if magnitude = 0 then ['0', '.', '0'] else digitsText format (shortest format.tie magnitude)

theorem write_eq (format : RealFormat) (x : Binary64) :
    format.write x =
      (if x.negative then ['-'] else []) ++ magnitudeText format x.magnitude := rfl

theorem magnitudeText_injective (format : RealFormat) {m m' : Nat}
    (same : magnitudeText format m = magnitudeText format m') : m = m' := by
  have zero {m : Nat} (h : m ≠ 0) :
      digitsText format (shortest format.tie m) ≠ ['0', '.', '0'] := by
    intro text
    have trimmed := isTrimmed_shortest format.tie (Nat.pos_of_ne_zero h)
    obtain ⟨-, c, hc, digit, nonzero⟩ := exists_start_digitsText format trimmed
    rw [text] at hc
    simp only [List.mem_cons, List.not_mem_nil, or_false] at hc
    obtain rfl | rfl | rfl := hc
    · exact nonzero rfl
    · exact absurd digit (by decide)
    · exact nonzero rfl
  unfold magnitudeText at same
  split at same <;> split at same
  · omega
  · rename_i h
    exact absurd same.symm (zero h)
  · rename_i h _
    exact absurd same (zero h)
  · rename_i h h'
    have pos := Nat.pos_of_ne_zero h
    have pos' := Nat.pos_of_ne_zero h'
    exact shortest_injective pos pos' (digitsText_injective format (isTrimmed_shortest _ pos)
      (isTrimmed_shortest _ pos') same)

theorem noMinus_magnitudeText (format : RealFormat) (m : Nat) (cs : List Char) :
    magnitudeText format m ≠ '-' :: cs := by
  intro minus
  unfold magnitudeText at minus
  split at minus
  · cases minus
  · rename_i h
    obtain ⟨⟨c, cs, text, digit⟩, -⟩ :=
      exists_start_digitsText format (isTrimmed_shortest format.tie (Nat.pos_of_ne_zero h))
    rw [text] at minus
    exact absurd ((List.cons.inj minus).1 ▸ digit) (by decide)

theorem write_injective (format : RealFormat) {x y : Binary64}
    (same : format.write x = format.write y) : x = y := by
  rw [write_eq, write_eq] at same
  have parts : x.negative = y.negative ∧ x.magnitude = y.magnitude := by
    cases signX : x.negative <;> cases signY : y.negative <;>
      simp only [signX, signY, if_true, Bool.false_eq_true, if_false] at same
    · exact ⟨rfl, magnitudeText_injective format same⟩
    · exact absurd same (noMinus_magnitudeText format _ _)
    · exact absurd same.symm (noMinus_magnitudeText format _ _)
    · exact ⟨rfl, magnitudeText_injective format (List.cons.inj same).2⟩
  obtain ⟨negative, magnitude, finite⟩ := x
  obtain ⟨negative', magnitude', finite'⟩ := y
  obtain ⟨rfl, rfl⟩ := parts
  rfl

/-- A double is written with a point or an exponent. -/
theorem exists_mark_write (format : RealFormat) (x : Binary64) :
    '.' ∈ format.write x ∨ 'e' ∈ format.write x := by
  have mark : '.' ∈ magnitudeText format x.magnitude ∨ 'e' ∈ magnitudeText format x.magnitude := by
    unfold magnitudeText digitsText
    split
    · exact .inl (List.mem_cons_of_mem _ List.mem_cons_self)
    · split
      · rw [positional_eq]
        exact .inl (List.mem_append_right _ List.mem_cons_self)
      · rw [scientific_eq]
        exact .inr (List.mem_append_right _ List.mem_cons_self)
  rw [write_eq]
  exact mark.imp (List.mem_append_right _) (List.mem_append_right _)

end RealFormat

end OpenApiModels.Number
