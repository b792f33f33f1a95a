import Mathlib.Data.List.TakeWhile
import Mathlib.Tactic.Ring
import OpenApiModels.Adapter
import OpenApiModels.Proofs.Number.Digits
import OpenApiModels.Proofs.Number.Rounding

/-!
# Supported versions

Whether an adapter supports a version depends on the digits before the point and on the first
digit behind it (`supports_iff_digits`), while the version numbers are integers.
`supports_iff_version` says where the two readings agree.
-/

namespace OpenApiModels

-- Powers are those of the core library, whatever else is imported.
attribute [local instance (high)] instPowNat

open Text Number

/-! ### The numbers of a version text -/

namespace Version

/-- The digits that a text starts with. -/
def wholeDigits (text : String) : List Char :=
  (trim text.toList).takeWhile Char.isDigit

/-- The digits behind the point that ends them. -/
def fractionDigits (text : String) : List Char :=
  match (trim text.toList).dropWhile Char.isDigit with
  | '.' :: rest => rest.takeWhile Char.isDigit
  | _ => []

/-- A number of 32 bits, or 0. -/
def capped (n : Nat) : Nat :=
  if n < 2 ^ (32 : Nat) then n else 0

theorem decimal?_eq (text : String) :
    decimal? text =
      if (wholeDigits text).isEmpty then none
      else some (Binary64.ofRatio false (digitsValue (wholeDigits text ++ fractionDigits text))
        (10 ^ (fractionDigits text).length)) := rfl

theorem isDigit_of_mem_fractionDigits {text : String} {c : Char} (h : c ∈ fractionDigits text) :
    c.isDigit = true := by
  unfold fractionDigits at h
  split at h
  · exact List.mem_takeWhile_imp h
  · cases h

theorem not_isBlank_of_isDigit {c : Char} (h : c.isDigit = true) : isBlank c = false := by
  have lower : 48 ≤ c.toNat := by
    simp only [Char.isDigit, Bool.and_eq_true, decide_eq_true_eq] at h
    exact h.1
  have upper : c.toNat ≤ 57 := by
    simp only [Char.isDigit, Bool.and_eq_true, decide_eq_true_eq] at h
    exact h.2
  simp only [isBlank, inRanges, List.any_cons, List.any_nil, Bool.or_false, Bool.or_eq_false_iff,
    Bool.and_eq_false_iff, decide_eq_false_iff_not]
  omega

/-- A text is its trimmed text with blanks around it. -/
theorem exists_trim (cs : List Char) :
    ∃ lead tail, cs = lead ++ (trim cs ++ tail) ∧ (∀ c ∈ lead, isBlank c = true) ∧
      (∀ c ∈ tail, isBlank c = true) ∧ ∀ c ∈ (trim cs ++ tail).head?, isBlank c = false := by
  have split : trim cs ++ ((trimStart cs).reverse.takeWhile isBlank).reverse = trimStart cs := by
    rw [trim, trimEnd, ← List.reverse_append, List.takeWhile_append_dropWhile,
      List.reverse_reverse]
  refine ⟨cs.takeWhile isBlank, ((trimStart cs).reverse.takeWhile isBlank).reverse, ?_,
    fun c => List.mem_takeWhile_imp, fun c hc => List.mem_takeWhile_imp (List.mem_reverse.1 hc), ?_⟩
  · rw [split]
    exact List.takeWhile_append_dropWhile.symm
  · rw [split]
    intro c hc
    have first := List.head?_dropWhile_not isBlank cs
    rw [trimStart] at hc
    rw [hc] at first
    simpa using first

/-! ### Pieces between points -/

theorem head?_splitAtChar (mark : Char) (cs : List Char) :
    (splitAtChar mark cs).getD 0 [] = cs.takeWhile (· != mark) := by
  induction cs with
  | nil => rfl
  | cons c cs ih =>
    rw [splitAtChar]
    by_cases cut : c = mark
    · simp [cut]
    · rw [if_neg cut, List.takeWhile_cons_of_pos (by simpa using cut), ← ih]
      split <;> rename_i pieces <;> simp [pieces]

theorem splitAtChar_append {mark : Char} {a : List Char} (h : mark ∉ a) (rest : List Char) :
    splitAtChar mark (a ++ mark :: rest) = a :: splitAtChar mark rest := by
  induction a with
  | nil => simp [splitAtChar]
  | cons c a ih =>
    rw [List.mem_cons, not_or] at h
    rw [List.cons_append, splitAtChar, if_neg (Ne.symm h.1), ih h.2]

/-- The number that a piece starts with, behind blanks, is not cut off by the end of the piece. -/
theorem leadingNumber_takeWhile {lead cs : List Char} (blank : ∀ c ∈ lead, isBlank c = true)
    (first : ∀ c ∈ cs.head?, isBlank c = false) :
    leadingNumber ((lead ++ cs).takeWhile (· != '.')) =
      capped (digitsValue (cs.takeWhile Char.isDigit)) := by
  have inPiece : ∀ c ∈ lead, (c != '.') = true := fun c hc => by
    have isPoint : c ≠ '.' := by
      rintro rfl
      exact absurd (blank _ hc) (by decide)
    simpa using isPoint
  have trimmed : trimStart (lead ++ cs.takeWhile (· != '.')) = cs.takeWhile (· != '.') := by
    rw [trimStart, List.dropWhile_append_of_pos blank]
    cases cs with
    | nil => rfl
    | cons c cs =>
      by_cases cut : (c != '.') = true
      · rw [List.takeWhile_cons_of_pos (p := (· != '.')) cut,
          List.dropWhile_cons_of_neg (by simpa using first c rfl)]
      · rw [List.takeWhile_cons_of_neg (p := (· != '.')) cut, List.dropWhile_nil]
  have digits : (fun c : Char => decide (c.isDigit = true ∧ (c != '.') = true)) = Char.isDigit := by
    funext c
    by_cases digit : c.isDigit = true
    · have : c ≠ '.' := by
        rintro rfl
        exact absurd digit (by decide)
      simp [digit, this]
    · simp [digit]
  rw [List.takeWhile_append_of_pos inPiece, leadingNumber, trimmed, List.takeWhile_takeWhile,
    digits]
  rfl

theorem takeWhile_append_of_none {p : Char → Bool} (cs : List Char) {tail : List Char}
    (none : ∀ c ∈ tail, p c = false) : (cs ++ tail).takeWhile p = cs.takeWhile p := by
  induction cs with
  | nil =>
    cases tail with
    | nil => rfl
    | cons c tail => exact List.takeWhile_cons_of_neg (by simp [none c List.mem_cons_self])
  | cons c cs ih =>
    by_cases keep : p c = true
    · rw [List.cons_append, List.takeWhile_cons_of_pos keep, List.takeWhile_cons_of_pos keep, ih]
    · rw [List.cons_append, List.takeWhile_cons_of_neg keep, List.takeWhile_cons_of_neg keep]

theorem major_ofText (text dialect : String) :
    (ofText text dialect).major = capped (digitsValue (wholeDigits text)) := by
  obtain ⟨lead, tail, split, blank, tailBlank, first⟩ := exists_trim text.toList
  have noDigit : ∀ c ∈ tail, c.isDigit = false := fun c hc => by
    by_contra digit
    rw [Bool.not_eq_false] at digit
    exact absurd (tailBlank c hc) (by rw [not_isBlank_of_isDigit digit]; decide)
  rw [ofText]
  dsimp only
  rw [head?_splitAtChar, split, leadingNumber_takeWhile blank first,
    takeWhile_append_of_none _ noDigit]
  rfl

/-- Digits directly behind the point are the minor number. -/
theorem minor_ofText {text : String} (some_ : fractionDigits text ≠ []) (dialect : String) :
    (ofText text dialect).minor = capped (digitsValue (fractionDigits text)) := by
  obtain ⟨lead, tail, split, blank, tailBlank, first⟩ := exists_trim text.toList
  have noDigit : ∀ c ∈ tail, c.isDigit = false := fun c hc => by
    by_contra digit
    rw [Bool.not_eq_false] at digit
    exact absurd (tailBlank c hc) (by rw [not_isBlank_of_isDigit digit]; decide)
  unfold fractionDigits at some_ ⊢
  split at some_
  · rename_i rest behind
    have whole := List.takeWhile_append_dropWhile (p := Char.isDigit) (l := trim text.toList)
    rw [behind] at whole
    have front : '.' ∉ lead ++ (trim text.toList).takeWhile Char.isDigit := by
      rw [List.mem_append, not_or]
      exact ⟨fun point => absurd (blank _ point) (by decide),
        fun point => absurd (List.mem_takeWhile_imp point) (by decide)⟩
    have cut : text.toList =
        lead ++ (trim text.toList).takeWhile Char.isDigit ++ '.' :: (rest ++ tail) := by
      conv => lhs; rw [split, ← whole]
      simp
    have starts : ∀ c ∈ (rest ++ tail).head?, isBlank c = false := by
      cases rest with
      | nil => exact absurd rfl some_
      | cons d rest =>
        intro c hc
        obtain rfl := Option.some.inj hc
        by_cases digit : d.isDigit = true
        · exact not_isBlank_of_isDigit digit
        · exact absurd (List.takeWhile_cons_of_neg digit) some_
    rw [ofText]
    dsimp only
    rw [cut, splitAtChar_append front, List.getD_cons_succ, head?_splitAtChar]
    have piece : leadingNumber ((rest ++ tail).takeWhile (· != '.')) =
        capped (digitsValue ((rest ++ tail).takeWhile Char.isDigit)) :=
      leadingNumber_takeWhile (List.forall_mem_nil _) starts
    rw [piece, takeWhile_append_of_none _ noDigit]
  · exact absurd rfl some_

end Version

/-! ### Which numbers are in range -/

namespace Adapter

/-- The minor version that an adapter is for. -/
def minor : Adapter → Nat
  | openapi30 => 0
  | openapi31 => 1

/-- A decimal number of which the fraction has few digits that are not zero is less than `a`
tenths by more than rounding makes up for. -/
theorem scaled_le_of_lt {a w f k : Nat} (fits : f < 2 ^ (32 : Nat))
    (below : (w * 10 ^ k + f) * 10 < a * 10 ^ k) :
    (w * 10 ^ k + f) * 10 ^ (11 : Nat) ≤ (a * 10 ^ (10 : Nat) - 1) * 10 ^ k := by
  have product : (a * 10 ^ (10 : Nat) - 1) * 10 ^ k = a * 10 ^ k * 10 ^ (10 : Nat) - 10 ^ k := by
    rw [Nat.sub_mul, Nat.one_mul, Nat.mul_right_comm]
  rw [product]
  rcases Nat.lt_or_ge k 11 with short | long
  · have unit : 10 ^ k ≤ 10 ^ (10 : Nat) := Nat.pow_le_pow_right (by decide) (Nat.le_of_lt_succ short)
    omega
  · have unit : 10 ^ (11 : Nat) ≤ 10 ^ k := Nat.pow_le_pow_right (by decide) long
    have tenths : 10 * w < a := by
      refine Nat.lt_of_mul_lt_mul_right (a := 10 ^ k) ?_
      rw [Nat.mul_assoc]
      omega
    have room := Nat.mul_le_mul_right (10 ^ k) tenths
    rw [Nat.succ_mul, Nat.mul_assoc] at room
    omega

/-- Up to rounding, a decimal number is at least `a` tenths just if its first two digits are. -/
theorem nearestMagnitude_le_iff {a w f k : Nat} (ha : a = 30 ∨ a = 31 ∨ a = 32)
    (fits : f < 2 ^ (32 : Nat)) :
    Binary64.nearestMagnitude a 10 ≤ Binary64.nearestMagnitude (w * 10 ^ k + f) (10 ^ k) ↔
      a * 10 ^ k ≤ (w * 10 ^ k + f) * 10 := by
  have positive : 0 < 10 ^ k := Nat.pow_pos (by decide)
  constructor
  · intro le
    by_contra below
    rw [Nat.not_le] at below
    have strict : Binary64.nearestMagnitude (a * 10 ^ (10 : Nat) - 1) (10 ^ (11 : Nat)) <
        Binary64.nearestMagnitude a 10 := by
      rcases ha with rfl | rfl | rfl <;> decide
    have reached := le.trans
      (Binary64.nearestMagnitude_mono positive (by decide) (scaled_le_of_lt fits below))
    exact absurd reached (Nat.not_le.2 strict)
  · exact Binary64.nearestMagnitude_mono (by decide) positive

open Version

theorem supports_iff_range (adapter : Adapter) {text : String} (some_ : wholeDigits text ≠ []) :
    adapter.supports text = true ↔
      adapter.range.1 ≤ Binary64.nearestMagnitude
          (digitsValue (wholeDigits text ++ fractionDigits text))
          (10 ^ (fractionDigits text).length) ∧
        Binary64.nearestMagnitude (digitsValue (wholeDigits text ++ fractionDigits text))
          (10 ^ (fractionDigits text).length) < adapter.range.2 := by
  have finite : adapter.range.2 ≤ magnitudeBound := by
    cases adapter <;> decide
  rw [supports, decimal?_eq, if_neg (by simpa using some_), Binary64.ofRatio,
    Binary64.ofMagnitude]
  generalize Binary64.nearestMagnitude _ (10 ^ (fractionDigits text).length) = m
  by_cases small : m < magnitudeBound
  · simp [dif_pos small]
  · rw [dif_neg small]
    refine ⟨fun no => Bool.noConfusion no, fun inRange => absurd inRange.2 ?_⟩
    omega

/-- The digits before the point and the first one behind it decide which adapter supports a
version. -/
theorem supports_iff_digits (adapter : Adapter) {text : String}
    (fits : digitsValue (fractionDigits text) < 2 ^ (32 : Nat)) :
    adapter.supports text = true ↔
      digitsValue (wholeDigits text) = 3 ∧
        digitsValue ((fractionDigits text).take 1) = adapter.minor := by
  have digits : ∀ d ∈ fractionDigits text, d.isDigit = true :=
    fun d => isDigit_of_mem_fractionDigits
  obtain ⟨least, below⟩ := digitsValue_take_one digits
  have digit : digitsValue ((fractionDigits text).take 1) < 10 := by
    have one : digitsValue ((fractionDigits text).take 1) <
        10 ^ ((fractionDigits text).take 1).length :=
      digitsValue_lt fun d hd => digits d (List.mem_of_mem_take hd)
    exact Nat.lt_of_lt_of_le one
      (Nat.pow_le_pow_right (by decide) (List.length_take_le 1 _))
  by_cases empty : wholeDigits text = []
  · have unread : adapter.supports text = false := by
      rw [supports, decimal?_eq, empty]
      rfl
    rw [unread, empty]
    exact ⟨fun no => Bool.noConfusion no, fun three => absurd three.1 (by decide)⟩
  · rw [supports_iff_range adapter empty, digitsValue_append]
    generalize digitsValue (wholeDigits text) = w at *
    generalize digitsValue (fractionDigits text) = f at *
    generalize digitsValue ((fractionDigits text).take 1) = u at *
    generalize (fractionDigits text).length = k at *
    have positive : 0 < 10 ^ k := Nat.pow_pos (by decide)
    have reaches : ∀ a, a = 30 ∨ a = 31 ∨ a = 32 →
        (Binary64.nearestMagnitude a 10 ≤ Binary64.nearestMagnitude (w * 10 ^ k + f) (10 ^ k) ↔
          a ≤ 10 * w + u) := fun a ha => by
      rw [nearestMagnitude_le_iff ha fits]
      constructor
      · intro le
        refine Nat.le_of_lt_succ (Nat.lt_of_mul_lt_mul_right (a := 10 ^ k) ?_)
        calc a * 10 ^ k ≤ (w * 10 ^ k + f) * 10 := le
          _ < 10 * (w * 10 ^ k) + (u + 1) * 10 ^ k := by omega
          _ = (10 * w + u).succ * 10 ^ k := by rw [Nat.succ_eq_add_one]; ring
      · intro le
        calc a * 10 ^ k ≤ (10 * w + u) * 10 ^ k := Nat.mul_le_mul_right _ le
          _ = 10 * (w * 10 ^ k) + u * 10 ^ k := by ring
          _ ≤ (w * 10 ^ k + f) * 10 := by omega
    cases adapter with
    | openapi30 =>
      have from30 : range openapi30 =
          (Binary64.nearestMagnitude 30 10, Binary64.nearestMagnitude 31 10) := by decide
      rw [from30, reaches 30 (by simp), ← Nat.not_le, reaches 31 (by simp)]
      simp only [minor]
      omega
    | openapi31 =>
      rw [range, reaches 31 (by simp), ← Nat.not_le, reaches 32 (by simp)]
      simp only [minor]
      omega

/-! ### The version numbers -/

theorem wholeDigits_ne_nil_iff (text : String) :
    wholeDigits text ≠ [] ↔ (trim text.toList).head?.any Char.isDigit = true := by
  unfold wholeDigits
  cases trim text.toList with
  | nil => simp
  | cons c cs => by_cases digit : c.isDigit = true <;> simp [digit]

/-- Where the digits behind the point are a number of 32 bits, the adapters take a version as its
numbers say just if it is not a version 3, or its minor number is 0, has one digit or starts with
2 or more. -/
theorem supports_iff_version (text dialect : String)
    (fits : digitsValue (fractionDigits text) < 2 ^ (32 : Nat)) :
    ((openapi30.supports text = true ↔
        (trim text.toList).head?.any Char.isDigit = true ∧
          ((ofText text dialect).major, (ofText text dialect).minor) = (3, 0)) ∧
      (openapi31.supports text = true ↔
        ((ofText text dialect).major, (ofText text dialect).minor) = (3, 1))) ↔
    ((ofText text dialect).major = 3 →
      (ofText text dialect).minor = 0 ∨ (fractionDigits text).length = 1 ∨
        2 ≤ digitsValue ((fractionDigits text).take 1)) := by
  have digits : ∀ d ∈ fractionDigits text, d.isDigit = true :=
    fun d => isDigit_of_mem_fractionDigits
  have three : (ofText text dialect).major = 3 ↔ digitsValue (wholeDigits text) = 3 := by
    rw [major_ofText, capped]
    split <;> omega
  have minor : fractionDigits text ≠ [] →
      (ofText text dialect).minor = digitsValue (fractionDigits text) := fun some_ => by
    rw [minor_ofText some_, capped, if_pos fits]
  rw [supports_iff_digits _ fits, supports_iff_digits _ fits, ← wholeDigits_ne_nil_iff,
    Prod.mk.injEq, Prod.mk.injEq, three]
  by_cases other : digitsValue (wholeDigits text) = 3
  · have starts : wholeDigits text ≠ [] := fun none => by
      rw [none] at other
      exact absurd other (by decide)
    simp only [other, starts, Adapter.minor, true_and, ne_eq, not_false_eq_true, true_imp_iff]
    obtain ⟨least, below⟩ := digitsValue_take_one digits
    rcases none_or_some : fractionDigits text with _ | ⟨d, ds⟩
    · have first : digitsValue (([] : List Char).take 1) = 0 := rfl
      rw [first, List.length_nil]
      clear least below
      omega
    · rw [minor (by rw [none_or_some]; exact List.cons_ne_nil d ds)]
      rw [none_or_some] at least below ⊢
      rcases ds with _ | ⟨e, ds⟩
      · simp
      · -- two digits or more: the number is at least ten times the first one
        have unit : 100 ≤ 10 ^ (d :: e :: ds).length := by
          rw [List.length_cons, List.length_cons, Nat.pow_succ, Nat.pow_succ]
          have := Nat.pow_pos (n := ds.length) (show 0 < 10 by decide)
          omega
        have large : digitsValue ((d :: e :: ds).take 1) * 100 ≤ 10 * digitsValue (d :: e :: ds) :=
          (Nat.mul_le_mul_left _ unit).trans least
        have short : (d :: e :: ds).length ≠ 1 := by simp
        simp only [short, false_or]
        omega
  · simp [other]

theorem supports_iff_version_release :
    digitsValue (fractionDigits "3.1.0") < 2 ^ (32 : Nat) ∧
      (openapi31.supports "3.1.0" = true ↔
        ((ofText "3.1.0" "").major, (ofText "3.1.0" "").minor) = (3, 1)) :=
  ⟨by decide, ((supports_iff_version "3.1.0" "" (by decide)).2 (by decide)).2⟩

/-- A minor number of two digits is taken for its first digit. -/
theorem minor_ten_supported :
    ¬(openapi31.supports "3.10" = true ↔
      ((ofText "3.10" "").major, (ofText "3.10" "").minor) = (3, 1)) := by
  decide

end Adapter

end OpenApiModels
