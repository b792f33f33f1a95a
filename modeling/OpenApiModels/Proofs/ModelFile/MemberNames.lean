import Mathlib.Data.List.Nodup
import Mathlib.Data.List.Perm.Subperm
import Mathlib.Data.Nat.Find
import OpenApiModels.Proofs.Json.NumberText
import OpenApiModels.Proofs.ModelFile.EnumValues

/-!
# Names of enum members

A member gets the first of its names that is not used yet: the one made from its value, then that
name with the numbers from 2 on. Some name is always left, so the search ends, and the names of an
enum are distinct (`names_membersOf`).
-/

namespace OpenApiModels.ModelFile

open Json TypeScript

/-- The names that are tried in turn. -/
def attempt (name : String) : Nat → String
  | 0 => name
  | n + 1 => s!"{name}_{n + 2}"

/-- The search among the names ends with attempt `n`. -/
structure EndsAt (used : List String) (name : String) (n : Nat) : Prop where
  unused : attempt name n ∉ used
  before : ∀ i < n, attempt name i ∈ used

theorem toList_attempt_succ (name : String) (n : Nat) :
    (attempt name (n + 1)).toList = name.toList ++ '_' :: Nat.toDigits 10 (n + 2) := by
  simp [attempt, toString, Nat.repr]

theorem attempt_succ_ne (name : String) (n : Nat) : attempt name (n + 1) ≠ name := by
  intro same
  have text := congrArg (fun s : String => s.toList.length) same
  simp only [toList_attempt_succ, List.length_append, List.length_cons] at text
  omega

theorem attempt_injective (name : String) : Function.Injective (attempt name) := by
  intro m n same
  cases m with
  | zero =>
    cases n with
    | zero => rfl
    | succ n => exact absurd same.symm (attempt_succ_ne name n)
  | succ m =>
    cases n with
    | zero => exact absurd same (attempt_succ_ne name m)
    | succ n =>
      have text := congrArg String.toList same
      rw [toList_attempt_succ, toList_attempt_succ] at text
      have digits := (List.cons.inj (List.append_cancel_left text)).2
      have value := congrArg (Nat.ofDigitChars 10 · 0) digits
      simp only [Nat.ofDigitChars_toDigits (by decide : 1 < 10) (by decide : 10 ≤ 10)] at value
      omega

/-! ### The end of the search -/

variable {used : List String} {name : String} {n : Nat}

/-- One more name than are used cannot all be used, since they differ. -/
theorem exists_unused (used : List String) (name : String) :
    ∃ n ≤ used.length, attempt name n ∉ used := by
  by_contra none
  have allUsed : (List.range (used.length + 1)).map (attempt name) ⊆ used := by
    intro candidate mem
    obtain ⟨n, inRange, rfl⟩ := List.mem_map.1 mem
    by_contra unused
    exact none ⟨n, Nat.lt_succ_iff.1 (List.mem_range.1 inRange), unused⟩
  have distinct := List.nodup_range.map (attempt_injective name) (l := List.range (used.length + 1))
  have fits := (List.subperm_of_subset distinct allUsed).length_le
  rw [List.length_map, List.length_range] at fits
  omega

theorem exists_endsAt (used : List String) (name : String) :
    ∃ n ≤ used.length, EndsAt used name n := by
  have unused := exists_unused used name
  refine ⟨Nat.find unused, (Nat.find_spec unused).1, (Nat.find_spec unused).2, fun i less => ?_⟩
  have fits := (Nat.find_spec unused).1
  by_contra free
  exact Nat.find_min unused less ⟨by omega, free⟩

theorem unusedName_eq (ends : EndsAt used name n) (fits : n ≤ used.length) :
    unusedName used name = attempt name n := by
  unfold unusedName
  cases n with
  | zero => rw [if_neg (by simpa [attempt] using ends.unused), attempt]
  | succ n =>
    have taken : name ∈ used := ends.before 0 (by omega)
    -- the search runs over as many numbers as names are used
    have found : (List.range used.length).find? (fun i => !used.contains (attempt name (i + 1))) =
        some n := by
      rw [List.find?_range_eq_some]
      refine ⟨by simpa using ends.unused, List.mem_range.2 (by omega), fun i less => ?_⟩
      simpa using ends.before (i + 1) (by omega)
    rw [if_pos (by simpa using taken), List.find?_map]
    exact congrArg (fun i => ((Option.map _ i).getD name : String)) found

theorem unusedName_spec (used : List String) (name : String) :
    ∃ n ≤ used.length, EndsAt used name n ∧ unusedName used name = attempt name n := by
  obtain ⟨n, fits, ends⟩ := exists_endsAt used name
  exact ⟨n, fits, ends, unusedName_eq ends fits⟩

theorem unusedName_not_mem (used : List String) (name : String) : unusedName used name ∉ used := by
  obtain ⟨n, -, ends, result⟩ := unusedName_spec used name
  rw [result]
  exact ends.unused

/-! ### Members in turn -/

theorem distinguish_append (used : List String) (ms more : List Member) :
    distinguish used (ms ++ more) = distinguish used ms ++
      distinguish (((distinguish used ms).map (·.name)).reverse ++ used) more := by
  induction ms generalizing used with
  | nil => rfl
  | cons m rest ih =>
    rw [List.cons_append, distinguish, distinguish, ih]
    simp

theorem not_mem_used_of_mem_distinguish {ms : List Member} {m : Member}
    (h : m ∈ distinguish used ms) : m.name ∉ used := by
  induction ms generalizing used with
  | nil => cases h
  | cons first rest ih =>
    rcases List.mem_cons.1 h with rfl | h
    · exact unusedName_not_mem used first.name
    · exact fun mem => ih h (List.mem_cons_of_mem _ mem)

theorem nodup_distinguish (used : List String) (ms : List Member) :
    ((distinguish used ms).map (·.name)).Nodup := by
  induction ms generalizing used with
  | nil => exact List.nodup_nil
  | cons m rest ih =>
    rw [distinguish, List.map_cons, List.nodup_cons]
    refine ⟨fun mem => ?_, ih _⟩
    obtain ⟨other, later, same⟩ := List.mem_map.1 mem
    exact not_mem_used_of_mem_distinguish later (same ▸ List.mem_cons_self)

/-- Strings and numbers have a name of their own to start from. -/
theorem exists_memberOfValue? {v : Json} (h : v.isMemberValue = true) :
    ∃ b, memberOfValue? v = some b ∧ b.literal = v.compactText := by
  cases v with
  | string s => exact ⟨_, rfl, rfl⟩
  | number n => exact ⟨_, rfl, rfl⟩
  | null | bool | array | object => cases h

/-- The members of an enum stand for the strings and numbers among the values, each with its text
as literal and in their order, and have distinct names. The search for a name passes over names of
members before it only, and ends at the latest when it has passed over all of them. -/
theorem names_membersOf (values : List Json) :
    (membersOf values).map (·.literal) = (values.filter isMemberValue).map compactText ∧
      ((membersOf values).map (·.name)).Nodup ∧
      ∀ before v after, values = before ++ v :: after → v.isMemberValue = true →
        ∃ b n later, memberOfValue? v = some b ∧ n ≤ (membersOf before).length ∧
          EndsAt ((membersOf before).map (·.name)) b.name n ∧
          membersOf values = membersOf before ++ ⟨attempt b.name n, v.compactText⟩ :: later := by
  refine ⟨literals_membersOf values, nodup_distinguish [] _, ?_⟩
  rintro before v after rfl member
  obtain ⟨b, named, literal⟩ := exists_memberOfValue? member
  have parts : membersOf (before ++ v :: after) = membersOf before ++
      distinguish (((membersOf before).map (·.name)).reverse ++ [])
        (b :: after.filterMap memberOfValue?) := by
    rw [membersOf, List.filterMap_append, List.filterMap_cons_some named, distinguish_append]
    rfl
  obtain ⟨n, fits, ends, result⟩ :=
    unusedName_spec (((membersOf before).map (·.name)).reverse ++ []) b.name
  rw [distinguish, result, literal] at parts
  refine ⟨b, n, _, named, by simpa using fits, ⟨?_, fun i less => ?_⟩, parts⟩
  · simpa using ends.unused
  · simpa using ends.before i less

/-- Values whose names repeat, one of them with a number that would tell others apart. -/
def repeatedValues : List Json :=
  [.string "a", .bool true, .string "A", .string "a_2", .string "a"]

theorem names_repeatedValues :
    membersOf repeatedValues = [⟨"A", "\"a\""⟩, ⟨"A_2", "\"A\""⟩, ⟨"A_2_2", "\"a_2\""⟩,
        ⟨"A_3", "\"a\""⟩] ∧
      ∃ n later, n ≤ 3 ∧ EndsAt ["A", "A_2", "A_2_2"] "A" n ∧
        membersOf repeatedValues = [⟨"A", "\"a\""⟩, ⟨"A_2", "\"A\""⟩, ⟨"A_2_2", "\"a_2\""⟩] ++
          ⟨attempt "A" n, "\"a\""⟩ :: later := by
  refine ⟨by decide, ?_⟩
  obtain ⟨b, n, later, named, fits, ends, parts⟩ := (names_membersOf repeatedValues).2.2
    [.string "a", .bool true, .string "A", .string "a_2"] (.string "a") [] rfl rfl
  cases named
  exact ⟨n, later, fits, ends, parts⟩

end OpenApiModels.ModelFile
