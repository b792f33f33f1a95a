import OpenApiModels.Proofs.Json.Integers
import OpenApiModels.Proofs.Json.TextInjective

/-!
# Documents read from their own texts

The indented text of a document that was read can be read, and what is read for it differs in
numbers only (`read?_pretty_renumber`). Integers stay, and so do doubles with short texts
(`reread_of_isShort`).
-/

namespace OpenApiModels

namespace Number.Value

/-- Integers are of 64 bits. -/
def Fits : Value → Prop
  | .integer n => -0x8000000000000000 ≤ n ∧ n ≤ wordMax
  | .real _ => True

/-- An integer, or a double whose text has few digits and a small power of ten. -/
def IsShort : Value → Prop
  | .integer _ => True
  | .real x => (realLiteral x).IsShort

theorem fits_of_real? {negative : Bool} {n : Nat} {e : Int} {v : Value}
    (h : Literal.real? negative n e = some v) : v.Fits := by
  unfold Literal.real? at h
  split at h
  · split at h
    · obtain rfl := Option.some.inj h
      trivial
    · cases h
  · cases h

theorem fits_of_value? {l : Literal} {v : Value} (h : l.value? = some v) : v.Fits := by
  have bound := appendDigits_le (n := 0) (Nat.zero_le _) l.whole
  have word : wordMax = 2 ^ 64 - 1 := rfl
  unfold Literal.value? at h
  dsimp only at h
  split at h
  · split at h
    · exact fits_of_real? h
    split at h
    · obtain rfl := Option.some.inj h
      exact ⟨by omega, by omega⟩
    split at h
    · rename_i range
      obtain rfl := Option.some.inj h
      exact ⟨by omega, by omega⟩
    · exact fits_of_real? h
  · exact fits_of_real? h

end Number.Value

namespace Json

open Number

/-! ### Numbers that were read -/

theorem fits_of_readNumber {n : Value} (h : Yields readNumber n) : n.Fits := by
  have unsigned {negative : Bool} {cs : List Char} {n : Value} {rest : Rest cs}
      (h : readUnsigned negative cs = some (n, rest)) : n.Fits := by
    unfold readUnsigned at h
    split at h
    · cases h
    split at h
    · cases h
    split at h
    · cases h
    split at h
    · cases h
    · rename_i value
      obtain rfl := (Prod.mk.inj (Option.some.inj h)).1
      exact Value.fits_of_value? value
  obtain ⟨cs, rest, h⟩ := h
  unfold readNumber at h
  split at h
  · obtain ⟨⟨m, rest'⟩, read, same⟩ := Option.map_eq_some_iff.1 h
    obtain rfl := (Prod.mk.inj same).1
    exact unsigned read
  · exact unsigned h

theorem yields_of_readStart {container : Option ((cs : List Char) → Option (Json × Rest cs))}
    {cs : List Char} {n : Value} {rest : Rest cs}
    (h : readStart container cs = some (.number n, rest)) : Yields readNumber n := by
  cases cs with
  | nil => cases h
  | cons c cs =>
    simp only [readStart] at h
    split at h
    · simp only [Option.map_eq_some_iff, Prod.mk.injEq] at h
      obtain ⟨_, -, other, -⟩ := h
      cases other
    split at h
    · simp only [Option.bind_eq_some_iff, Option.map_eq_some_iff, Prod.mk.injEq] at h
      obtain ⟨_, -, _, -, other, -⟩ := h
      cases other
    split at h
    · simp only [Option.bind_eq_some_iff, Option.map_eq_some_iff, Prod.mk.injEq] at h
      obtain ⟨_, -, _, -, other, -⟩ := h
      cases other
    split at h
    · cases eq_of_readWord h
    split at h
    · cases eq_of_readWord h
    split at h
    · cases eq_of_readWord h
    obtain ⟨⟨m, rest'⟩, read, same⟩ := Option.map_eq_some_iff.1 h
    obtain ⟨rfl, -⟩ := by simpa using same
    exact ⟨_, _, read⟩

theorem yields_of_readValue {depth : Nat} {n : Value}
    (h : Yields (readValue depth) (.number n)) : Yields readNumber n := by
  obtain ⟨cs, rest, h⟩ := h
  obtain ⟨r, read, -⟩ := forget_eq_some (forget_readValue depth cs ▸ congrArg forget h)
  exact yields_of_readStart read

theorem fits_of_readValue {depth : Nat} {v : Json} (h : Yields (readValue depth) v) :
    ∀ n ∈ v.numbers, n.Fits := by
  induction depth using Nat.strongRecOn generalizing v with
  | _ depth ih =>
    rcases cases_of_readValue h with
      ⟨noArray, noObject⟩ | ⟨inner, rfl, ⟨items, rfl, each⟩ | ⟨entries, rfl, each⟩⟩
    · cases v with
      | number n =>
        intro m hm
        obtain rfl := List.mem_singleton.1 hm
        exact fits_of_readNumber (yields_of_readValue h)
      | null | bool | string => exact fun _ hm => absurd hm List.not_mem_nil
      | array items => exact absurd rfl (noArray items)
      | object members => exact absurd rfl (noObject members)
    · intro n hn
      obtain ⟨v, hv, inside⟩ := mem_numbers_array.1 hn
      exact ih inner (Nat.lt_succ_self _) (each v hv) n inside
    · intro n hn
      obtain ⟨m, hm, inside⟩ := mem_numbers_object.1 hn
      obtain ⟨e, he, same⟩ := mem_mergeRepeated hm
      exact ih inner (Nat.lt_succ_self _) (each e he) n (same ▸ inside)

/-! ### Numbers read from their texts -/

/-- The number that the text of a number is read for. -/
def reread (n : Value) : Value :=
  match readNumber (numberText n) with
  | some (m, _) => m
  | none => n

theorem reread_eq {n m : Value} (h : RereadsAs n m) : reread n = m := by
  have read := h.read [] rfl
  rw [List.append_nil] at read
  obtain ⟨r, read, -⟩ := forget_eq_some read
  rw [reread, read]

theorem rereadsAs_real {x : Binary64} {n : Value} (value : (realLiteral x).value? = some n) :
    RereadsAs (.real x) n := by
  have wellFormed := wellFormed_realLiteral x
  have text : (realLiteral x).text = numberText (.real x) := text_realLiteral x
  refine ⟨?_, fun rest ends => ?_⟩
  · rw [← text]
    exact startsNumber_text wellFormed
  · rw [← text]
    exact readNumber_text wellFormed value ends

theorem exists_rereadsAs {n : Value} (fits : n.Fits) :
    ∃ m, RereadsAs n m ∧ (n.IsShort → m = n) := by
  cases n with
  | integer n => exact ⟨_, (rereads_integer fits).rereadsAs, fun _ => rfl⟩
  | real x =>
    obtain ⟨y, value, short⟩ := exists_value?_realLiteral x
    exact ⟨.real y, rereadsAs_real value, fun h => congrArg Value.real (short h)⟩

theorem rereadsAs_reread {n : Value} (fits : n.Fits) : RereadsAs n (reread n) := by
  obtain ⟨m, read, -⟩ := exists_rereadsAs fits
  rwa [reread_eq read]

/-- The double that is read for the literal of another one. -/
theorem reread_real {x y : Binary64} {l : Literal} (literal : realLiteral x = l)
    (fits : l.mantissa ≤ wordMax) (real : l.fraction ≠ none ∨ l.exponent ≠ none)
    (sign : l.negative = y.negative)
    (scaled : scaleByTen (Binary64.magnitudeOfNat l.mantissa) l.scale = some y.magnitude) :
    reread (.real x) = .real y := by
  refine reread_eq (rereadsAs_real ?_)
  rw [literal, Literal.value?_eq_real? fits real, real?_eq scaled y.finite, sign]

/-- Integers are read back, and so are doubles with short texts. -/
theorem reread_of_isShort {n : Value} (fits : n.Fits) (short : n.IsShort) : reread n = n := by
  obtain ⟨m, read, same⟩ := exists_rereadsAs fits
  rw [reread_eq read, same short]

/-! ### Documents with other numbers -/

mutual

/-- The document with each number replaced. -/
def renumber (f : Value → Value) : Json → Json
  | .number n => .number (f n)
  | .array items => .array (renumberItems f items)
  | .object members => .object (renumberMembers f members)
  | v => v

def renumberItems (f : Value → Value) : List Json → List Json
  | [] => []
  | v :: rest => renumber f v :: renumberItems f rest

def renumberMembers (f : Value → Value) : List (String × Json) → List (String × Json)
  | [] => []
  | m :: rest => (m.1, renumber f m.2) :: renumberMembers f rest

end

section Renumber

variable {f : Value → Value}

theorem renumber_array (items : List Json) :
    (Json.array items).renumber f = .array (items.map (renumber f)) := by
  have each : renumberItems f items = items.map (renumber f) := by
    induction items with
    | nil => rfl
    | cons v items ih => rw [renumberItems, ih, List.map_cons]
  rw [renumber, each]

theorem renumber_object (members : List (String × Json)) :
    (Json.object members).renumber f = .object (members.map fun m => (m.1, m.2.renumber f)) := by
  have each : renumberMembers f members = members.map fun m => (m.1, m.2.renumber f) := by
    induction members with
    | nil => rfl
    | cons m members ih => rw [renumberMembers, ih, List.map_cons]
  rw [renumber, each]

/-- A document stays just if its numbers do. -/
theorem renumber_eq_self_iff (v : Json) : v.renumber f = v ↔ ∀ n ∈ v.numbers, f n = n := by
  induction v using induct with
  | null | bool | string => exact iff_of_true rfl fun _ hn => absurd hn List.not_mem_nil
  | number n => simp [renumber, numbers]
  | array items ih =>
    have same := List.map_inj_left (l := items) (f := renumber f) (g := id)
    rw [List.map_id] at same
    rw [renumber_array, Json.array.injEq, same]
    constructor
    · intro each n hn
      obtain ⟨v, hv, inside⟩ := mem_numbers_array.1 hn
      exact (ih v hv).1 (each v hv) n inside
    · exact fun each v hv => (ih v hv).2 fun n hn => each n (mem_numbers_array.2 ⟨v, hv, hn⟩)
  | object members ih =>
    have same := List.map_inj_left (l := members) (f := fun m => (m.1, m.2.renumber f)) (g := id)
    rw [List.map_id] at same
    rw [renumber_object, Json.object.injEq, same]
    constructor
    · intro each n hn
      obtain ⟨m, hm, inside⟩ := mem_numbers_object.1 hn
      exact (ih m hm).1 (congrArg Prod.snd (each m hm)) n inside
    · intro each m hm
      exact Prod.ext rfl ((ih m hm).2 fun n hn => each n (mem_numbers_object.2 ⟨m, hm, hn⟩))

theorem reads_renumber {depth : Nat} {v : Json} (h : Yields (readValue depth) v)
    (numbers : ∀ n ∈ v.numbers, RereadsAs n (f n)) (indent : Nat) :
    Reads (readValue depth) indent v (v.renumber f) := by
  induction depth using Nat.strongRecOn generalizing v indent with
  | _ depth ih =>
    rcases cases_of_readValue h with
      ⟨noArray, noObject⟩ | ⟨inner, rfl, ⟨items, rfl, each⟩ | ⟨entries, rfl, each⟩⟩
    · cases v with
      | null => exact reads_null
      | bool b => exact reads_bool b
      | number n => exact reads_number (numbers n List.mem_cons_self)
      | string s => exact reads_string s
      | array items => exact absurd rfl (noArray items)
      | object members => exact absurd rfl (noObject members)
    · rw [renumber_array]
      refine reads_array fun v hv => ih inner (Nat.lt_succ_self _) (each v hv) ?_ (indent + 1)
      exact fun n hn => numbers n (mem_numbers_array.2 ⟨v, hv, hn⟩)
    · rw [renumber_object]
      refine reads_object (Keyed.nodup_keys_mergeRepeated _) fun m hm => ?_
      obtain ⟨e, he, same⟩ := mem_mergeRepeated hm
      refine ih inner (Nat.lt_succ_self _) (same ▸ each e he) ?_ (indent + 1)
      exact fun n hn => numbers n (mem_numbers_object.2 ⟨m, hm, hn⟩)

end Renumber

/-- The indented text of a document that was read is read for the document with its numbers
reread. -/
theorem read?_pretty_renumber {text : String} {v : Json} (h : read? text = some v)
    {tail : List Char} (blank : Blank tail) :
    read? (String.ofList (prettyAt 0 v ++ tail)) = some (v.renumber reread) := by
  have yields := yields_of_read? h
  refine read?_of_reads (reads_renumber yields (fun n hn => ?_) 0) blank
  exact rereadsAs_reread (fits_of_readValue yields n hn)

end Json

end OpenApiModels
