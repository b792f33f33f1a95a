import Mathlib.Data.List.Nodup
import OpenApiModels.Json.Canonical
import OpenApiModels.Proofs.Text.ByteOrder

/-!
# Objects with ascending keys

Sorting a document leaves the keys of every object in it in ascending order of their bytes
(`ascending_sorted`).
-/

namespace OpenApiModels.Json

open Text

/-- No key stands behind one with greater bytes. -/
def KeysAscend {α : Type} (members : List (String × α)) : Prop :=
  members.Pairwise fun a b => ¬ ByteLex (utf8 b.1) (utf8 a.1)

theorem keysAscend_iff {α : Type} {members : List (String × α)} :
    KeysAscend members ↔ members.Pairwise fun a b => keyLe a b := by
  simp only [KeysAscend, keyLe, decide_eq_true_eq, le_iff_not_byteLex]

/-- There is one way to put members with different keys into ascending order. -/
theorem eq_of_perm_keyLe {α : Type} {a b : List (String × α)} (h : a.Perm b)
    (distinct : (a.map (·.1)).Nodup) (ha : a.Pairwise fun a b => keyLe a b)
    (hb : b.Pairwise fun a b => keyLe a b) : a = b := by
  refine List.Perm.eq_of_pairwise (fun x y hx hy le ge => ?_) ha hb h
  simp only [keyLe, decide_eq_true_eq] at le ge
  exact List.inj_on_of_nodup_map distinct hx (h.mem_iff.2 hy) (Std.le_antisymm le ge)

theorem sortedMembers_eq_map (members : List (String × Json)) :
    sortedMembers members = members.map fun m => (m.1, m.2.sorted) := by
  induction members with
  | nil => rfl
  | cons m members ih => simp [sortedMembers, ih]

/-- The keys of every object in the document, itself included, are in ascending order. -/
inductive Ascending : Json → Prop where
  | null : Ascending .null
  | bool (b : Bool) : Ascending (.bool b)
  | number (n : Number.Value) : Ascending (.number n)
  | string (s : String) : Ascending (.string s)
  | array {items : List Json} : (∀ v ∈ items, Ascending v) → Ascending (.array items)
  | object {members : List (String × Json)} (keys : KeysAscend members) :
    (∀ m ∈ members, Ascending m.2) → Ascending (.object members)

theorem pairwise_keyLe_mergeSort {α : Type} (members : List (String × α)) :
    (members.mergeSort keyLe).Pairwise fun a b => keyLe a b := by
  refine List.pairwise_mergeSort (fun a b c => ?_) (fun a b => ?_) members
  · simp only [keyLe, decide_eq_true_eq]
    exact Std.le_trans
  · simp only [keyLe, Bool.or_eq_true, decide_eq_true_eq]
    exact Std.le_total

mutual

theorem ascending_sorted : ∀ v : Json, v.sorted.Ascending
  | .null => .null
  | .bool b => .bool b
  | .number n => .number n
  | .string s => .string s
  | .array items => by
    rw [sorted]
    exact .array (ascending_sortedItems items)
  | .object members => by
    rw [sorted]
    refine .object (keysAscend_iff.2 (pairwise_keyLe_mergeSort _)) fun m hm => ?_
    exact ascending_sortedMembers members m ((List.mergeSort_perm _ _).mem_iff.1 hm)

theorem ascending_sortedItems : ∀ items : List Json, ∀ v ∈ sortedItems items, v.Ascending
  | [] => fun _ hv => absurd hv List.not_mem_nil
  | item :: rest => by
    rw [sortedItems]
    exact List.forall_mem_cons.2 ⟨ascending_sorted item, ascending_sortedItems rest⟩

theorem ascending_sortedMembers :
    ∀ members : List (String × Json), ∀ m ∈ sortedMembers members, m.2.Ascending
  | [] => fun _ hm => absurd hm List.not_mem_nil
  | (key, v) :: rest => by
    rw [sortedMembers]
    exact List.forall_mem_cons.2 ⟨ascending_sorted v, ascending_sortedMembers rest⟩

end

theorem ascending_object_iff {members : List (String × Json)} :
    (object members).Ascending ↔
      (members.Pairwise fun a b => keyLe a b) ∧ ∀ m ∈ members, m.2.Ascending := by
  constructor
  · intro h
    cases h with
    | object keys inner => exact ⟨keysAscend_iff.1 keys, inner⟩
  · rintro ⟨keys, inner⟩
    exact .object (keysAscend_iff.2 keys) inner

end OpenApiModels.Json
