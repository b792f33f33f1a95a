/-!
# Keyed lists

A list of keys with their values keeps its entries in the order in which they were written. `put`
replaces an entry where it stands, and `swapErase` lets the last entry take the place of the
erased one.
-/

namespace OpenApiModels.Keyed

variable {κ α : Type} [BEq κ]

/-- Gives `key` a value: in place when it is there, at the end when it is not. -/
def put (key : κ) (value : α) : List (κ × α) → List (κ × α)
  | [] => [(key, value)]
  | (k, v) :: rest => if k == key then (k, value) :: rest else (k, v) :: put key value rest

/-- The entries with each repeated key at its first position and with its last value. -/
def mergeRepeated (entries : List (κ × α)) : List (κ × α) :=
  entries.foldl (fun acc e => put e.1 e.2 acc) []

def hasKey (key : κ) (entries : List (κ × α)) : Bool :=
  entries.any fun e => e.1 == key

/-- Removes the first entry with `key`; the last entry takes its place. -/
def swapErase (key : κ) (entries : List (κ × α)) : List (κ × α) :=
  match entries.findIdx? (fun e => e.1 == key), entries.getLast? with
  | some i, some last => (entries.set i last).dropLast
  | _, _ => entries

/-- Removes the entries with `key`. -/
def erase (key : κ) (entries : List (κ × α)) : List (κ × α) :=
  entries.filter fun e => e.1 != key

variable [LawfulBEq κ]

theorem keys_put (key : κ) (value : α) (entries : List (κ × α)) :
    (put key value entries).map (·.1) =
      if hasKey key entries then entries.map (·.1) else entries.map (·.1) ++ [key] := by
  induction entries with
  | nil => rfl
  | cons e rest ih =>
    obtain ⟨k, v⟩ := e
    by_cases h : k = key
    · simp [put, hasKey, h]
    · simp only [put, beq_eq_false_iff_ne.2 h, Bool.false_eq_true, if_false, List.map_cons, ih,
        hasKey, List.any_cons, Bool.false_or]
      split <;> simp_all

theorem lookup_put_self (key : κ) (value : α) (entries : List (κ × α)) :
    (put key value entries).lookup key = some value := by
  induction entries with
  | nil => simp [put]
  | cons e rest ih =>
    obtain ⟨k, v⟩ := e
    by_cases h : k = key
    · simp [put, h]
    · simpa [put, h, List.lookup_cons, beq_eq_false_iff_ne.2 (Ne.symm h)] using ih

theorem lookup_put_of_ne {key other : κ} (h : other ≠ key) (value : α)
    (entries : List (κ × α)) : (put key value entries).lookup other = entries.lookup other := by
  induction entries with
  | nil => simp [put, List.lookup_cons, beq_eq_false_iff_ne.2 h]
  | cons e rest ih =>
    obtain ⟨k, v⟩ := e
    by_cases hk : k = key
    · subst hk
      simp [put, List.lookup_cons, beq_eq_false_iff_ne.2 h]
    · simp [put, hk, List.lookup_cons, ih]

end OpenApiModels.Keyed
