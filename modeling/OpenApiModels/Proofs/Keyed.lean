import OpenApiModels.Keyed

/-!
# Keyed lists, further lemmas

What puts and erasures do to keys, to values and to the entries in between.
-/

namespace OpenApiModels.Keyed

variable {κ α : Type} [BEq κ]

/-! ### Erasing by swapping -/

/-- The list with its last element in front. -/
def lastFirst (xs : List α) : List α :=
  xs.getLast?.toList ++ xs.dropLast

@[simp] theorem lastFirst_nil : lastFirst ([] : List α) = [] := rfl

@[simp] theorem lastFirst_singleton (x : α) : lastFirst [x] = [x] := rfl

@[simp] theorem lastFirst_concat (xs : List α) (x : α) : lastFirst (xs ++ [x]) = x :: xs := by
  simp [lastFirst]

theorem lastFirst_perm (xs : List α) : (lastFirst xs).Perm xs := by
  rcases List.eq_nil_or_concat xs with rfl | ⟨init, last, rfl⟩
  · rfl
  · rw [List.concat_eq_append, lastFirst_concat]
    exact (List.perm_append_singleton last init).symm

@[simp] theorem hasKey_nil (key : κ) : hasKey key ([] : List (κ × α)) = false := rfl

theorem hasKey_cons (key : κ) (e : κ × α) (entries : List (κ × α)) :
    hasKey key (e :: entries) = (e.1 == key || hasKey key entries) := rfl

@[simp] theorem hasKey_singleton (key : κ) (e : κ × α) : hasKey key [e] = (e.1 == key) := by
  simp [hasKey_cons]

theorem hasKey_append (key : κ) (a b : List (κ × α)) :
    hasKey key (a ++ b) = (hasKey key a || hasKey key b) :=
  List.any_append

theorem hasKey_perm {key : κ} {a b : List (κ × α)} (h : a.Perm b) :
    hasKey key a = hasKey key b := by
  rw [Bool.eq_iff_iff]
  simp [hasKey, h.mem_iff]

@[simp] theorem hasKey_lastFirst (key : κ) (entries : List (κ × α)) :
    hasKey key (lastFirst entries) = hasKey key entries :=
  hasKey_perm (lastFirst_perm entries)

theorem swapErase_of_not_hasKey {key : κ} {entries : List (κ × α)}
    (h : hasKey key entries = false) : swapErase key entries = entries := by
  have absent : entries.findIdx? (fun e => e.1 == key) = none := by
    simpa [List.findIdx?_eq_none_iff, hasKey] using h
  simp [swapErase, absent]

variable [LawfulBEq κ]

theorem hasKey_eq_false_iff {key : κ} {entries : List (κ × α)} :
    hasKey key entries = false ↔ ∀ e ∈ entries, e.1 ≠ key := by
  simp [hasKey]

theorem swapErase_append_cons {key : κ} {before : List (κ × α)}
    (h : hasKey key before = false) (value : α) (after : List (κ × α)) :
    swapErase key (before ++ (key, value) :: after) = before ++ lastFirst after := by
  have absent : before.findIdx? (fun e => e.1 == key) = none := by
    simpa [List.findIdx?_eq_none_iff, hasKey] using h
  have index : (before ++ (key, value) :: after).findIdx? (fun e => e.1 == key) =
      some before.length := by
    simp [List.findIdx?_append, absent, List.findIdx?_cons]
  rcases List.eq_nil_or_concat after with rfl | ⟨init, last, rfl⟩
  · simp [swapErase, index]
  · rw [List.concat_eq_append] at index ⊢
    have final : (before ++ (key, value) :: (init ++ [last])).getLast? = some last := by
      rw [← List.cons_append, ← List.append_assoc, List.getLast?_concat]
    simp only [swapErase, index, final, List.set_append_right _ _ (Nat.le_refl _), Nat.sub_self,
      List.set_cons_zero, lastFirst_concat]
    rw [List.dropLast_append_of_ne_nil (by simp), ← List.cons_append, List.dropLast_concat]

@[simp] theorem swapErase_cons_self (key : κ) (value : α) (after : List (κ × α)) :
    swapErase key ((key, value) :: after) = lastFirst after :=
  have absent : hasKey key ([] : List (κ × α)) = false := rfl
  swapErase_append_cons absent value after

theorem split_of_hasKey {key : κ} {entries : List (κ × α)} (h : hasKey key entries = true) :
    ∃ before value after, entries = before ++ (key, value) :: after ∧
      hasKey key before = false := by
  induction entries with
  | nil => cases h
  | cons e entries ih =>
    obtain ⟨k, v⟩ := e
    by_cases same : k = key
    · exact ⟨[], v, entries, by rw [same]; rfl, rfl⟩
    · have rest : hasKey key entries = true := by simpa [hasKey, same] using h
      obtain ⟨before, value, after, rfl, absent⟩ := ih rest
      exact ⟨(k, v) :: before, value, after, rfl, by
        simpa [hasKey, same] using absent⟩

theorem swapErase_append {key : κ} {before : List (κ × α)} (h : hasKey key before = false)
    (entries : List (κ × α)) :
    swapErase key (before ++ entries) = before ++ swapErase key entries := by
  cases found : hasKey key entries with
  | false =>
    rw [swapErase_of_not_hasKey found, swapErase_of_not_hasKey]
    rw [hasKey_append, h, found, Bool.or_self]
  | true =>
    obtain ⟨inner, value, after, rfl, absent⟩ := split_of_hasKey found
    have both : hasKey key (before ++ inner) = false := by
      rw [hasKey_append, h, absent, Bool.or_self]
    rw [swapErase_append_cons absent, ← List.append_assoc, swapErase_append_cons both,
      List.append_assoc]

theorem swapErase_cons_of_ne {key other : κ} (h : other ≠ key) (value : α)
    (entries : List (κ × α)) :
    swapErase key ((other, value) :: entries) = (other, value) :: swapErase key entries :=
  have absent : hasKey key [(other, value)] = false := by simp [hasKey, h]
  swapErase_append absent entries

/-! ### Putting -/

theorem hasKey_put (key other : κ) (value : α) (entries : List (κ × α)) :
    hasKey other (put key value entries) = (key == other || hasKey other entries) := by
  induction entries with
  | nil => simp [put, hasKey]
  | cons e entries ih =>
    obtain ⟨k, v⟩ := e
    by_cases same : k = key
    · simp [put, hasKey, same]
    · simp only [hasKey] at ih
      simp [put, hasKey, same, ih, Bool.or_left_comm]

theorem eq_or_mem_of_mem_put {key : κ} {value : α} {e : κ × α} {entries : List (κ × α)}
    (h : e ∈ put key value entries) : e = (key, value) ∨ e ∈ entries := by
  induction entries with
  | nil => exact .inl (List.mem_singleton.1 h)
  | cons first entries ih =>
    obtain ⟨k, v⟩ := first
    unfold put at h
    split at h
    · rename_i same
      rcases List.mem_cons.1 h with rfl | h
      · exact .inl (by rw [beq_iff_eq.1 same])
      · exact .inr (List.mem_cons_of_mem _ h)
    · rcases List.mem_cons.1 h with rfl | h
      · exact .inr List.mem_cons_self
      · exact (ih h).imp_right (List.mem_cons_of_mem _)

theorem mem_put {key : κ} {value : α} {e : κ × α} {entries : List (κ × α)}
    (h : e ∈ put key value entries) : e.2 = value ∨ e ∈ entries :=
  (eq_or_mem_of_mem_put h).imp_left (congrArg Prod.snd)

theorem filter_put {p : κ → Bool} {key : κ} (h : p key = false) (value : α)
    (entries : List (κ × α)) :
    (put key value entries).filter (fun e => p e.1) = entries.filter fun e => p e.1 := by
  induction entries with
  | nil => simp [put, h]
  | cons e entries ih =>
    obtain ⟨k, v⟩ := e
    by_cases same : k = key
    · simp [put, same, h]
    · simp [put, same, List.filter_cons, ih]

@[simp] theorem put_put (key : κ) (value value' : α) (entries : List (κ × α)) :
    put key value (put key value' entries) = put key value entries := by
  induction entries with
  | nil => simp [put]
  | cons e entries ih =>
    obtain ⟨k, v⟩ := e
    by_cases same : k = key
    · simp [put, same]
    · simp [put, same, ih]

/-- Values of different keys can be given in either order, if one of the keys is there. -/
theorem put_comm {key other : κ} (ne : key ≠ other) {entries : List (κ × α)}
    (h : hasKey key entries = true) (value value' : α) :
    put key value (put other value' entries) = put other value' (put key value entries) := by
  induction entries with
  | nil => cases h
  | cons e entries ih =>
    obtain ⟨k, v⟩ := e
    by_cases here : k = key
    · simp [put, here, ne]
    · have later : hasKey key entries = true := by simpa [hasKey_cons, here] using h
      by_cases there : k = other
      · simp [put, there, ne.symm]
      · simp [put, here, there, ih later]

theorem put_eq_self {key : κ} {value : α} {entries : List (κ × α)}
    (h : entries.lookup key = some value) : put key value entries = entries := by
  induction entries with
  | nil => cases h
  | cons e entries ih =>
    obtain ⟨k, v⟩ := e
    by_cases same : k = key
    · subst same
      simp only [List.lookup_cons, beq_self_eq_true] at h
      simp [put, Option.some.inj h]
    · have ne : (key == k) = false := beq_eq_false_iff_ne.2 (Ne.symm same)
      simp only [List.lookup_cons, ne] at h
      simp [put, same, ih h]

theorem nodup_keys_put {key : κ} {value : α} {entries : List (κ × α)}
    (h : (entries.map (·.1)).Nodup) : ((put key value entries).map (·.1)).Nodup := by
  rw [keys_put]
  cases found : hasKey key entries with
  | true => exact h
  | false =>
    rw [if_neg Bool.false_ne_true, List.nodup_append]
    refine ⟨h, by simp, fun k hk other new same => ?_⟩
    obtain rfl := List.mem_singleton.1 new
    subst same
    obtain ⟨e, he, rfl⟩ := List.mem_map.1 hk
    exact hasKey_eq_false_iff.1 found e he rfl

theorem hasKey_of_lookup {key : κ} {value : α} {entries : List (κ × α)}
    (h : entries.lookup key = some value) : hasKey key entries = true := by
  rw [← put_eq_self h, hasKey_put]
  simp

/-- Where no key is repeated, every entry is found by its key. -/
theorem lookup_of_mem {key : κ} {value : α} {entries : List (κ × α)}
    (h : (key, value) ∈ entries) (distinct : (entries.map (·.1)).Nodup) :
    entries.lookup key = some value := by
  obtain ⟨before, after, rfl⟩ := List.append_of_mem h
  rw [List.map_append, List.map_cons, List.nodup_append] at distinct
  have absent : before.lookup key = none := by
    rw [List.lookup_eq_none_iff]
    intro e he
    simpa using fun same => distinct.2.2 e.1 (List.mem_map.2 ⟨e, he, rfl⟩) key
      List.mem_cons_self same.symm
  simp [List.lookup_append, absent]

theorem put_of_not_hasKey {key : κ} {entries : List (κ × α)} (h : hasKey key entries = false)
    (value : α) : put key value entries = entries ++ [(key, value)] := by
  induction entries with
  | nil => rfl
  | cons e entries ih =>
    obtain ⟨k, v⟩ := e
    rw [hasKey_cons, Bool.or_eq_false_iff, beq_eq_false_iff_ne] at h
    simp [put, h.1, ih h.2]

/-- Where no key is repeated, a put changes the value of every entry with the key. -/
theorem put_eq_map {key : κ} {entries : List (κ × α)} (distinct : (entries.map (·.1)).Nodup)
    (h : hasKey key entries = true) (value : α) :
    put key value entries = entries.map fun e => if e.1 == key then (e.1, value) else e := by
  induction entries with
  | nil => cases h
  | cons e entries ih =>
    obtain ⟨new, distinct⟩ := List.nodup_cons.1 distinct
    by_cases same : e.1 = key
    · have others : entries.map (fun e => if e.1 == key then (e.1, value) else e) = entries := by
        refine (List.map_congr_left fun e' he' => ?_).trans (List.map_id _)
        refine if_neg fun found => new (List.mem_map.2 ⟨e', he', ?_⟩)
        exact (beq_iff_eq.1 found).trans same.symm
      rw [List.map_cons, others]
      simp [put, same]
    · have rest : hasKey key entries = true := by simpa [hasKey_cons, same] using h
      simp [put, same, ih distinct rest]

theorem lookup_filter (p : κ → Bool) (key : κ) (entries : List (κ × α)) :
    (entries.filter fun e => p e.1).lookup key = if p key then entries.lookup key else none := by
  induction entries with
  | nil => simp
  | cons e entries ih =>
    obtain ⟨k, v⟩ := e
    by_cases same : key = k
    · subst same
      cases kept : p key <;> simp [ih, kept]
    · cases kept : p k <;>
        simp [List.lookup_cons, ih, kept, beq_eq_false_iff_ne.2 same]

theorem mergeRepeated_of_nodup {entries : List (κ × α)} (h : (entries.map (·.1)).Nodup) :
    mergeRepeated entries = entries := by
  suffices ∀ acc : List (κ × α), ((acc ++ entries).map (·.1)).Nodup →
      entries.foldl (fun acc e => put e.1 e.2 acc) acc = acc ++ entries from this [] h
  clear h
  induction entries with
  | nil => simp
  | cons e entries ih =>
    intro acc distinct
    have absent : hasKey e.1 acc = false := by
      rw [hasKey_eq_false_iff]
      intro other hother same
      rw [List.map_append, List.nodup_append] at distinct
      exact distinct.2.2 _ (List.mem_map.2 ⟨other, hother, rfl⟩) _ List.mem_cons_self same
    rw [List.foldl_cons, put_of_not_hasKey absent, ih, List.append_assoc, List.singleton_append]
    rwa [List.append_assoc, List.singleton_append]

theorem nodup_keys_mergeRepeated (entries : List (κ × α)) :
    ((mergeRepeated entries).map (·.1)).Nodup := by
  suffices ∀ acc : List (κ × α), (acc.map (·.1)).Nodup →
      ((entries.foldl (fun acc e => put e.1 e.2 acc) acc).map (·.1)).Nodup from
    this [] List.nodup_nil
  induction entries with
  | nil => exact fun _ h => h
  | cons e entries ih => exact fun acc h => ih _ (nodup_keys_put h)

end OpenApiModels.Keyed
