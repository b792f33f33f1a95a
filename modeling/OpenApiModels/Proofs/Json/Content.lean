import OpenApiModels.Proofs.Json.Ascending

/-!
# Content of documents

Two documents have the same content if they differ in the order of keys only, at any depth. Where
no object repeats a key, that is when they are the same once they are sorted
(`sameContent_iff`).
-/

namespace OpenApiModels.Json

/-- No object in the document repeats a key, itself included. -/
inductive DistinctKeys : Json → Prop where
  | null : DistinctKeys .null
  | bool (b : Bool) : DistinctKeys (.bool b)
  | number (n : Number.Value) : DistinctKeys (.number n)
  | string (s : String) : DistinctKeys (.string s)
  | array {items : List Json} : (∀ v ∈ items, DistinctKeys v) → DistinctKeys (.array items)
  | object {members : List (String × Json)} (keys : (members.map (·.1)).Nodup) :
    (∀ m ∈ members, DistinctKeys m.2) → DistinctKeys (.object members)

/-- The documents are the same but for the order of keys: arrays have the same content item by
item, objects have the same keys and the same content under each of them. -/
inductive SameContent : Json → Json → Prop where
  | null : SameContent .null .null
  | bool (b : Bool) : SameContent (.bool b) (.bool b)
  | number (n : Number.Value) : SameContent (.number n) (.number n)
  | string (s : String) : SameContent (.string s) (.string s)
  | array {items items' : List Json} (length : items.length = items'.length) :
    (∀ i (h : i < items.length) (h' : i < items'.length), SameContent items[i] items'[i]) →
      SameContent (.array items) (.array items')
  | object {members members' : List (String × Json)}
    (keys : (members.map (·.1)).Perm (members'.map (·.1))) :
    (∀ m ∈ members, ∀ m' ∈ members', m.1 = m'.1 → SameContent m.2 m'.2) →
      SameContent (.object members) (.object members')

theorem distinctKeys_array_iff {items : List Json} :
    DistinctKeys (.array items) ↔ ∀ v ∈ items, v.DistinctKeys := by
  constructor
  · rintro ⟨⟩
    assumption
  · exact .array

theorem distinctKeys_object_iff {members : List (String × Json)} :
    DistinctKeys (.object members) ↔
      (members.map (·.1)).Nodup ∧ ∀ m ∈ members, m.2.DistinctKeys := by
  constructor
  · intro h
    cases h with
    | object keys inner => exact ⟨keys, inner⟩
  · rintro ⟨keys, inner⟩
    exact .object keys inner

/-! ### Sorted documents -/

theorem sortedItems_eq_map (items : List Json) : sortedItems items = items.map sorted := by
  induction items with
  | nil => rfl
  | cons v items ih => rw [sortedItems, ih, List.map_cons]

theorem sorted_array (items : List Json) : sorted (.array items) = .array (items.map sorted) := by
  rw [sorted, sortedItems_eq_map]

/-- The members in ascending order of their keys, with sorted values. -/
def sortedObject (members : List (String × Json)) : List (String × Json) :=
  (sortedMembers members).mergeSort keyLe

theorem sorted_object (members : List (String × Json)) :
    sorted (.object members) = .object (sortedObject members) := by
  rw [sorted, sortedObject]

theorem sortedObject_perm (members : List (String × Json)) :
    (sortedObject members).Perm (members.map fun m => (m.1, m.2.sorted)) :=
  sortedMembers_eq_map members ▸ List.mergeSort_perm _ _

theorem nodup_keys_sortedObject {members : List (String × Json)}
    (distinct : (members.map (·.1)).Nodup) : ((sortedObject members).map (·.1)).Nodup := by
  refine ((sortedObject_perm members).map _).nodup_iff.2 ?_
  rwa [List.map_map]

theorem mem_sortedObject {members : List (String × Json)} {m : String × Json} :
    m ∈ sortedObject members ↔ ∃ m' ∈ members, (m'.1, m'.2.sorted) = m :=
  (sortedObject_perm members).mem_iff.trans List.mem_map

/-- Objects are the same once they are sorted just if they have the same keys and their values are
the same once they are sorted. -/
theorem sortedObject_eq_iff {members members' : List (String × Json)}
    (distinct : (members.map (·.1)).Nodup) (distinct' : (members'.map (·.1)).Nodup) :
    sortedObject members = sortedObject members' ↔
      (members.map (·.1)).Perm (members'.map (·.1)) ∧
        ∀ m ∈ members, ∀ m' ∈ members', m.1 = m'.1 → m.2.sorted = m'.2.sorted := by
  constructor
  · intro same
    have perm : (members.map fun m => (m.1, m.2.sorted)).Perm
        (members'.map fun m => (m.1, m.2.sorted)) :=
      (sortedObject_perm members).symm.trans (same ▸ sortedObject_perm members')
    refine ⟨by simpa [List.map_map, Function.comp_def] using perm.map (·.1), ?_⟩
    intro m hm m' hm' key
    have mem := mem_sortedObject.2 ⟨m, hm, rfl⟩
    have mem' := mem_sortedObject.2 ⟨m', hm', rfl⟩
    rw [← same] at mem'
    exact congrArg Prod.snd
      (List.inj_on_of_nodup_map (nodup_keys_sortedObject distinct) mem mem' key)
  · rintro ⟨keys, values⟩
    have subset {a b : List (String × Json)} (keys : (a.map (·.1)).Perm (b.map (·.1)))
        (values : ∀ m ∈ a, ∀ m' ∈ b, m.1 = m'.1 → m.2.sorted = m'.2.sorted) :
        sortedObject a ⊆ sortedObject b := by
      intro m hm
      obtain ⟨source, hsource, rfl⟩ := mem_sortedObject.1 hm
      obtain ⟨other, hother, key⟩ :=
        List.mem_map.1 (keys.mem_iff.1 (List.mem_map.2 ⟨source, hsource, rfl⟩))
      rw [values source hsource other hother key.symm, ← key]
      exact mem_sortedObject.2 ⟨other, hother, rfl⟩
    have nodup {ms : List (String × Json)} (distinct : (ms.map (·.1)).Nodup) :
        (sortedObject ms).Nodup := List.Nodup.of_map _ (nodup_keys_sortedObject distinct)
    have perm : (sortedObject members).Perm (sortedObject members') := by
      rw [List.perm_ext_iff_of_nodup (nodup distinct) (nodup distinct')]
      exact fun m => ⟨fun hm => subset keys values hm, fun hm => subset keys.symm
        (fun a ha b hb same => (values b hb a ha same.symm).symm) hm⟩
    exact eq_of_perm_keyLe perm (nodup_keys_sortedObject distinct) (pairwise_keyLe_mergeSort _)
      (pairwise_keyLe_mergeSort _)

theorem SameContent.sorted_eq {v w : Json} (h : SameContent v w) (hv : v.DistinctKeys)
    (hw : w.DistinctKeys) : v.sorted = w.sorted := by
  induction h with
  | null | bool | number | string => rfl
  | @array items items' length _ ih =>
    rw [distinctKeys_array_iff] at hv hw
    rw [sorted_array, sorted_array]
    refine congrArg Json.array (List.ext_getElem (by simpa using length) fun i hi hi' => ?_)
    rw [List.length_map] at hi hi'
    rw [List.getElem_map, List.getElem_map]
    exact ih i hi hi' (hv _ (List.getElem_mem hi)) (hw _ (List.getElem_mem hi'))
  | @object members members' keys _ ih =>
    rw [distinctKeys_object_iff] at hv hw
    rw [sorted_object, sorted_object]
    refine congrArg Json.object ((sortedObject_eq_iff hv.1 hw.1).2 ⟨keys, ?_⟩)
    exact fun m hm m' hm' key => ih m hm m' hm' key (hv.2 m hm) (hw.2 m' hm')

theorem sameContent_of_sorted_eq {v w : Json} (hv : v.DistinctKeys) (hw : w.DistinctKeys)
    (h : v.sorted = w.sorted) : SameContent v w := by
  induction hv generalizing w with
  | null => cases w <;> cases h; exact .null
  | bool b => cases w <;> cases h; exact .bool b
  | number n => cases w <;> cases h; exact .number n
  | string s => cases w <;> cases h; exact .string s
  | @array items _ ih =>
    rw [sorted_array] at h
    cases w with
    | array items' =>
      rw [distinctKeys_array_iff] at hw
      rw [sorted_array] at h
      have same := Json.array.inj h
      refine .array (by simpa using congrArg List.length same) fun i hi hi' => ?_
      refine ih _ (List.getElem_mem hi) (hw _ (List.getElem_mem hi')) ?_
      rw [← List.getElem_map sorted (h := by simpa using hi),
        ← List.getElem_map sorted (h := by simpa using hi')]
      simp only [same]
    | null | bool | number | string | object => cases h
  | @object members keys _ ih =>
    rw [sorted_object] at h
    cases w with
    | object members' =>
      rw [distinctKeys_object_iff] at hw
      rw [sorted_object] at h
      obtain ⟨perm, values⟩ := (sortedObject_eq_iff keys hw.1).1 (Json.object.inj h)
      refine .object perm fun m hm m' hm' key => ?_
      exact ih m hm (hw.2 m' hm') (values m hm m' hm' key)
    | null | bool | number | string | array => cases h

/-- Documents have the same content just if they are the same once they are sorted. -/
theorem sameContent_iff {v w : Json} (hv : v.DistinctKeys) (hw : w.DistinctKeys) :
    SameContent v w ↔ v.sorted = w.sorted :=
  ⟨fun h => h.sorted_eq hv hw, sameContent_of_sorted_eq hv hw⟩

end OpenApiModels.Json
