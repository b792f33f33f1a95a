import OpenApiModels.Proofs.Spec.Restamping

/-!
# The order of the root

Canonical members are sorted before the checksum members are erased, and each erased one takes the
last member of the root out of its order. `canonical_iff` says which checksum members keep the
canonical text, and when it is sorted. Below the root every object is.
-/

namespace OpenApiModels.Spec

open Keyed

/-! ### Positions -/

section Arranged

variable {α β : Type}

/-- Where the last two elements of two lists stand, one list behind the other. -/
theorem ends_cases {motive : List α → List α → Prop} (none : motive [] [])
    (one : ∀ x, motive [x] []) (two : ∀ xs x y, motive (xs ++ [x] ++ [y]) [])
    (last : ∀ y, motive [] [y]) (each : ∀ xs x y, motive (xs ++ [x]) [y])
    (behind : ∀ xs ys x y, motive xs (ys ++ [x] ++ [y])) (xs ys : List α) : motive xs ys := by
  rcases snoc_cases ys with rfl | ⟨ys, y, rfl⟩
  · rcases snoc_cases xs with rfl | ⟨xs, y, rfl⟩
    · exact none
    rcases snoc_cases xs with rfl | ⟨xs, x, rfl⟩
    · exact one y
    · exact two xs x y
  rcases snoc_cases ys with rfl | ⟨ys, x, rfl⟩
  · rcases snoc_cases xs with rfl | ⟨xs, x, rfl⟩
    · exact last y
    · exact each xs x y
  · exact behind xs ys x y

theorem map_lastFirst (f : α → β) (xs : List α) :
    (lastFirst xs).map f = lastFirst (xs.map f) := by
  rcases snoc_cases xs with rfl | ⟨init, last, rfl⟩ <;> simp

@[simp] theorem length_lastFirst (xs : List α) : (lastFirst xs).length = xs.length :=
  (lastFirst_perm xs).length_eq

variable (legacy content processed : Bool)

theorem map_arranged (f : α → β) (between₁ between₂ behind : List α) :
    (arranged legacy content processed between₁ between₂ behind).map f =
      arranged legacy content processed (between₁.map f) (between₂.map f) (behind.map f) := by
  cases between₂, behind using ends_cases
  all_goals
    cases legacy <;> cases content <;> cases processed <;>
      simp [arranged, map_lastFirst, ← List.append_assoc]

theorem arranged_perm (between₁ between₂ behind : List α) :
    (arranged legacy content processed between₁ between₂ behind).Perm
      (between₁ ++ (between₂ ++ behind)) := by
  classical
  have first (xs : List α) (a : α) : (lastFirst xs).count a = xs.count a :=
    (lastFirst_perm xs).count_eq a
  rw [List.perm_iff_count]
  intro a
  cases between₂, behind using ends_cases
  all_goals
    cases legacy <;> cases content <;> cases processed <;>
      simp [arranged, first, List.count_cons, ← List.append_assoc] <;> omega

/-- Which of the sorted members come one after the other in what erasing leaves, if there are as
many between the keys and behind them as given. -/
def positions (between₁ between₂ behind : Nat) : List Nat :=
  arranged legacy content processed (List.range between₁) (List.range' between₁ between₂)
    (List.range' (between₁ + between₂) behind)

theorem lt_of_mem_positions {between₁ between₂ behind i : Nat}
    (h : i ∈ positions legacy content processed between₁ between₂ behind) :
    i < between₁ + (between₂ + behind) := by
  have mem := (arranged_perm legacy content processed _ _ _).mem_iff.1 h
  simp only [List.mem_append, List.mem_range, List.mem_range'_1] at mem
  omega

theorem map_getElem?_range' (before xs after : List α) :
    (List.range' before.length xs.length).map (fun i => (before ++ (xs ++ after))[i]?) =
      xs.map some := by
  refine List.ext_getElem (by simp) fun i hi hj => ?_
  rw [List.length_map] at hj
  simp [List.getElem?_append_right, List.getElem?_append_left, hj]

theorem map_positions (between₁ between₂ behind : List α) :
    (positions legacy content processed between₁.length between₂.length behind.length).map
        (fun i => (between₁ ++ (between₂ ++ behind))[i]?) =
      (arranged legacy content processed between₁ between₂ behind).map some := by
  have first := map_getElem?_range' [] between₁ (between₂ ++ behind)
  have second := map_getElem?_range' between₁ between₂ behind
  have third := map_getElem?_range' (between₁ ++ between₂) behind []
  rw [List.append_nil, List.append_assoc, List.length_append] at third
  rw [List.length_nil, ← List.range_eq_range', List.nil_append] at first
  rw [positions, map_arranged, map_arranged, first, second, third]

theorem eq_of_map_getElem? {whole : List α} (distinct : whole.Nodup) {is js : List Nat}
    (inside : ∀ i ∈ is, i < whole.length)
    (h : is.map (fun i => whole[i]?) = js.map fun i => whole[i]?) : is = js := by
  induction is generalizing js with
  | nil =>
    cases js with
    | nil => rfl
    | cons j js => cases h
  | cons i is ih =>
    cases js with
    | nil => cases h
    | cons j js =>
      obtain ⟨here, others⟩ := List.forall_mem_cons.1 inside
      obtain ⟨first, rest⟩ := List.cons.inj h
      rw [(List.getElem?_inj here distinct).1 first, ih others rest]

variable {legacy content processed}

/-- Distinct elements are arranged alike just if their positions are. -/
theorem arranged_eq_iff {legacy' content' processed' : Bool} {between₁ between₂ behind : List α}
    (distinct : (between₁ ++ (between₂ ++ behind)).Nodup) :
    arranged legacy' content' processed' between₁ between₂ behind =
        arranged legacy content processed between₁ between₂ behind ↔
      positions legacy' content' processed' between₁.length between₂.length behind.length =
        positions legacy content processed between₁.length between₂.length behind.length := by
  rw [← List.map_inj_right (f := (some : α → Option α)) fun _ _ => Option.some.inj, ← map_positions,
    ← map_positions]
  refine ⟨eq_of_map_getElem? distinct fun i hi => ?_, fun same => by rw [same]⟩
  rw [List.length_append, List.length_append]
  exact lt_of_mem_positions _ _ _ hi

end Arranged

/-! ### Sorted members -/

/-- Whether erasing the checksum members leaves the sorted members in order. -/
def keepsSorted (legacy content processed : Bool) (between₁ between₂ behind : Nat) : Bool :=
  match legacy, content, processed with
  | false, false, false => true
  | false, false, true => behind ≤ 1
  | false, true, _ => between₂ + behind ≤ 1
  | true, false, _ => between₁ + between₂ + behind ≤ 1
  | true, true, false =>
    (between₁ ≤ 1 ∧ between₂ + behind = 0) ∨
      (between₁ = 0 ∧ 1 ≤ between₂ + behind ∧ between₂ + behind ≤ 2)
  | true, true, true =>
    (between₁ ≤ 1 ∧ between₂ = 0 ∧ behind = 0) ∨ (between₁ = 0 ∧ between₂ = 1 ∧ behind ≤ 1) ∨
      (between₁ = 0 ∧ between₂ = 0 ∧ 1 ≤ behind ∧ behind ≤ 2)

section Sorted

variable {α : Type} {between₁ between₂ behind : List α}

/-- An element that is moved to the front keeps its place only if nothing stands before it. -/
theorem moved_eq_iff {x : α} {xs ys zs : List α} (h : (ys ++ x :: zs).Nodup) :
    x :: xs = ys ++ x :: zs ↔ ys = [] ∧ xs = zs := by
  cases ys with
  | nil => simp
  | cons y ys =>
    have ne : x ≠ y := by
      rintro rfl
      simp at h
    simp [ne]

variable (distinct : (between₁ ++ (between₂ ++ behind)).Nodup)

include distinct

theorem arranged_content_eq_iff (processed : Bool) :
    arranged false true processed between₁ between₂ behind = between₁ ++ (between₂ ++ behind) ↔
      between₂.length + behind.length ≤ 1 := by
  have inner := (List.nodup_append.1 distinct).2.1
  cases processed with
  | false => simp [arranged, lastFirst_eq_self_iff inner]
  | true =>
    rcases snoc_cases behind with rfl | ⟨ys, y, rfl⟩
    · rw [List.append_nil] at inner ⊢
      simp [arranged, lastFirst_eq_self_iff inner]
    · have moved : arranged false true true between₁ between₂ (ys ++ [y]) =
          between₁ ++ y :: (between₂ ++ lastFirst ys) := by simp [arranged]
      rw [← List.append_assoc between₂] at inner ⊢
      rw [moved, List.append_cancel_left_eq, moved_eq_iff inner]
      simp [← List.length_eq_zero_iff]
      omega

theorem arranged_legacy_eq_iff (processed : Bool) :
    arranged true false processed between₁ between₂ behind = between₁ ++ (between₂ ++ behind) ↔
      between₁.length + between₂.length + behind.length ≤ 1 := by
  cases processed with
  | false => simp [arranged, lastFirst_eq_self_iff distinct, Nat.add_assoc]
  | true =>
    rcases snoc_cases behind with rfl | ⟨ys, y, rfl⟩
    · rw [List.append_nil] at distinct ⊢
      simp [arranged, lastFirst_eq_self_iff distinct]
    · have moved : arranged true false true between₁ between₂ (ys ++ [y]) =
          y :: (between₁ ++ between₂ ++ lastFirst ys) := by simp [arranged]
      rw [← List.append_assoc, ← List.append_assoc] at distinct ⊢
      rw [moved, moved_eq_iff distinct]
      simp [← List.length_eq_zero_iff]
      omega

theorem arranged_both_eq_iff :
    arranged true true false between₁ between₂ behind = between₁ ++ (between₂ ++ behind) ↔
      keepsSorted true true false between₁.length between₂.length behind.length = true := by
  have count : (between₂ ++ behind).length = between₂.length + behind.length := List.length_append
  simp only [arranged, keepsSorted, ← count]
  generalize between₂ ++ behind = rest at distinct
  rcases snoc_cases rest with rfl | ⟨ys, y, rfl⟩
  · rw [List.append_nil] at distinct ⊢
    simp [lastFirst_eq_self_iff distinct]
  rcases snoc_cases ys with rfl | ⟨ys, x, rfl⟩
  · simp [moved_eq_iff distinct]
  · have whole : between₁ ++ (ys ++ [x] ++ [y]) = between₁ ++ ys ++ x :: [y] := by simp
    have moved : x :: between₁ ++ y :: ys = x :: (between₁ ++ y :: ys) := rfl
    rw [whole] at distinct ⊢
    simp only [List.getLast?_concat, List.dropLast_concat]
    rw [moved, moved_eq_iff distinct]
    simp
    rintro rfl rfl
    rfl

theorem arranged_all_eq_iff :
    arranged true true true between₁ between₂ behind = between₁ ++ (between₂ ++ behind) ↔
      keepsSorted true true true between₁.length between₂.length behind.length = true := by
  cases between₂, behind using ends_cases with
  | none =>
    rw [List.append_nil, List.append_nil] at distinct ⊢
    simp [arranged, keepsSorted, lastFirst_eq_self_iff distinct]
  | one x =>
    rw [List.append_nil] at distinct ⊢
    simp [arranged, keepsSorted, moved_eq_iff distinct]
  | two xs x y =>
    have moved : arranged true true true between₁ (xs ++ [x] ++ [y]) [] =
        y :: (between₁ ++ lastFirst (xs ++ [x])) := by simp [arranged]
    rw [List.append_nil, ← List.append_assoc] at distinct ⊢
    rw [moved, moved_eq_iff distinct]
    simp [keepsSorted]
  | last y => simp [arranged, keepsSorted, moved_eq_iff distinct]
  | each xs x y =>
    have whole : between₁ ++ (xs ++ [x] ++ [y]) = between₁ ++ xs ++ x :: [y] := by simp
    have moved : arranged true true true between₁ (xs ++ [x]) [y] =
        x :: (between₁ ++ y :: xs) := by
      simp [arranged, lastFirst, ← List.append_assoc]
    rw [whole] at distinct ⊢
    rw [moved, moved_eq_iff distinct]
    simp [keepsSorted]
    rintro rfl rfl
    rfl
  | behind _ ys x y =>
    have whole : between₁ ++ (between₂ ++ (ys ++ [x] ++ [y])) =
        between₁ ++ between₂ ++ ys ++ x :: [y] := by simp
    have moved : arranged true true true between₁ between₂ (ys ++ [x] ++ [y]) =
        x :: (between₁ ++ y :: between₂ ++ lastFirst ys) := by simp [arranged]
    rw [whole] at distinct ⊢
    rw [moved, moved_eq_iff distinct]
    simp [keepsSorted, and_assoc]
    rintro rfl rfl rfl
    rfl

theorem arranged_eq_sorted_iff (legacy content processed : Bool) :
    arranged legacy content processed between₁ between₂ behind =
        between₁ ++ (between₂ ++ behind) ↔
      keepsSorted legacy content processed between₁.length between₂.length behind.length =
        true := by
  have outer := (List.nodup_append.1 (List.nodup_append.1 distinct).2.1).2.1
  cases legacy with
  | false =>
    cases content with
    | false => cases processed <;> simp [arranged, keepsSorted, lastFirst_eq_self_iff outer]
    | true => simp [arranged_content_eq_iff distinct, keepsSorted]
  | true =>
    cases content with
    | false => simp [arranged_legacy_eq_iff distinct, keepsSorted]
    | true =>
      cases processed with
      | false => exact arranged_both_eq_iff distinct
      | true => exact arranged_all_eq_iff distinct

end Sorted

/-! ### The canonical text -/

namespace Document

/-- How many members have keys between the older checksum and that of the text. -/
def countFirst (doc : Document) : Nat :=
  doc.members.countP fun m => isBetween₁ m.1

/-- The order in which the canonical members follow behind those that no erasing reaches, by their
positions in sorted order. It depends on which checksum members there are and on how many other
members lie between and behind them. -/
def rootOrder (doc : Document) : List Nat :=
  positions (hasKey checksumKey doc.members) (hasKey contentKey doc.members)
    (hasKey processedKey doc.members) doc.countFirst doc.countBetween doc.countBehind

/-- Whether the root is sorted in the canonical text. -/
def keepsSorted (doc : Document) : Bool :=
  Spec.keepsSorted (hasKey checksumKey doc.members) (hasKey contentKey doc.members)
    (hasKey processedKey doc.members) doc.countFirst doc.countBetween doc.countBehind

variable {doc doc' : Document}

theorem Agree.countFirst (agree : Agree doc doc') : doc'.countFirst = doc.countFirst := by
  rw [Document.countFirst, Document.countFirst, ← length_part, ← length_part,
    agree.part isBetween₁_keys]

theorem Agree.countBetween (agree : Agree doc doc') : doc'.countBetween = doc.countBetween := by
  rw [Document.countBetween, Document.countBetween, ← length_part, ← length_part,
    agree.part isBetween₂_keys]

theorem Agree.countBehind (agree : Agree doc doc') : doc'.countBehind = doc.countBehind := by
  rw [Document.countBehind, Document.countBehind, ← length_part, ← length_part,
    agree.part isBehind_keys]

theorem canonicalMembers_agree_iff (h : Distinct doc.members) (agree : Agree doc doc') :
    doc'.canonicalMembers = doc.canonicalMembers ↔ doc'.rootOrder = doc.rootOrder := by
  have distinct := parts_nodup h
  rw [List.append_assoc] at distinct
  rw [canonicalMembers_agree agree, canonicalMembers_eq h, List.append_cancel_left_eq,
    arranged_eq_iff distinct, rootOrder, rootOrder, agree.countFirst, agree.countBetween,
    agree.countBehind, length_part, length_part, length_part]
  rfl

/-- The sorted members without those that store checksums. -/
def plainMembers (doc : Document) : Members :=
  doc.part isBefore ++ (doc.part isBetween₁ ++ (doc.part isBetween₂ ++ doc.part isBehind))

theorem plainMembers_ascending (doc : Document) : doc.plainMembers.Ascending := by
  have whole := doc.ordered_ascending
  rw [ordered_eq] at whole
  refine whole.sublist (.append (.refl _) ?_)
  refine .trans (.append (.refl _) ?_) (List.sublist_append_right _ _)
  refine .trans (.append (.refl _) ?_) (List.sublist_append_right _ _)
  exact List.sublist_append_right _ _

/-- The root of the canonical text is sorted just if no erasing moves a member. -/
theorem canonicalMembers_ascending_iff (h : Distinct doc.members) :
    Members.Ascending doc.canonicalMembers ↔ doc.keepsSorted = true := by
  have distinct := parts_nodup h
  rw [List.append_assoc] at distinct
  have sorted : doc.canonicalMembers = doc.plainMembers ↔ doc.keepsSorted = true := by
    rw [canonicalMembers_eq h, plainMembers, List.append_cancel_left_eq,
      arranged_eq_sorted_iff distinct, length_part, length_part, length_part]
    rfl
  have perm : doc.canonicalMembers.Perm doc.plainMembers := by
    rw [canonicalMembers_eq h]
    exact (arranged_perm _ _ _ _ _ _).append_left _
  rw [← sorted]
  constructor
  · intro ascending
    exact Members.eq_of_perm_ascending perm (canonicalMembers_distinct h) ascending
      doc.plainMembers_ascending
  · intro same
    rw [same]
    exact doc.plainMembers_ascending

/-- Below the root, the canonical text is sorted. -/
theorem ascending_of_mem_canonicalMembers (h : Distinct doc.members) {m : String × Json}
    (hm : m ∈ doc.canonicalMembers) : m.2.Ascending := by
  have inOrdered := (List.mem_filter.1 ((canonicalMembers_perm h).mem_iff.1 hm)).1
  exact Json.ascending_sortedMembers doc.members m (doc.ordered_perm.mem_iff.1 inOrdered)

theorem ascending_canonical_iff (h : Distinct doc.members) :
    (Json.object doc.canonicalMembers).Ascending ↔ doc.keepsSorted = true := by
  rw [Json.ascending_object_iff, ← canonicalMembers_ascending_iff h]
  exact and_iff_left fun m hm => ascending_of_mem_canonicalMembers h hm

/-- Other checksum members keep the canonical text just if erasing them arranges the root in the
same way. All objects of that text are sorted just if both times erasing moves no member; below the
root they always are. -/
theorem canonical_iff (h : Distinct doc.members) (agree : Agree doc doc') :
    (doc'.canonical = doc.canonical ↔ doc'.rootOrder = doc.rootOrder) ∧
      (∀ m ∈ doc.canonicalMembers, m.2.Ascending) ∧
      (doc'.canonical = doc.canonical ∧ (Json.object doc.canonicalMembers).Ascending ↔
        doc'.keepsSorted = true ∧ doc.keepsSorted = true) := by
  have text := canonical_eq_iff h agree
  refine ⟨text.trans (canonicalMembers_agree_iff h agree),
    fun m hm => ascending_of_mem_canonicalMembers h hm, ?_⟩
  rw [text, ← ascending_canonical_iff h, ← ascending_canonical_iff agree.1]
  constructor
  · rintro ⟨same, ascending⟩
    exact ⟨same ▸ ascending, ascending⟩
  · rintro ⟨ascending', ascending⟩
    refine ⟨?_, ascending⟩
    exact Members.eq_of_perm_ascending (canonicalMembers_perm_agree h agree)
      (canonicalMembers_distinct agree.1) (Json.ascending_object_iff.1 ascending').1
      (Json.ascending_object_iff.1 ascending).1

/-! ### Two members behind the key -/

/-- A spec that stores these checksums, with two members whose keys lie behind theirs. -/
def storing (checksums : Members) : Document :=
  ⟨checksums ++ [("openapi", .string "3.0.3"), ("x-tagGroups", .array []), ("x-topics", .array [])]⟩

theorem distinct_storing_nothing : Distinct (storing []).members := by
  have keys : ((storing []).members.map (·.1)).Nodup := by decide
  exact keys

theorem agree_storing_processed :
    Agree (storing []) (storing [(processedKey, .string "a")]) := by
  have keys : ((storing [(processedKey, .string "a")]).members.map (·.1)).Nodup := by decide
  refine ⟨keys, fun p hp => ?_⟩
  have unselected : p processedKey = false := hp processedKey (by simp [checksumKeys])
  exact List.filter_cons_of_neg (by simp [unselected])

theorem canonical_iff_storing :
    ((storing [(processedKey, .string "a")]).canonical = (storing []).canonical ↔
        (storing [(processedKey, .string "a")]).rootOrder = (storing []).rootOrder) ∧
      (∀ m ∈ (storing []).canonicalMembers, m.2.Ascending) ∧
      ((storing [(processedKey, .string "a")]).canonical = (storing []).canonical ∧
          (Json.object (storing []).canonicalMembers).Ascending ↔
        (storing [(processedKey, .string "a")]).keepsSorted = true ∧
          (storing []).keepsSorted = true) :=
  canonical_iff distinct_storing_nothing agree_storing_processed

/-- A stored checksum changes the canonical text, and its root is not sorted any more. -/
theorem storing_unsorted :
    Agree (storing []) (storing [(processedKey, .string "a")]) ∧
      (storing [(processedKey, .string "a")]).canonical ≠ (storing []).canonical ∧
      ¬ (Json.object (storing [(processedKey, .string "a")]).canonicalMembers).Ascending := by
  have moved : (storing [(processedKey, .string "a")]).rootOrder ≠ (storing []).rootOrder := by
    decide
  have unsorted : (storing [(processedKey, .string "a")]).keepsSorted ≠ true := by decide
  refine ⟨agree_storing_processed, ?_, ?_⟩
  · rw [Ne, canonical_eq_iff distinct_storing_nothing agree_storing_processed,
      canonicalMembers_agree_iff distinct_storing_nothing agree_storing_processed]
    exact moved
  · rw [ascending_canonical_iff agree_storing_processed.1]
    exact unsorted

end Document

end OpenApiModels.Spec
