import OpenApiModels.Proofs.Json.Ascending
import OpenApiModels.Proofs.Spec.CanonicalOrder
import OpenApiModels.Proofs.Spec.Extensions
import OpenApiModels.Spec.Checksum

/-!
# Canonical members of a document

The sorted members of a root are cut at the three checksum keys. `canonicalMembers_eq` puts what
lies between together again, and `canonicalMembers_setProcessed_iff` and
`canonicalMembers_setBoth_iff` say when storing checksums keeps the result.
-/

namespace OpenApiModels.Spec

open Keyed

abbrev Members := List (String × Json)

/-! ### Cutting sorted members at a key -/

namespace Members

/-- The members whose keys lie below `key`. -/
def below (key : String) (ms : Members) : Members :=
  ms.filter fun m => decide (m.1 < key)

def above (key : String) (ms : Members) : Members :=
  ms.filter fun m => decide (key < m.1)

def withKey (key : String) (ms : Members) : Members :=
  ms.filter fun m => m.1 == key

/-- In ascending order of the keys. -/
def Ascending (ms : Members) : Prop :=
  ms.Pairwise fun a b => Json.keyLe a b

instance (ms : Members) : Decidable (Ascending ms) :=
  inferInstanceAs (Decidable (ms.Pairwise fun a b => Json.keyLe a b))

theorem Ascending.filter {ms : Members} (h : ms.Ascending) (p : String × Json → Bool) :
    Ascending (ms.filter p) :=
  List.Pairwise.sublist List.filter_sublist h

theorem cut {ms : Members} (h : ms.Ascending) (key : String) :
    ms = below key ms ++ (withKey key ms ++ above key ms) := by
  induction ms with
  | nil => rfl
  | cons m ms ih =>
    obtain ⟨head, tail⟩ := List.pairwise_cons.1 h
    have ih := ih tail
    simp only [Json.keyLe, decide_eq_true_eq] at head
    rcases Std.lt_trichotomy m.1 key with lt | eq | gt
    · have notAbove : ¬ key < m.1 := Std.not_gt_of_lt lt
      have ne : m.1 ≠ key := Std.ne_of_lt lt
      simp only [below, withKey, above] at ih ⊢
      have isBelow : decide (m.1 < key) = true := decide_eq_true lt
      have notAbove : ¬ decide (key < m.1) = true := mt of_decide_eq_true notAbove
      simp only [List.filter_cons, if_pos isBelow, if_neg notAbove, if_neg (mt beq_iff_eq.1 ne),
        List.cons_append, ← ih]
    · have none : below key ms = [] := by
        simp only [below, List.filter_eq_nil_iff, decide_eq_true_eq]
        intro a ha
        have := head a ha
        grind
      rw [none] at ih
      simp only [below, withKey, above, List.nil_append] at ih none ⊢
      have notBelow : ¬ decide (m.1 < key) = true := mt of_decide_eq_true (eq ▸ Std.lt_irrefl)
      have notAbove : ¬ decide (key < m.1) = true := mt of_decide_eq_true (eq ▸ Std.lt_irrefl)
      simp only [List.filter_cons, if_neg notBelow, none, List.nil_append,
        if_pos (beq_iff_eq.2 eq), if_neg notAbove, List.cons_append, ← ih]
    · have none : below key ms = [] := by
        simp only [below, List.filter_eq_nil_iff, decide_eq_true_eq]
        intro a ha
        have := head a ha
        grind
      have none' : withKey key ms = [] := by
        simp only [withKey, List.filter_eq_nil_iff, beq_iff_eq]
        intro a ha
        have := head a ha
        grind
      rw [none, none'] at ih
      have notBelow : ¬ m.1 < key := Std.not_gt_of_lt gt
      have ne : m.1 ≠ key := by grind
      simp only [below, withKey, above, List.nil_append] at ih none none' ⊢
      have notBelow : ¬ decide (m.1 < key) = true := mt of_decide_eq_true notBelow
      have isAbove : decide (key < m.1) = true := decide_eq_true gt
      simp only [List.filter_cons, if_neg notBelow, none, if_neg (mt beq_iff_eq.1 ne), none',
        List.nil_append, if_pos isAbove, ← ih]

theorem distinct_filter {ms : Members} (h : Distinct ms) (p : String × Json → Bool) :
    Distinct (ms.filter p) :=
  List.Nodup.sublist (List.filter_sublist.map _) h

theorem eq_of_perm_ascending {a b : Members} (h : a.Perm b) (distinct : Distinct a)
    (ha : a.Ascending) (hb : b.Ascending) : a = b :=
  Json.eq_of_perm_keyLe h distinct ha hb

/-- The only member with a key, if there is one. -/
theorem withKey_of_distinct {ms : Members} (h : Distinct ms) (key : String) :
    (hasKey key ms = false ∧ withKey key ms = []) ∨
      (hasKey key ms = true ∧ ∃ v, withKey key ms = [(key, v)]) := by
  cases found : hasKey key ms with
  | false =>
    refine .inl ⟨rfl, ?_⟩
    simpa [withKey, List.filter_eq_nil_iff] using hasKey_eq_false_iff.1 found
  | true =>
    refine .inr ⟨rfl, ?_⟩
    simp only [hasKey, List.any_eq_true, beq_iff_eq] at found
    obtain ⟨⟨k, v⟩, mem, same⟩ := found
    obtain rfl : key = k := same.symm
    refine ⟨v, ?_⟩
    obtain ⟨a, b, rfl⟩ := List.append_of_mem mem
    simp only [Distinct, List.map_append, List.map_cons, List.nodup_append, List.nodup_cons,
      List.mem_cons, List.mem_map, forall_exists_index, and_imp] at h
    obtain ⟨-, ⟨later, -⟩, earlier⟩ := h
    have noneBefore : a.filter (fun m => m.1 == key) = [] := by
      simp only [List.filter_eq_nil_iff, beq_iff_eq]
      exact fun m hm same => earlier _ m hm rfl _ (.inl rfl) same
    have noneAfter : b.filter (fun m => m.1 == key) = [] := by
      simp only [List.filter_eq_nil_iff, beq_iff_eq]
      exact fun m hm same => later ⟨m, hm, same⟩
    simp [withKey, noneBefore, noneAfter]

end Members

/-! ### The sorted members of a document -/

namespace Document

/-- The members of the root in ascending order of their keys. -/
def ordered (doc : Document) : Members :=
  (Json.sortedMembers doc.members).mergeSort Json.keyLe

theorem ordered_perm (doc : Document) : doc.ordered.Perm (Json.sortedMembers doc.members) :=
  List.mergeSort_perm _ _

theorem ordered_ascending (doc : Document) : doc.ordered.Ascending :=
  Json.pairwise_keyLe_mergeSort _

theorem ordered_distinct {doc : Document} (h : Distinct doc.members) :
    Distinct doc.ordered := by
  have keys : (doc.ordered.map (·.1)).Perm (doc.members.map (·.1)) := by
    rw [← Json.keys_sortedMembers doc.members]
    exact doc.ordered_perm.map _
  exact keys.nodup_iff.2 h

/-- Members in ascending order are the ordered ones. -/
theorem ordered_eq_of_perm {doc : Document} (h : Distinct doc.members) {ms : Members}
    (perm : ms.Perm (Json.sortedMembers doc.members)) (ascending : ms.Ascending) :
    doc.ordered = ms :=
  Members.eq_of_perm_ascending (doc.ordered_perm.trans perm.symm) (ordered_distinct h)
    doc.ordered_ascending ascending

theorem hasKey_ordered (key : String) (doc : Document) :
    hasKey key doc.ordered = hasKey key doc.members := by
  rw [hasKey_perm doc.ordered_perm, Json.sortedMembers_eq_map]
  simp [hasKey, Function.comp_def]

/-- Members of two documents that agree where `p` holds are ordered alike there. -/
theorem filter_ordered_congr {a b : Document} (ha : Distinct a.members)
    {p : String → Bool}
    (same : a.members.filter (fun m => p m.1) = b.members.filter fun m => p m.1) :
    a.ordered.filter (fun m => p m.1) = b.ordered.filter fun m => p m.1 := by
  have perm (doc : Document) : (doc.ordered.filter fun m => p m.1).Perm
      ((doc.members.filter fun m => p m.1).map fun m => (m.1, m.2.sorted)) := by
    refine (doc.ordered_perm.filter _).trans ?_
    rw [Json.sortedMembers_eq_map, List.filter_map]
    rfl
  refine Members.eq_of_perm_ascending ?_ (Members.distinct_filter (ordered_distinct ha) _)
    (a.ordered_ascending.filter _) (b.ordered_ascending.filter _)
  exact (perm a).trans (same ▸ (perm b).symm)

/-! ### Between the checksum keys -/

def isBefore (key : String) : Bool :=
  decide (key < checksumKey)

def isBetween₁ (key : String) : Bool :=
  decide (checksumKey < key) && decide (key < contentKey)

def isBetween₂ (key : String) : Bool :=
  decide (contentKey < key) && decide (key < processedKey)

def isBehind (key : String) : Bool :=
  decide (processedKey < key)

/-- The sorted members whose keys `p` selects. -/
def part (p : String → Bool) (doc : Document) : Members :=
  doc.ordered.filter fun m => p m.1

theorem checksumKey_lt : checksumKey < contentKey := by decide

theorem contentKey_lt : contentKey < processedKey := by decide

theorem ordered_eq (doc : Document) :
    doc.ordered = doc.part isBefore ++ (Members.withKey checksumKey doc.ordered ++
      (doc.part isBetween₁ ++ (Members.withKey contentKey doc.ordered ++
        (doc.part isBetween₂ ++ (Members.withKey processedKey doc.ordered ++
          doc.part isBehind))))) := by
  have h := doc.ordered_ascending
  have first := Members.cut h checksumKey
  have second := Members.cut (h.filter fun m => decide (checksumKey < m.1)) contentKey
  have third := Members.cut (h.filter fun m => decide (contentKey < m.1)) processedKey
  have low := checksumKey_lt
  have high := contentKey_lt
  have between₁ : Members.below contentKey (Members.above checksumKey doc.ordered) =
      doc.part isBetween₁ := by
    simp [Members.below, Members.above, part, isBetween₁, Bool.and_comm]
  have between₂ : Members.below processedKey (Members.above contentKey doc.ordered) =
      doc.part isBetween₂ := by
    simp [Members.below, Members.above, part, isBetween₂, Bool.and_comm]
  have at₂ : Members.withKey contentKey (Members.above checksumKey doc.ordered) =
      Members.withKey contentKey doc.ordered := by
    simp only [Members.withKey, Members.above, List.filter_filter]
    exact List.filter_congr fun m _ => by grind
  have at₃ : Members.withKey processedKey (Members.above contentKey doc.ordered) =
      Members.withKey processedKey doc.ordered := by
    simp only [Members.withKey, Members.above, List.filter_filter]
    exact List.filter_congr fun m _ => by grind
  have above₂ : Members.above contentKey (Members.above checksumKey doc.ordered) =
      Members.above contentKey doc.ordered := by
    simp only [Members.above, List.filter_filter]
    exact List.filter_congr fun m _ => by grind
  have above₃ : Members.above processedKey (Members.above contentKey doc.ordered) =
      doc.part isBehind := by
    simp only [Members.above, List.filter_filter, part, isBehind]
    exact List.filter_congr fun m _ => by grind
  rw [show doc.ordered.filter (fun m => decide (checksumKey < m.1)) =
    Members.above checksumKey doc.ordered from rfl, between₁, at₂, above₂] at second
  rw [show doc.ordered.filter (fun m => decide (contentKey < m.1)) =
    Members.above contentKey doc.ordered from rfl, between₂, at₃, above₃] at third
  calc doc.ordered
      = doc.part isBefore ++ (Members.withKey checksumKey doc.ordered ++
          Members.above checksumKey doc.ordered) := first
    _ = _ := by rw [second, third]

theorem hasKey_part (key : String) {p : String → Bool} (h : p key = false) (doc : Document) :
    hasKey key (doc.part p) = false := by
  rw [hasKey_eq_false_iff]
  intro m hm same
  have := (List.mem_filter.1 hm).2
  rw [same, h] at this
  cases this

/-- A member that is there or not. -/
def optional (key : String) : Option Json → Members
  | none => []
  | some v => [(key, v)]

theorem withKey_ordered {doc : Document} (h : Distinct doc.members) (key : String) :
    ∃ v : Option Json, Members.withKey key doc.ordered = optional key v ∧
      v.isSome = hasKey key doc.members := by
  rw [← hasKey_ordered]
  rcases Members.withKey_of_distinct (ordered_distinct h) key with ⟨absent, eq⟩ | ⟨found, v, eq⟩
  · exact ⟨none, eq, absent.symm⟩
  · exact ⟨some v, eq, found.symm⟩

theorem erase_arranged {a b₁ b₂ c : Members} (legacy content processed : Option Json)
    (hl : hasKey checksumKey (a ++ (b₁ ++ (b₂ ++ c))) = false)
    (hc : hasKey contentKey (a ++ (b₁ ++ (b₂ ++ c))) = false)
    (hp : hasKey processedKey (a ++ (b₁ ++ (b₂ ++ c))) = false) :
    swapErase processedKey (swapErase checksumKey (swapErase contentKey
      (a ++ (optional checksumKey legacy ++ (b₁ ++ (optional contentKey content ++
        (b₂ ++ (optional processedKey processed ++ c)))))))) =
      a ++ arranged legacy.isSome content.isSome processed.isSome b₁ b₂ c := by
  have ne₁ : checksumKey ≠ contentKey := by decide
  have ne₂ : checksumKey ≠ processedKey := by decide
  have ne₃ : contentKey ≠ processedKey := by decide
  have ne₁' := ne₁.symm
  have ne₂' := ne₂.symm
  have ne₃' := ne₃.symm
  simp only [hasKey_append, Bool.or_eq_false_iff] at hl hc hp
  obtain ⟨la, l₁, l₂, lc⟩ := hl
  obtain ⟨ca, c₁, c₂, cc⟩ := hc
  obtain ⟨pa, p₁, p₂, pc⟩ := hp
  have plain {xs : Members} {m : String × Json} {key : String} :
      hasKey key (xs ++ [m]) = false ↔ hasKey key xs = false ∧ m.1 ≠ key := by
    simp [hasKey_append]
  -- Erasing takes members from the end, at most three.
  rcases snoc_cases c with rfl | ⟨c, ⟨k, v⟩, rfl⟩
  · rcases snoc_cases b₂ with rfl | ⟨b₂, ⟨k, v⟩, rfl⟩
    · cases legacy <;> cases content <;> cases processed <;>
        simp [arranged, optional, swapErase_append, swapErase_of_not_hasKey,
          swapErase_cons_of_ne, *]
    · obtain ⟨l₂, lk⟩ := plain.1 l₂
      obtain ⟨c₂, ck⟩ := plain.1 c₂
      obtain ⟨p₂, pk⟩ := plain.1 p₂
      rcases snoc_cases b₂ with rfl | ⟨b₂, ⟨k', v'⟩, rfl⟩
      · cases legacy <;> cases content <;> cases processed <;>
          simp [arranged, optional, swapErase_append, swapErase_of_not_hasKey,
            swapErase_cons_of_ne, lastFirst, *]
      · obtain ⟨l₂, lk'⟩ := plain.1 l₂
        obtain ⟨c₂, ck'⟩ := plain.1 c₂
        obtain ⟨p₂, pk'⟩ := plain.1 p₂
        cases legacy <;> cases content <;> cases processed <;>
          simp [arranged, optional, swapErase_append, swapErase_of_not_hasKey,
            swapErase_cons_of_ne, lastFirst, *]
  · obtain ⟨lc, lk⟩ := plain.1 lc
    obtain ⟨cc, ck⟩ := plain.1 cc
    obtain ⟨pc, pk⟩ := plain.1 pc
    rcases snoc_cases c with rfl | ⟨c, ⟨k', v'⟩, rfl⟩
    · rcases snoc_cases b₂ with rfl | ⟨b₂, ⟨k', v'⟩, rfl⟩
      · cases legacy <;> cases content <;> cases processed <;>
          simp [arranged, optional, swapErase_append, swapErase_of_not_hasKey,
            swapErase_cons_of_ne, lastFirst, *]
      · obtain ⟨l₂, lk'⟩ := plain.1 l₂
        obtain ⟨c₂, ck'⟩ := plain.1 c₂
        obtain ⟨p₂, pk'⟩ := plain.1 p₂
        cases legacy <;> cases content <;> cases processed <;>
          simp [arranged, optional, swapErase_append, swapErase_of_not_hasKey,
            swapErase_cons_of_ne, lastFirst, *]
    · obtain ⟨lc, lk'⟩ := plain.1 lc
      obtain ⟨cc, ck'⟩ := plain.1 cc
      obtain ⟨pc, pk'⟩ := plain.1 pc
      rcases snoc_cases c with rfl | ⟨c, ⟨k'', v''⟩, rfl⟩
      · cases legacy <;> cases content <;> cases processed <;>
          simp [arranged, optional, swapErase_append, swapErase_of_not_hasKey,
            swapErase_cons_of_ne, lastFirst, *]
      · obtain ⟨lc, lk''⟩ := plain.1 lc
        obtain ⟨cc, ck''⟩ := plain.1 cc
        obtain ⟨pc, pk''⟩ := plain.1 pc
        cases legacy <;> cases content <;> cases processed <;>
          simp [arranged, optional, swapErase_append, swapErase_of_not_hasKey,
            swapErase_cons_of_ne, lastFirst, *]
        simp only [← List.append_assoc b₂ c, getLast?_cons_append_cons, dropLast_cons_append_cons]
        simp [swapErase_append, swapErase_of_not_hasKey, swapErase_cons_of_ne, *]

theorem canonicalMembers_eq_swapErase (doc : Document) : doc.canonicalMembers =
    swapErase processedKey (swapErase checksumKey (swapErase contentKey doc.ordered)) := rfl

theorem canonicalMembers_eq {doc : Document} (h : Distinct doc.members) :
    doc.canonicalMembers = doc.part isBefore ++
      arranged (hasKey checksumKey doc.members) (hasKey contentKey doc.members)
        (hasKey processedKey doc.members) (doc.part isBetween₁) (doc.part isBetween₂)
        (doc.part isBehind) := by
  obtain ⟨legacy, eq₁, is₁⟩ := withKey_ordered h checksumKey
  obtain ⟨content, eq₂, is₂⟩ := withKey_ordered h contentKey
  obtain ⟨processed, eq₃, is₃⟩ := withKey_ordered h processedKey
  have plain {key : String} (h₀ : isBefore key = false) (h₁ : isBetween₁ key = false)
      (h₂ : isBetween₂ key = false) (h₃ : isBehind key = false) :
      hasKey key (doc.part isBefore ++ (doc.part isBetween₁ ++
        (doc.part isBetween₂ ++ doc.part isBehind))) = false := by
    simp [hasKey_append, hasKey_part, h₀, h₁, h₂, h₃]
  rw [canonicalMembers_eq_swapErase, ordered_eq, eq₁, eq₂, eq₃, ← is₁, ← is₂, ← is₃]
  refine erase_arranged legacy content processed (plain ?_ ?_ ?_ ?_) (plain ?_ ?_ ?_ ?_)
    (plain ?_ ?_ ?_ ?_) <;> decide

/-! ### Storing checksums -/

/-- The second document has the members of the first, and perhaps other checksum members. -/
def Agree (doc doc' : Document) : Prop :=
  Distinct doc'.members ∧ ∀ p : String → Bool, (∀ key ∈ checksumKeys, p key = false) →
    doc'.members.filter (fun m => p m.1) = doc.members.filter fun m => p m.1

theorem agree_setExtensions {entries : List (String × String)}
    (fresh : (entries.map (·.1)).Nodup) (keys : ∀ e ∈ entries, e.1 ∈ checksumKeys)
    {doc : Document} (h : Distinct doc.members) : Agree doc (doc.setExtensions entries) :=
  ⟨distinct_setExtensions fresh h,
    fun _ hp => filter_setExtensions (fun e he => hp e.1 (keys e he)) doc⟩

theorem Agree.trans {a b c : Document} (h : Agree a b) (h' : Agree b c) : Agree a c :=
  ⟨h'.1, fun p hp => (h'.2 p hp).trans (h.2 p hp)⟩

theorem Agree.part {doc doc' : Document} (h : Agree doc doc') {p : String → Bool}
    (hp : ∀ key ∈ checksumKeys, p key = false) : doc'.part p = doc.part p :=
  filter_ordered_congr h.1 (h.2 p hp)

theorem length_part (p : String → Bool) (doc : Document) :
    (doc.part p).length = doc.members.countP fun m => p m.1 := by
  rw [part, ← List.countP_eq_length_filter, doc.ordered_perm.countP_eq, Json.sortedMembers_eq_map,
    List.countP_map]
  rfl

/-- How many members have keys between those of the two checksums that are stored. -/
def countBetween (doc : Document) : Nat :=
  doc.members.countP fun m => isBetween₂ m.1

def countBehind (doc : Document) : Nat :=
  doc.members.countP fun m => isBehind m.1

/-- Whether storing the processed checksum keeps the canonical order of the members. -/
def processKeepsOrder (doc : Document) : Bool :=
  Spec.processKeepsOrder (hasKey checksumKey doc.members) (hasKey contentKey doc.members)
    (hasKey processedKey doc.members) doc.countBetween doc.countBehind

/-- Whether storing both checksums keeps the canonical order of the members. -/
def stampKeepsOrder (doc : Document) : Bool :=
  Spec.stampKeepsOrder (hasKey checksumKey doc.members) (hasKey contentKey doc.members)
    (hasKey processedKey doc.members) doc.countBetween doc.countBehind

theorem parts_nodup {doc : Document} (h : Distinct doc.members) :
    (doc.part isBetween₁ ++ doc.part isBetween₂ ++ doc.part isBehind).Nodup := by
  have whole : doc.ordered.Nodup :=
    List.Pairwise.of_map (·.1) (fun _ _ ne same => ne (congrArg _ same)) (ordered_distinct h)
  rw [ordered_eq] at whole
  refine whole.sublist ?_
  rw [List.append_assoc]
  refine .trans ?_ (List.sublist_append_right _ _)
  refine .trans ?_ (List.sublist_append_right _ _)
  refine .append (.refl _) (.trans ?_ (List.sublist_append_right _ _))
  exact .append (.refl _) (List.sublist_append_right _ _)

theorem isBefore_keys : ∀ key ∈ checksumKeys, isBefore key = false := by decide

theorem isBetween₁_keys : ∀ key ∈ checksumKeys, isBetween₁ key = false := by decide

theorem isBetween₂_keys : ∀ key ∈ checksumKeys, isBetween₂ key = false := by decide

theorem isBehind_keys : ∀ key ∈ checksumKeys, isBehind key = false := by decide

theorem canonicalMembers_agree {doc doc' : Document} (h : Agree doc doc') :
    doc'.canonicalMembers = doc.part isBefore ++
      arranged (hasKey checksumKey doc'.members) (hasKey contentKey doc'.members)
        (hasKey processedKey doc'.members) (doc.part isBetween₁) (doc.part isBetween₂)
        (doc.part isBehind) := by
  rw [canonicalMembers_eq h.1, h.part isBefore_keys, h.part isBetween₁_keys,
    h.part isBetween₂_keys, h.part isBehind_keys]

theorem agree_process {doc : Document} (h : Distinct doc.members) : Agree doc doc.process :=
  agree_setExtensions (by simp) (by simp [checksumKeys]) h

theorem agree_stamp {doc : Document} (h : Distinct doc.members) : Agree doc doc.stamp.2 := by
  have keys : [contentKey, processedKey].Nodup := by decide
  have first : Agree doc
      (doc.setExtensions [(contentKey, ""), (processedKey, doc.processedChecksum)]) :=
    agree_setExtensions (by exact keys) (by simp [checksumKeys]) h
  exact first.trans (agree_setExtensions (by simp) (by simp [checksumKeys]) first.1)

theorem canonicalMembers_process_iff {doc : Document} (h : Distinct doc.members) :
    doc.process.canonicalMembers = doc.canonicalMembers ↔ doc.processKeepsOrder = true := by
  have ne₁ : (processedKey == checksumKey) = false := by decide
  have ne₂ : (processedKey == contentKey) = false := by decide
  rw [canonicalMembers_agree (agree_process h), canonicalMembers_eq h, List.append_cancel_left_eq,
    processKeepsOrder, countBetween, countBehind, ← length_part, ← length_part,
    ← arranged_process_iff _ _ _ (parts_nodup h)]
  simp only [process, hasKey_setExtensions, hasKey_singleton, ne₁, ne₂, beq_self_eq_true,
    Bool.or_false, Bool.or_true]

theorem canonicalMembers_stamp_iff {doc : Document} (h : Distinct doc.members) :
    doc.stamp.2.canonicalMembers = doc.canonicalMembers ↔ doc.stampKeepsOrder = true := by
  have ne₁ : (processedKey == checksumKey) = false := by decide
  have ne₂ : (contentKey == checksumKey) = false := by decide
  rw [canonicalMembers_agree (agree_stamp h), canonicalMembers_eq h, List.append_cancel_left_eq,
    stampKeepsOrder, countBetween, countBehind, ← length_part, ← length_part,
    ← arranged_stamp_iff _ _ _ (parts_nodup h)]
  simp only [stamp, hasKey_setExtensions, hasKey_cons, hasKey_nil, ne₁, ne₂, beq_self_eq_true,
    Bool.or_false, Bool.or_true, Bool.true_or]

/-! ### The members whatever their order -/

theorem swapErase_perm {ms : Members} (h : Distinct ms) (key : String) :
    (swapErase key ms).Perm (ms.filter fun m => m.1 != key) := by
  cases found : hasKey key ms with
  | false =>
    rw [swapErase_of_not_hasKey found, List.filter_eq_self.2]
    exact fun m hm => bne_iff_ne.2 (hasKey_eq_false_iff.1 found m hm)
  | true =>
    obtain ⟨before, value, after, rfl, absent⟩ := split_of_hasKey found
    have later : ∀ m ∈ after, m.1 ≠ key := by
      intro m hm same
      rw [Distinct, List.map_append, List.map_cons, List.nodup_append, List.nodup_cons] at h
      exact h.2.1.1 (List.mem_map.2 ⟨m, hm, same⟩)
    have keep₁ : before.filter (fun m => m.1 != key) = before :=
      List.filter_eq_self.2 fun m hm => bne_iff_ne.2 (hasKey_eq_false_iff.1 absent m hm)
    have keep₂ : after.filter (fun m => m.1 != key) = after :=
      List.filter_eq_self.2 fun m hm => bne_iff_ne.2 (later m hm)
    rw [swapErase_append_cons absent, List.filter_append, List.filter_cons_of_neg (by simp), keep₁,
      keep₂]
    exact (lastFirst_perm after).append_left before

/-- The canonical members are the sorted ones without those that store checksums. -/
theorem canonicalMembers_perm {doc : Document} (h : Distinct doc.members) :
    doc.canonicalMembers.Perm (doc.part fun key => !checksumKeys.contains key) := by
  have filtered (keys : List String) {ms : Members} (distinct : Distinct ms) :
      (keys.foldl (fun ms key => swapErase key ms) ms).Perm
        (ms.filter fun m => !keys.contains m.1) := by
    induction keys generalizing ms with
    | nil => exact .of_eq (List.filter_eq_self.2 fun _ _ => rfl).symm
    | cons key keys ih =>
      have one := swapErase_perm distinct key
      have distinct' : Distinct (swapErase key ms) :=
        (one.map _).nodup_iff.2 (Members.distinct_filter distinct _)
      refine (ih distinct').trans ((one.filter _).trans (.of_eq ?_))
      rw [List.filter_filter]
      exact List.filter_congr fun m _ => by
        rw [List.contains_cons, Bool.not_or, Bool.and_comm]
        rfl
  exact filtered checksumKeys (ordered_distinct h)

theorem canonicalMembers_perm_agree {doc doc' : Document} (h : Distinct doc.members)
    (agree : Agree doc doc') : doc'.canonicalMembers.Perm doc.canonicalMembers := by
  refine (canonicalMembers_perm agree.1).trans (.trans (.of_eq ?_) (canonicalMembers_perm h).symm)
  exact agree.part fun key hkey => by simp [hkey]

theorem canonicalMembers_distinct {doc : Document} (h : Distinct doc.members) :
    Distinct doc.canonicalMembers :=
  ((canonicalMembers_perm h).map _).nodup_iff.2 (Members.distinct_filter (ordered_distinct h) _)

end Document

end OpenApiModels.Spec
