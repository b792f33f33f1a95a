import OpenApiModels.Proofs.Keyed

/-!
# The order of canonical members

Erasing a checksum member lets the last member take its place, so the order of what is left
depends on which checksum members there were. `arranged` gives that order from the sorted members
between the checksum keys, and `arranged_process_iff` and `arranged_stamp_iff` say when it stays
the same though checksum members are added.
-/

namespace OpenApiModels.Spec

open Keyed

/-! ### Lists in three parts -/

section Arranged

variable {α : Type}

/-- What erasing the checksum members leaves of sorted members, of which `between₁` stand between
the first and the second checksum key, `between₂` between the second and the third, and `behind`
behind the third; the flags say which of the keys there are. -/
def arranged (legacy content processed : Bool) (between₁ between₂ behind : List α) : List α :=
  match legacy, content, processed with
  | false, false, false => between₁ ++ between₂ ++ behind
  | false, false, true => between₁ ++ between₂ ++ lastFirst behind
  | false, true, false => between₁ ++ lastFirst (between₂ ++ behind)
  | true, false, false => lastFirst (between₁ ++ between₂ ++ behind)
  | false, true, true =>
    match behind.getLast? with
    | none => between₁ ++ lastFirst between₂
    | some last => between₁ ++ last :: between₂ ++ lastFirst behind.dropLast
  | true, false, true =>
    match behind.getLast? with
    | none => lastFirst (between₁ ++ between₂)
    | some last => last :: between₁ ++ between₂ ++ lastFirst behind.dropLast
  | true, true, false =>
    match (between₂ ++ behind).getLast?, (between₂ ++ behind).dropLast.getLast? with
    | none, _ => lastFirst between₁
    | some last, none => last :: between₁
    | some last, some second =>
      second :: between₁ ++ last :: (between₂ ++ behind).dropLast.dropLast
  | true, true, true =>
    match behind.getLast?, behind.dropLast.getLast? with
    | none, _ =>
      match between₂.getLast? with
      | none => lastFirst between₁
      | some last => last :: between₁ ++ lastFirst between₂.dropLast
    | some last, none => lastFirst (between₁ ++ last :: between₂)
    | some last, some second =>
      second :: between₁ ++ last :: between₂ ++ lastFirst behind.dropLast.dropLast

theorem snoc_cases (xs : List α) : xs = [] ∨ ∃ init last, xs = init ++ [last] := by
  simpa using List.eq_nil_or_concat xs

theorem concat_eq_cons_iff {xs : List α} {x : α} (h : (xs ++ [x]).Nodup) :
    xs ++ [x] = x :: xs ↔ xs = [] := by
  constructor
  · intro eq
    cases xs with
    | nil => rfl
    | cons y ys =>
      have same : y = x := (List.cons.inj eq).1
      simp [same] at h
  · rintro rfl
    rfl

theorem lastFirst_eq_self_iff {xs : List α} (h : xs.Nodup) :
    lastFirst xs = xs ↔ xs.length ≤ 1 := by
  rcases snoc_cases xs with rfl | ⟨init, last, rfl⟩
  · simp
  · rw [lastFirst_concat, eq_comm, concat_eq_cons_iff h]
    simp

end Arranged

/-- Whether storing the processed checksum alone keeps the canonical order of the root; the flags
say which checksum keys there are before, the numbers count the sorted members between the last two
of them and behind them. -/
def processKeepsOrder (legacy content processed : Bool) (between behind : Nat) : Bool :=
  processed ||
    match legacy, content with
    | false, false => behind ≤ 1
    | true, true => (behind = 0 ∧ between ≤ 1) ∨ (1 ≤ behind ∧ behind ≤ 3)
    | _, _ => behind ≤ 2

/-- Whether storing both checksums keeps the canonical order of the root. -/
def stampKeepsOrder (legacy content processed : Bool) (between behind : Nat) : Bool :=
  match legacy, content, processed with
  | _, true, _ => processKeepsOrder legacy true processed between behind
  | false, false, false => between + behind ≤ 1
  | false, false, true => (behind = 0 ∧ between ≤ 1) ∨ (between = 0 ∧ 1 ≤ behind ∧ behind ≤ 2)
  | true, false, _ => (behind = 0 ∧ between ≤ 2) ∨ (between = 0 ∧ behind = 1)

section Arranged

variable {α : Type} {between₁ between₂ behind : List α}

@[simp] theorem getLast?_cons_append_cons (x : α) (xs : List α) (y : α) (ys : List α) :
    (x :: (xs ++ y :: ys)).getLast? = (y :: ys).getLast? := by
  rw [← List.cons_append, List.getLast?_append]
  simp [List.getLast?_cons]

@[simp] theorem dropLast_cons_append_cons (x : α) (xs : List α) (y : α) (ys : List α) :
    (x :: (xs ++ y :: ys)).dropLast = x :: (xs ++ (y :: ys).dropLast) := by
  rw [← List.cons_append, List.dropLast_append_cons, List.cons_append]

theorem arranged_process_iff (legacy content processed : Bool)
    (distinct : (between₁ ++ between₂ ++ behind).Nodup) :
    arranged legacy content true between₁ between₂ behind =
        arranged legacy content processed between₁ between₂ behind ↔
      processKeepsOrder legacy content processed between₂.length behind.length := by
  cases processed with
  | true => simp [processKeepsOrder]
  | false =>
    rcases snoc_cases behind with rfl | ⟨c, l, rfl⟩
    · rcases snoc_cases between₂ with rfl | ⟨b, x, rfl⟩
      · cases legacy <;> cases content <;> simp [arranged, processKeepsOrder]
      · rcases snoc_cases b with rfl | ⟨b, y, rfl⟩
        · cases legacy <;> cases content <;> simp [arranged, processKeepsOrder]
        · have ne : y ≠ x := by rintro rfl; simp [List.nodup_append] at distinct
          cases legacy <;> cases content <;>
            simp [arranged, processKeepsOrder, ne, ne.symm]
    · rcases snoc_cases c with rfl | ⟨c, m, rfl⟩
      · rcases snoc_cases between₂ with rfl | ⟨b, x, rfl⟩
        · cases legacy <;> cases content <;> simp [arranged, processKeepsOrder]
        · cases legacy <;> cases content <;>
            simp [arranged, processKeepsOrder, lastFirst, ← List.append_assoc]
      · have last : (c ++ [m] ++ [l]).Nodup := (List.nodup_append.1 distinct).2.1
        have inner : (c ++ [m]).Nodup := (List.nodup_append.1 last).1
        have two := concat_eq_cons_iff last
        have one := concat_eq_cons_iff inner
        have rest := lastFirst_eq_self_iff (List.nodup_append.1 inner).1
        rw [eq_comm] at one two
        cases legacy <;> cases content <;>
          simp [arranged, processKeepsOrder, lastFirst, ← List.append_assoc]
        · simpa using two
        · simpa using one
        · simpa using one
        · simpa [lastFirst, Nat.lt_succ_iff] using rest

theorem arranged_stamp_iff (legacy content processed : Bool)
    (distinct : (between₁ ++ between₂ ++ behind).Nodup) :
    arranged legacy true true between₁ between₂ behind =
        arranged legacy content processed between₁ between₂ behind ↔
      stampKeepsOrder legacy content processed between₂.length behind.length := by
  cases content with
  | true =>
    rw [arranged_process_iff legacy true processed distinct]
    cases legacy <;> cases processed <;> rfl
  | false =>
    rcases snoc_cases behind with rfl | ⟨c, l, rfl⟩
    · rcases snoc_cases between₂ with rfl | ⟨b, x, rfl⟩
      · cases legacy <;> cases processed <;> simp [arranged, stampKeepsOrder]
      · have inner : (b ++ [x]).Nodup := by
          simpa using (List.nodup_append.1 (List.nodup_append.1 distinct).1).2.1
        have one := concat_eq_cons_iff inner
        have rest := lastFirst_eq_self_iff (List.nodup_append.1 inner).1
        rw [eq_comm] at one
        cases legacy <;> cases processed <;>
          simp [arranged, stampKeepsOrder, lastFirst, ← List.append_assoc]
        · simpa using one
        · simpa using one
        · simpa [lastFirst] using rest
        · simpa [lastFirst] using rest
    · have tail : (between₂ ++ (c ++ [l])).Nodup := by
        rw [List.append_assoc] at distinct
        exact (List.nodup_append.1 distinct).2.1
      rcases snoc_cases c with rfl | ⟨c, m, rfl⟩
      · rcases snoc_cases between₂ with rfl | ⟨b, x, rfl⟩
        · cases legacy <;> cases processed <;> simp [arranged, stampKeepsOrder]
        · have two := concat_eq_cons_iff tail
          have ne : x ≠ l := by rintro rfl; simp [List.nodup_append] at tail
          rw [eq_comm] at two
          cases legacy <;> cases processed <;>
            simp [arranged, stampKeepsOrder, lastFirst, ← List.append_assoc, ne]
          · simpa using two
          · simpa using two
      · have last : (c ++ [m] ++ [l]).Nodup := (List.nodup_append.1 tail).2.1
        have two := concat_eq_cons_iff last
        have one := concat_eq_cons_iff (List.nodup_append.1 last).1
        have ne : m ≠ l := by rintro rfl; simp [List.nodup_append] at last
        rw [eq_comm] at one two
        cases between₂ with
        | nil =>
          cases legacy <;> cases processed <;>
            simp [arranged, stampKeepsOrder, lastFirst, ← List.append_assoc, ne]
          · cases c with
            | nil => simp [ne.symm]
            | cons y c =>
              have first : l ≠ y := by rintro rfl; simp at last
              simp [first]
          · simpa using one
        | cons x b =>
          have first : l ≠ x := by rintro rfl; simp at tail
          cases legacy <;> cases processed <;>
            simp [arranged, stampKeepsOrder, lastFirst, ← List.append_assoc, ne]
          · simp [first]
            omega
          · simp [first]

end Arranged

end OpenApiModels.Spec
