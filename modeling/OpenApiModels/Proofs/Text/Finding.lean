import OpenApiModels.Text.Search

/-!
# First occurrences

What decides where a text first occurs in another is the part up to the end of the occurrence.
-/

namespace OpenApiModels.Text

theorem stripStart?_isSome_iff {key s : List Char} :
    (stripStart? key s).isSome = true ↔ key <+: s := by
  simp only [Option.isSome_iff_exists, stripStart?_eq_some_iff, List.IsPrefix]
  exact exists_congr fun _ => eq_comm

theorem stripStart?_eq_none_iff {key s : List Char} :
    stripStart? key s = none ↔ ¬ key <+: s := by
  rw [← stripStart?_isSome_iff, Option.not_isSome_iff_eq_none]

/-- A text that occurs nowhere earlier is found behind what comes before it. -/
theorem splitFirst?_eq_some_iff {key s before after : List Char} :
    splitFirst? key s = some (before, after) ↔
      s = before ++ key ++ after ∧
        ∀ a b, before = a ++ b → b ≠ [] → ¬ key <+: b ++ key ++ after := by
  induction s generalizing before with
  | nil =>
    cases key with
    | nil =>
      simp only [splitFirst?, List.isEmpty_nil, if_true, Option.some.injEq, Prod.mk.injEq,
        List.append_nil]
      constructor
      · rintro ⟨rfl, rfl⟩
        exact ⟨rfl, fun a b h hb => absurd (List.append_eq_nil_iff.1 h.symm).2 hb⟩
      · rintro ⟨h, -⟩
        exact ⟨(List.append_eq_nil_iff.1 h.symm).1.symm, (List.append_eq_nil_iff.1 h.symm).2.symm⟩
    | cons k key => simp [splitFirst?]
  | cons c cs ih =>
    cases found : stripStart? key (c :: cs) with
    | some rest =>
      have split := stripStart?_eq_some_iff.1 found
      simp only [splitFirst?, found, Option.some.injEq, Prod.mk.injEq]
      constructor
      · rintro ⟨rfl, rfl⟩
        exact ⟨split, fun a b h hb => absurd (List.append_eq_nil_iff.1 h.symm).2 hb⟩
      · rintro ⟨h, none⟩
        have first : before = [] := by
          by_cases start : before = []
          · exact start
          · refine absurd ?_ (none [] before rfl start)
            rw [← h, split]
            exact List.prefix_append key rest
        subst first
        rw [List.nil_append] at h
        exact ⟨rfl, List.append_cancel_left (split.symm.trans h)⟩
    | none =>
      have here := stripStart?_eq_none_iff.1 found
      simp only [splitFirst?, found, Option.map_eq_some_iff, Prod.exists, Prod.mk.injEq]
      constructor
      · rintro ⟨inner, rest, h, rfl, rfl⟩
        obtain ⟨rfl, none⟩ := ih.1 h
        refine ⟨rfl, fun a b eq hb => ?_⟩
        cases a with
        | nil =>
          obtain rfl : c :: inner = b := eq
          exact here
        | cons a as => exact none as b (List.cons.inj eq).2 hb
      · rintro ⟨h, none⟩
        cases before with
        | nil =>
          refine absurd ?_ here
          rw [h]
          exact List.prefix_append key after
        | cons b before =>
          obtain ⟨rfl, rest⟩ := List.cons.inj h
          refine ⟨before, after, ih.2 ⟨rest, fun a b eq hb => ?_⟩, rfl, rfl⟩
          exact none (c :: a) b (by rw [eq]; rfl) hb

/-- What follows the first occurrence does not matter to it. -/
theorem splitFirst?_congr {key before after : List Char} (other : List Char)
    (h : splitFirst? key (before ++ key ++ after) = some (before, after)) :
    splitFirst? key (before ++ key ++ other) = some (before, other) := by
  obtain ⟨-, none⟩ := splitFirst?_eq_some_iff.1 h
  refine splitFirst?_eq_some_iff.2 ⟨rfl, fun a b eq hb start => none a b eq hb ?_⟩
  have inside : key <+: b ++ key := by
    refine List.prefix_of_prefix_length_le start ⟨other, rfl⟩ ?_
    rw [List.length_append]
    exact Nat.le_add_left _ _
  exact inside.trans ⟨after, rfl⟩

theorem splitFirst?_isSome_iff {key s : List Char} :
    (splitFirst? key s).isSome = true ↔ key <:+: s := by
  induction s with
  | nil => simp [splitFirst?, apply_ite Option.isSome]
  | cons c cs ih =>
    rw [List.infix_cons_iff, ← ih, ← stripStart?_isSome_iff, splitFirst?]
    split
    · rename_i rest here
      simp [here]
    · rename_i notHere
      simp [notHere]

theorem containsText_iff {key s : List Char} : containsText key s = true ↔ key <:+: s :=
  splitFirst?_isSome_iff

/-! ### Texts without a start of another -/

/-- No occurrence of `key` starts in `text`, which `rest` follows. -/
def Avoids (key text rest : List Char) : Prop :=
  ∀ a b, text = a ++ b → b ≠ [] → ¬ key <+: b ++ rest

variable {key : List Char}

theorem avoids_nil (rest : List Char) : Avoids key [] rest :=
  fun _ _ eq hb => absurd (List.append_eq_nil_iff.1 eq.symm).2 hb

theorem avoids_cons {c : Char} {text rest : List Char} :
    Avoids key (c :: text) rest ↔ ¬ key <+: c :: (text ++ rest) ∧ Avoids key text rest := by
  constructor
  · intro h
    refine ⟨h [] (c :: text) rfl (List.cons_ne_nil c text), fun a b eq hb => ?_⟩
    exact h (c :: a) b (by rw [eq]; rfl) hb
  · rintro ⟨here, later⟩ a b eq hb
    cases a with
    | nil =>
      obtain rfl : c :: text = b := eq
      exact here
    | cons d a => exact later a b (List.cons.inj eq).2 hb

theorem avoids_append {a b rest : List Char} :
    Avoids key (a ++ b) rest ↔ Avoids key a (b ++ rest) ∧ Avoids key b rest := by
  induction a with
  | nil => simp [avoids_nil]
  | cons c a ih => simp [avoids_cons, ih, and_assoc]

/-- A text is found behind one that no occurrence starts in. -/
theorem splitFirst?_of_avoids {before after : List Char}
    (h : Avoids key before (key ++ after)) :
    splitFirst? key (before ++ (key ++ after)) = some (before, after) := by
  rw [← List.append_assoc]
  refine splitFirst?_eq_some_iff.2 ⟨rfl, fun a b eq hb => ?_⟩
  rw [List.append_assoc]
  exact h a b eq hb

theorem avoids_of_splitFirst? {before after : List Char}
    (h : splitFirst? key (before ++ (key ++ after)) = some (before, after)) :
    Avoids key before (key ++ after) := by
  intro a b eq hb
  rw [← List.append_assoc]
  exact (splitFirst?_eq_some_iff.1 h).2 a b eq hb

end OpenApiModels.Text
