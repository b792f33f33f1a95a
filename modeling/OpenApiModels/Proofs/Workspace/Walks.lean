import Mathlib.Data.List.Nodup
import OpenApiModels.Workspace.Basic

/-!
# Walks through a directory

A walk comes to every file below a directory (`mem_filesBelow`). A new file is met in between the
others, whose order stays (`filesBelow_append`).
-/

namespace OpenApiModels.Workspace

-- Locations are ordered by the core library, whatever else is imported.
attribute [local instance (high)] List.instLE

variable {w : Workspace} {root loc rel : Location} {f : File}

theorem below?_eq_some_iff : below? root loc = some rel ↔ loc = root ++ rel := by
  induction root generalizing loc with
  | nil => simp [below?]
  | cons r root ih =>
    cases loc with
    | nil => simp [below?]
    | cons name loc =>
      by_cases same : r = name
      · simp [below?, same, ih]
      · simp [below?, same, Ne.symm same]

/-- A file with the names that lead to it from `root`. -/
def fileBelow? (root : Location) (e : Location × Entry) : Option (Location × File) :=
  match below? root e.1, e.2 with
  | some rel, .file f => some (rel, f)
  | _, _ => none

theorem fileBelow?_eq_some_iff {e : Location × Entry} :
    fileBelow? root e = some (rel, f) ↔ e = (root ++ rel, .file f) := by
  obtain ⟨loc, e⟩ := e
  rw [Prod.mk.injEq, ← below?_eq_some_iff, fileBelow?]
  cases below? root loc with
  | none => simp
  | some rel' => cases e <;> simp

theorem filesBelow_eq (w : Workspace) (root : Location) :
    w.filesBelow root =
      (w.entries.filterMap (fileBelow? root)).mergeSort fun a b => decide (a.1 ≤ b.1) := rfl

theorem mem_filesBelow : (rel, f) ∈ w.filesBelow root ↔ (root ++ rel, .file f) ∈ w.entries := by
  rw [filesBelow_eq, (List.mergeSort_perm _ _).mem_iff, List.mem_filterMap]
  simp only [fileBelow?_eq_some_iff, exists_eq_right]

/-- A further file is met in between the others, behind those that come before it in the order of
their names. -/
theorem filesBelow_append (distinct : (w.entries.map (·.1)).Nodup)
    (new : root ++ rel ∉ w.entries.map (·.1)) (f : File) :
    ∃ before after, w.filesBelow root = before ++ after ∧
      filesBelow ⟨w.entries ++ [(root ++ rel, .file f)]⟩ root = before ++ (rel, f) :: after ∧
      ∀ e ∈ before, ¬ rel ≤ e.1 := by
  have trans (a b c : Location × File) :
      decide (a.1 ≤ b.1) = true → decide (b.1 ≤ c.1) = true → decide (a.1 ≤ c.1) = true :=
    fun h h' => decide_eq_true (Std.le_trans (of_decide_eq_true h) (of_decide_eq_true h'))
  have total (a b : Location × File) : (decide (a.1 ≤ b.1) || decide (b.1 ≤ a.1)) = true := by
    rw [Bool.or_eq_true, decide_eq_true_iff, decide_eq_true_iff]
    exact Std.le_total
  let entries := w.entries ++ [(root ++ rel, Entry.file f)]
  have distinct' : (entries.map (·.1)).Nodup := by
    rw [List.map_append, List.nodup_append]
    refine ⟨distinct, List.nodup_singleton _, fun a ha b hb => ?_⟩
    rintro rfl
    rw [List.map_singleton, List.mem_singleton] at hb
    obtain rfl : a = root ++ rel := hb
    exact new ha
  have found : entries.filterMap (fileBelow? root) =
      w.entries.filterMap (fileBelow? root) ++ [(rel, f)] := by
    rw [List.filterMap_append]
    congr 1
    rw [List.filterMap_cons, fileBelow?_eq_some_iff.2 rfl]
    rfl
  have antisymm : ∀ a ∈ entries.filterMap (fileBelow? root),
      ∀ b ∈ entries.filterMap (fileBelow? root), a.1 ≤ b.1 → b.1 ≤ a.1 → a = b := by
    rintro ⟨rel₁, f₁⟩ ha ⟨rel₂, f₂⟩ hb le ge
    obtain rfl : rel₁ = rel₂ := Std.le_antisymm le ge
    obtain ⟨e₁, h₁, isEntry₁⟩ := List.mem_filterMap.1 ha
    obtain ⟨e₂, h₂, isEntry₂⟩ := List.mem_filterMap.1 hb
    rw [fileBelow?_eq_some_iff] at isEntry₁ isEntry₂
    have same := List.inj_on_of_nodup_map distinct' h₁ h₂ (by rw [isEntry₁, isEntry₂])
    rw [isEntry₁, isEntry₂] at same
    cases same
    rfl
  obtain ⟨before, after, sorted', sorted, smaller⟩ :=
    List.mergeSort_cons trans total (rel, f) (w.entries.filterMap (fileBelow? root))
  refine ⟨before, after, sorted, ?_, fun e he => by simpa using smaller e he⟩
  rw [filesBelow_eq, ← sorted']
  have perm : ((rel, f) :: w.entries.filterMap (fileBelow? root)).Perm
      (entries.filterMap (fileBelow? root)) := by
    rw [found]
    exact (List.perm_append_singleton _ _).symm
  refine List.Perm.eq_of_pairwise (fun a b ha hb le ge => ?_)
    (List.pairwise_mergeSort trans total _) (List.pairwise_mergeSort trans total _)
    ((List.mergeSort_perm _ _).trans (perm.symm.trans (List.mergeSort_perm _ _).symm))
  refine antisymm a ((List.mergeSort_perm _ _).mem_iff.1 ha) b ?_ (by simpa using le)
    (by simpa using ge)
  exact perm.mem_iff.1 ((List.mergeSort_perm _ _).mem_iff.1 hb)

end OpenApiModels.Workspace
