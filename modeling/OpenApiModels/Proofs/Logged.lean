import OpenApiModels.Logged

/-!
# Lists of computations with warnings

The value of a computation over a list is computed from the values alone.
-/

namespace OpenApiModels.Logged

variable {α β : Type}

instance : LawfulMonad Logged :=
  LawfulMonad.mk' _
    (fun x => by
      show Logged.mk x.value (x.warnings ++ []) = x
      rw [List.append_nil])
    (fun _ _ => rfl)
    (fun x f g => by
      show Logged.mk _ (x.warnings ++ _ ++ _) = Logged.mk _ (x.warnings ++ (_ ++ _))
      rw [List.append_assoc]
      rfl)

theorem value_mapM (f : α → Logged β) (xs : List α) :
    (xs.mapM f).value = xs.map fun x => (f x).value := by
  induction xs with
  | nil => rfl
  | cons x xs ih =>
    rw [List.mapM_cons, value_bind, value_bind, ih]
    rfl

theorem value_foldlM (f : β → α → Logged β) (b : β) (xs : List α) :
    (xs.foldlM f b).value = xs.foldl (fun b x => (f b x).value) b := by
  induction xs generalizing b with
  | nil => rfl
  | cons x xs ih => rw [List.foldlM_cons, value_bind, ih, List.foldl_cons]

end OpenApiModels.Logged
