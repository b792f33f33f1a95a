import OpenApiModels.Proofs.Logged
import OpenApiModels.Proofs.Workspace.Rewriting

/-!
# Actions that keep files

A run is seen by what it ends in: its result and the state behind it. `Keeps` says that a run
leaves part of the state as it was, whether it succeeds or fails.
-/

namespace OpenApiModels

/-- Runs that may fail, with warnings: actions on a workspace and steps of a command. -/
abbrev Run (ε σ : Type) := ExceptT ε (StateT σ Logged)

namespace Run

variable {ε ε' σ τ α β : Type} {x : Run ε σ α} {f : α → Run ε σ β} {s : σ} {view : σ → τ}

/-- What a run ends in. -/
def ended (x : Run ε σ α) (s : σ) : Except ε α × σ :=
  (StateT.run (ExceptT.run x) s).value

theorem ended_bind (x : Run ε σ α) (f : α → Run ε σ β) (s : σ) :
    ended (x >>= f) s =
      match ended x s with
      | (.ok a, s') => ended (f a) s'
      | (.error e, s') => (.error e, s') := by
  have run : ended (x >>= f) s = (ExceptT.bindCont f (ended x s).1 (ended x s).2).value := rfl
  rw [run]
  obtain ⟨result, s'⟩ := ended x s
  cases result <;> rfl

/-! ### Keeping -/

/-- Whatever comes of the run, what `view` sees of the state is as before. -/
def Keeps (view : σ → τ) (x : Run ε σ α) : Prop :=
  ∀ s, view (ended x s).2 = view s

theorem Keeps.after {s' : σ} {result : Except ε α} (h : Keeps view x)
    (run : ended x s = (result, s')) : view s' = view s := by
  have kept := h s
  rwa [run] at kept

theorem keeps_pure (a : α) : Keeps view (pure a : Run ε σ α) := fun _ => rfl

theorem keeps_throw (e : ε) : Keeps view (throw e : Run ε σ α) := fun _ => rfl

theorem Keeps.bind (first : Keeps view x) (rest : ∀ a, Keeps view (f a)) :
    Keeps view (x >>= f) := by
  intro s
  have before := first s
  rw [ended_bind]
  generalize ended x s = out at before
  obtain ⟨result, s'⟩ := out
  cases result with
  | error e => exact before
  | ok a => exact (rest a s').trans before

theorem Keeps.forM {f : α → Run ε σ PUnit} (each : ∀ a, Keeps view (f a)) (xs : List α) :
    Keeps view (xs.forM f) := by
  induction xs with
  | nil => exact keeps_pure _
  | cons a xs ih => exact (each a).bind fun _ => ih

end Run

open Run

/-! ### Files -/

namespace Workspace

variable {w w' : Workspace} {here loc : Location}

theorem fileAt?_put_directory (new : w.find? loc = none) :
    (w.put loc .directory).fileAt? = w.fileAt? := by
  have below : loc ≠ [] := by
    rintro rfl
    cases new
  funext other
  by_cases same : other = loc
  · subst same
    simp only [fileAt?, find?_put_self below, new]
  · simp only [fileAt?, find?_put_of_ne same]

theorem fileAt?_makeAlong {parts : List String} (made : w.makeAlong here parts = .ok w') :
    w'.fileAt? = w.fileAt? := by
  induction parts generalizing w here with
  | nil =>
    obtain rfl := Except.ok.inj made
    rfl
  | cons part parts ih =>
    unfold makeAlong at made
    split at made
    · exact ih made
    split at made
    · split at made
      · cases made
      · exact ih made
    split at made
    · cases made
    split at made
    · exact ih made
    · cases made
    · rename_i new
      exact (ih made).trans (fileAt?_put_directory new)

theorem fileAt?_makeDirectories {path : String} (made : w.makeDirectories path = .ok w') :
    w'.fileAt? = w.fileAt? := by
  unfold makeDirectories at made
  split at made
  · cases made
  · exact fileAt?_makeAlong made

end Workspace

/-! ### Actions -/

namespace Action

variable {ε ε' α : Type}

theorem keeps_look (f : Workspace → α) : Keeps id (look f : Action ε α) := fun _ => rfl

theorem keeps_logged (x : Logged α) : Keeps id (logged x : Action ε α) := fun _ => rfl

theorem keeps_ofExcept (x : Except ε α) : Keeps id (ofExcept x) := fun _ => rfl

theorem keeps_readText (path : String) (onError : FileError → ε) :
    Keeps id (readText path onError) := fun _ => rfl

theorem keeps_mapError {τ : Type} {view : Workspace → τ} {a : Action ε α} (h : Keeps view a)
    (f : ε → ε') : Keeps view (a.mapError f) := h

/-- Making directories keeps every file, also where it fails. -/
theorem keeps_makeDirectories (path : String) (onError : FileError → ε) :
    Keeps Workspace.fileAt? (makeDirectories path onError) := by
  intro w
  cases made : w.makeDirectories path with
  | error e =>
    have failed := congrArg Logged.value (outcome_update_error made onError)
    exact congrArg (fun out => out.2.fileAt?) failed
  | ok w' =>
    have done := congrArg Logged.value (outcome_update made onError)
    exact (congrArg (fun out => out.2.fileAt?) done).trans (Workspace.fileAt?_makeDirectories made)

end Action

end OpenApiModels
