import OpenApiModels.Proofs.Keyed
import OpenApiModels.Workspace.Action

/-!
# Writing over a file

Writing over a file moves no other file and no directory, so that every path leads where it led
before, and what was written is what is read.
-/

namespace OpenApiModels

namespace Workspace

variable {w : Workspace} {loc : Location} {f g : File}

/-! ### Places -/

/-- The root holds no file. -/
theorem ne_nil_of_find? (h : w.find? loc = some (.file f)) : loc ≠ [] := by
  rintro rfl
  cases h

theorem ne_nil_of_free (free : w.isDirectoryAt loc = false) : loc ≠ [] := by
  rintro rfl
  cases free

theorem mem_of_find? {e : Entry} (found : w.find? loc = some e) (some : loc ≠ []) :
    (loc, e) ∈ w.entries := by
  rw [find?, if_neg some] at found
  obtain ⟨before, after, isEntries, -⟩ := List.lookup_eq_some_iff.1 found
  rw [isEntries]
  exact List.mem_append_right _ List.mem_cons_self

theorem isDirectoryAt_put_file (h : w.find? loc = some (.file f)) (other : Location) :
    (w.put loc (.file g)).isDirectoryAt other = w.isDirectoryAt other := by
  have ne := ne_nil_of_find? h
  by_cases same : other = loc
  · subst same
    simp only [isDirectoryAt, find?_put_self ne, h]
    rfl
  · simp [isDirectoryAt, find?_put_of_ne same]

theorem follow_congr {a b : Workspace} (h : ∀ loc, a.isDirectoryAt loc = b.isDirectoryAt loc)
    (parts : List String) (here : Location) : a.follow here parts = b.follow here parts := by
  induction parts generalizing here with
  | nil => rfl
  | cons part parts ih => simp only [follow, h here, ih]

/-- Further directories do not change where a path leads. -/
theorem follow_mono {a b : Workspace} (h : ∀ loc, a.isDirectoryAt loc → b.isDirectoryAt loc)
    {parts : List String} {here : Location} (led : a.follow here parts = some loc) :
    b.follow here parts = some loc := by
  induction parts generalizing here with
  | nil => exact led
  | cons part parts ih =>
    unfold follow at led ⊢
    split at led
    · cases led
    rename_i directory
    rw [if_neg (by simpa using h here (by simpa using directory))]
    split at led
    · rename_i skipped
      rw [if_pos skipped]
      exact ih led
    rename_i named
    rw [if_neg named]
    split at led
    · rename_i up
      rw [if_pos up]
      split at led
      · cases led
      · rename_i below
        rw [if_neg below]
        exact ih led
    rename_i down
    rw [if_neg down]
    split at led
    · cases led
    · rename_i short
      rw [if_neg short]
      exact ih led

theorem locate?_mono {a b : Workspace} (h : ∀ loc, a.isDirectoryAt loc → b.isDirectoryAt loc)
    {path : String} (located : a.locate? path = some loc) : b.locate? path = some loc := by
  unfold locate? at located ⊢
  split at located
  · cases located
  · rename_i usable
    rw [if_neg usable]
    exact follow_mono h located

theorem locate?_put_file (h : w.find? loc = some (.file f)) (path : String) :
    (w.put loc (.file g)).locate? path = w.locate? path := by
  simp only [locate?, follow_congr (isDirectoryAt_put_file h)]

theorem put_eq_self (h : w.find? loc = some (.file f)) : w.put loc (.file f) = w := by
  have ne := ne_nil_of_find? h
  have entry : w.entries.lookup loc = some (.file f) := by simpa [find?, ne] using h
  exact congrArg Workspace.mk (Keyed.put_eq_self entry)

/-! ### Texts -/

theorem readText_eq_ok {path text : String} (h : w.readText path = .ok text) :
    ∃ loc f, w.locate? path = some loc ∧ w.find? loc = some (.file f) ∧
      f.content = .text text := by
  cases located : w.locate? path with
  | none => simp [readText, read, lookup?, located, bind, Except.bind] at h
  | some loc =>
    cases found : w.find? loc with
    | none => simp [readText, read, lookup?, located, found, bind, Except.bind] at h
    | some entry =>
      cases entry with
      | directory => simp [readText, read, lookup?, located, found, bind, Except.bind] at h
      | file f =>
        cases content : f.content with
        | bytes bs =>
          simp [readText, read, lookup?, located, found, content, bind, Except.bind] at h
        | text s =>
          simp only [readText, read, lookup?, located, found, content, bind, Except.bind,
            Option.bind, Except.ok.injEq] at h
          exact ⟨loc, f, rfl, found, by rw [content, h]⟩

theorem readText_of_find? {path text : String} (located : w.locate? path = some loc)
    (found : w.find? loc = some (.file f)) (content : f.content = .text text) :
    w.readText path = .ok text := by
  simp [readText, read, lookup?, located, found, content, bind, Except.bind]

theorem write_of_find? {path : String} (located : w.locate? path = some loc)
    (found : w.find? loc = some (.file f)) (content : Content) :
    w.write path content = .ok (w.put loc (.file { f with content })) := by
  simp [write, located, found]

/-- What is written over a file is read back, and writing it again changes nothing. -/
theorem write_over {path old : String} (h : w.readText path = .ok old) (new : String) :
    ∃ w', w.write path (.text new) = .ok w' ∧ w'.readText path = .ok new ∧
      w'.write path (.text new) = .ok w' := by
  obtain ⟨loc, f, located, found, -⟩ := readText_eq_ok h
  have ne := ne_nil_of_find? found
  have located' := (locate?_put_file (g := { f with content := .text new }) found path).trans
    located
  have found' := find?_put_self ne (.file { f with content := .text new }) w
  refine ⟨_, write_of_find? located found _, readText_of_find? located' found' rfl, ?_⟩
  rw [write_of_find? located' found']
  exact congrArg Except.ok (put_eq_self found')

end Workspace

/-! ### Actions -/

namespace Action

variable {ε ε' α β : Type} {w w' : Workspace}

/-- An action goes on from what the one before it yields. -/
theorem outcome_bind {x : Action ε α} {f : α → Action ε β} {a : α}
    (h : x.outcome w = pure (.ok a, w')) : (x >>= f).outcome w = (f a).outcome w' := by
  have run : (x >>= f).outcome w =
      (x.outcome w).bind fun r => ExceptT.bindCont f r.1 r.2 := rfl
  rw [run, h]
  rfl

/-- Warnings do not matter to how an action goes on. -/
theorem value_outcome_bind {x : Action ε α} {f : α → Action ε β} {a : α}
    (h : (x.outcome w).value = (.ok a, w')) :
    ((x >>= f).outcome w).value = ((f a).outcome w').value := by
  have run : (x >>= f).outcome w =
      (x.outcome w).bind fun r => ExceptT.bindCont f r.1 r.2 := rfl
  rw [run]
  show (ExceptT.bindCont f (x.outcome w).value.1 (x.outcome w).value.2).value = _
  rw [h]
  rfl

theorem outcome_bind_error {x : Action ε α} {f : α → Action ε β} {e : ε}
    (h : x.outcome w = pure (.error e, w')) : (x >>= f).outcome w = pure (.error e, w') := by
  have run : (x >>= f).outcome w =
      (x.outcome w).bind fun r => ExceptT.bindCont f r.1 r.2 := rfl
  rw [run, h]
  rfl

theorem outcome_map {x : Action ε α} {a : α} (h : x.outcome w = pure (.ok a, w')) (f : α → β) :
    (f <$> x).outcome w = pure (.ok (f a), w') := by
  have run : (f <$> x).outcome w = (x >>= fun a => pure (f a)).outcome w := rfl
  rw [run, outcome_bind h]
  rfl

theorem outcome_map_error {x : Action ε α} {e : ε} (h : x.outcome w = pure (.error e, w'))
    (f : α → β) : (f <$> x).outcome w = pure (.error e, w') := by
  have run : (f <$> x).outcome w = (x >>= fun a => pure (f a)).outcome w := rfl
  rw [run, outcome_bind_error h]

theorem outcome_mapError {x : Action ε α} {r : Except ε α} (h : x.outcome w = pure (r, w'))
    (f : ε → ε') : (x.mapError f).outcome w = pure (r.mapError f, w') := by
  have run : (x.mapError f).outcome w =
      (x.outcome w).bind fun r => pure (r.1.mapError f, r.2) := rfl
  rw [run, h]
  rfl

theorem outcome_readText {path text : String} (h : w.readText path = .ok text)
    (onError : FileError → ε) : (readText path onError).outcome w = pure (.ok text, w) := by
  have run : (readText path onError).outcome w =
      pure ((w.readText path).mapError onError, w) := rfl
  rw [run, h]
  rfl

theorem outcome_readText_error {path : String} {e : FileError} (h : w.readText path = .error e)
    (onError : FileError → ε) :
    (readText path onError).outcome w = pure (.error (onError e), w) := by
  have run : (readText path onError).outcome w =
      pure ((w.readText path).mapError onError, w) := rfl
  rw [run, h]
  rfl

theorem outcome_look (f : Workspace → α) (w : Workspace) :
    (look f : Action ε α).outcome w = pure (.ok (f w), w) := rfl

theorem value_outcome_logged (x : Logged α) (w : Workspace) :
    ((logged x : Action ε α).outcome w).value = (.ok x.value, w) := rfl

theorem outcome_update {f : Workspace → Except FileError Workspace} (h : f w = .ok w')
    (onError : FileError → ε) : (update f onError).outcome w = pure (.ok (), w') := by
  rw [update, outcome_bind (outcome_look f w), h]
  rfl

theorem outcome_update_error {f : Workspace → Except FileError Workspace} {e : FileError}
    (h : f w = .error e) (onError : FileError → ε) :
    (update f onError).outcome w = pure (.error (onError e), w) := by
  rw [update, outcome_bind (outcome_look f w), h]
  rfl

theorem outcome_writeText {path text : String} (h : w.write path (.text text) = .ok w')
    (onError : FileError → ε) : (writeText path text onError).outcome w = pure (.ok (), w') :=
  outcome_update h onError

theorem outcome_writeText_error {path text : String} {e : FileError}
    (h : w.write path (.text text) = .error e) (onError : FileError → ε) :
    (writeText path text onError).outcome w = pure (.error (onError e), w) :=
  outcome_update_error h onError

/-- An action in two steps succeeds only if both of them do. -/
theorem exists_of_bind {x : Action ε α} {f : α → Action ε β} {b : β}
    (h : ((x >>= f).outcome w).value = (.ok b, w')) :
    ∃ a mid, (x.outcome w).value = (.ok a, mid) ∧ ((f a).outcome mid).value = (.ok b, w') := by
  have run : ((x >>= f).outcome w).value =
      (ExceptT.bindCont f (x.outcome w).value.1 (x.outcome w).value.2).value := rfl
  rw [run] at h
  cases first : (x.outcome w).value with
  | mk result mid =>
    rw [first] at h
    cases result with
    | error e => cases h
    | ok a => exact ⟨a, mid, rfl, h⟩

theorem value_of_mapError {x : Action ε α} {f : ε → ε'} {a : α}
    (h : ((x.mapError f).outcome w).value = (.ok a, w')) : (x.outcome w).value = (.ok a, w') := by
  have run : ((x.mapError f).outcome w).value =
      ((x.outcome w).value.1.mapError f, (x.outcome w).value.2) := rfl
  rw [run] at h
  cases first : (x.outcome w).value with
  | mk result mid =>
    rw [first] at h
    cases result with
    | error e => cases h
    | ok b =>
      cases h
      rfl

theorem readText_of_outcome {path text : String} {onError : FileError → ε}
    (h : ((readText path onError).outcome w).value = (.ok text, w')) :
    w.readText path = .ok text ∧ w' = w := by
  have run : ((readText path onError).outcome w).value =
      ((w.readText path).mapError onError, w) := rfl
  rw [run] at h
  cases read : w.readText path with
  | error e =>
    rw [read] at h
    cases h
  | ok s =>
    rw [read] at h
    cases h
    exact ⟨rfl, rfl⟩

theorem write_of_outcome {path text : String} {onError : FileError → ε}
    (h : ((writeText path text onError).outcome w).value = (.ok (), w')) :
    w.write path (.text text) = .ok w' := by
  cases written : w.write path (.text text) with
  | error e =>
    rw [outcome_writeText_error written] at h
    cases h
  | ok w₁ =>
    rw [outcome_writeText written] at h
    cases h
    rfl

theorem eq_of_look {f : Workspace → α} {a : α}
    (h : ((look f : Action ε α).outcome w).value = (.ok a, w')) : f w = a ∧ w = w' := by
  rw [outcome_look] at h
  cases h
  exact ⟨rfl, rfl⟩

theorem outcome_ofExcept (a : α) (w : Workspace) :
    (ofExcept (.ok a) : Action ε α).outcome w = pure (.ok a, w) := rfl

end Action

end OpenApiModels
