import OpenApiModels.Proofs.Logged
import OpenApiModels.Retyping.Run

/-!
# The passes of a run

A run is taken apart into the passes over each file (`transformFile_spec`) and the files one after
another (`transformAll_visits`).
-/

namespace OpenApiModels.Retyping

open Text TypeScript

/-- One transform after another changes the text of a file, with the renames that other files
follow. -/
inductive Passes (file : FileContext) :
    List Transform → List Char → List Char → List Rename → Prop where
  | nil (cs : List Char) : Passes file [] cs cs []
  | same {t : Transform} {ts : List Transform} {cs cs' : List Char} {renames : List Rename}
      (apply : (t.apply file cs).value = .ok none) (more : Passes file ts cs cs' renames) :
      Passes file (t :: ts) cs cs' renames
  | retyped {t : Transform} {ts : List Transform} {cs cs' : List Char} {renames : List Rename}
      {r : Retyped} (apply : (t.apply file cs).value = .ok (some r))
      (more : Passes file ts r.text cs' renames) :
      Passes file (t :: ts) cs cs' (r.renames ++ renames)

section

variable {file : FileContext} {cs cs' : List Char} {renames : List Rename}

theorem Passes.unique {transforms : List Transform} {other : List Char} {renames' : List Rename}
    (h : Passes file transforms cs cs' renames) (h' : Passes file transforms cs other renames') :
    cs' = other := by
  induction h generalizing renames' with
  | nil => cases h'; rfl
  | same apply _ ih =>
    cases h' with
    | same _ more => exact ih more
    | retyped apply' => rw [apply] at apply'; cases apply'
  | retyped apply _ ih =>
    cases h' with
    | same apply' => rw [apply] at apply'; cases apply'
    | retyped apply' more =>
      rw [apply] at apply'
      cases apply'
      exact ih more

theorem Passes.split {first rest : List Transform}
    (h : Passes file (first ++ rest) cs cs' renames) :
    ∃ middle before after, Passes file first cs middle before ∧
      Passes file rest middle cs' after := by
  induction first generalizing cs renames with
  | nil => exact ⟨cs, [], renames, .nil cs, h⟩
  | cons t first ih =>
    cases h with
    | same apply more =>
      obtain ⟨middle, before, after, passes, later⟩ := ih more
      exact ⟨middle, before, after, .same apply passes, later⟩
    | retyped apply more =>
      obtain ⟨middle, before, after, passes, later⟩ := ih more
      exact ⟨middle, _, after, .retyped apply passes, later⟩

/-- Every rename comes from one of the transforms. -/
theorem Passes.mem_split {transforms : List Transform}
    (h : Passes file transforms cs cs' renames) {rename : Rename} (mem : rename ∈ renames) :
    ∃ first t rest text before r, transforms = first ++ t :: rest ∧
      Passes file first cs text before ∧ (t.apply file text).value = .ok (some r) ∧
      rename ∈ r.renames := by
  induction h with
  | nil => cases mem
  | @same t ts cs cs' renames apply _ ih =>
    obtain ⟨first, u, rest, text, before, r, rfl, passes, found⟩ := ih mem
    exact ⟨t :: first, u, rest, text, before, r, rfl, .same apply passes, found⟩
  | @retyped t ts cs cs' renames r apply _ ih =>
    rcases List.mem_append.1 mem with here | later
    · exact ⟨[], t, ts, cs, [], r, rfl, .nil cs, apply, here⟩
    · obtain ⟨first, u, rest, text, before, r', rfl, passes, found⟩ := ih later
      exact ⟨t :: first, u, rest, text, _, r', rfl, .retyped apply passes, found⟩

end

/-- A transform fails on what the ones before it made of the text. -/
def Stops (file : FileContext) (transforms : List Transform) (cs : List Char) : Prop :=
  ∃ done t later text renames e, transforms = done ++ t :: later ∧
    Passes file done cs text renames ∧ (t.apply file text).value = .error e

variable {file : FileContext} {stored : List Char}

/-- The text so far. -/
def Combined.text (combined : Combined) (stored : List Char) : List Char :=
  (combined.retyped.map (·.text)).getD stored

def Combined.renames (combined : Combined) : List Rename :=
  (combined.retyped.map (·.renames)).getD []

theorem combine_ok {transforms : List Transform} {before after : Combined}
    (h : (combine file stored transforms before).value = .ok after) :
    ∃ renames, Passes file transforms (before.text stored) (after.text stored) renames ∧
      after.renames = before.renames ++ renames := by
  induction transforms generalizing before with
  | nil =>
    cases h
    exact ⟨[], .nil _, (List.append_nil _).symm⟩
  | cons t ts ih =>
    rw [combine, Logged.value_bind] at h
    split at h
    · cases h
    · rename_i apply
      obtain ⟨renames, passes, same⟩ := ih h
      exact ⟨renames, .same apply passes, same⟩
    · rename_i r apply
      obtain ⟨renames, passes, same⟩ := ih h
      refine ⟨r.renames ++ renames, .retyped apply passes, ?_⟩
      rw [same, ← List.append_assoc]
      cases before with
      | mk retyped fired => cases retyped <;> rfl

theorem combine_error {transforms : List Transform} {before : Combined}
    {error : Transform × SourceError}
    (h : (combine file stored transforms before).value = .error error) :
    Stops file transforms (before.text stored) := by
  induction transforms generalizing before with
  | nil => cases h
  | cons t ts ih =>
    rw [combine, Logged.value_bind] at h
    split at h
    · rename_i e apply
      exact ⟨[], t, ts, _, [], e, rfl, .nil _, apply⟩
    · rename_i apply
      obtain ⟨done, u, later, text, renames, e, rfl, passes, fails⟩ := ih h
      exact ⟨t :: done, u, later, text, renames, e, rfl, .same apply passes, fails⟩
    · rename_i r apply
      obtain ⟨done, u, later, text, renames, e, rfl, passes, fails⟩ := ih h
      exact ⟨t :: done, u, later, text, _, e, rfl, .retyped apply passes, fails⟩

/-- What becomes of one file. -/
inductive Visit (transforms : List Transform) (file : FileContext) (stored : List Char) :
    FileState → List Rename → Prop where
  | same {renames : List Rename} (passes : Passes file transforms stored stored renames) :
      Visit transforms file stored ⟨file.path, stored, stored, false⟩ []
  | retyped {text : List Char} {renames : List Rename}
      (passes : Passes file transforms stored text renames) :
      Visit transforms file stored ⟨file.path, stored, text, false⟩ renames
  | failed (stops : Stops file transforms stored) :
      Visit transforms file stored ⟨file.path, stored, stored, true⟩ []

/-- What all transforms make of a file. -/
theorem transformFile_spec (transforms : List Transform) (file : FileContext)
    (stored : List Char) :
    match (transformFile transforms file stored).value with
    | .ok none => ∃ renames, Passes file transforms stored stored renames
    | .ok (some (r, _)) => Passes file transforms stored r.text r.renames
    | .error _ => Stops file transforms stored := by
  rw [transformFile, Logged.value_bind]
  cases combined : (combine file stored transforms ⟨none, []⟩).value with
  | error e => exact combine_error combined
  | ok after =>
    obtain ⟨renames, passes, same⟩ := combine_ok combined
    obtain ⟨retyped, fired⟩ := after
    cases retyped with
    | none => exact ⟨renames, passes⟩
    | some r =>
      obtain rfl : r.renames = renames := same
      simp only [Logged.value_pure, Option.filter_some]
      split
      · rename_i none
        split at none
        · cases none
        · rename_i unchanged
          have text : r.text = stored := by simpa using unchanged
          exact ⟨r.renames, text ▸ passes⟩
      · rename_i found
        split at found
        · cases found
          exact passes
        · cases found
      · rename_i fails
        cases fails

theorem Progress.value_step (transforms : List Transform) (p : Progress) (path : String)
    (stored : List Char) : (p.step transforms path stored).value =
      match (transformFile transforms ⟨path, p.treeNames⟩ stored).value with
      | .ok none => { p with files := p.files ++ [⟨path, stored, stored, false⟩] }
      | .ok (some found) =>
        { treeNames := p.treeNames ++ found.1.renames.map (·.new)
          renames := p.renames ++ found.1.renames
          support := (p.support ++ found.1.support).eraseDups
          hits := addHits p.hits found.2
          files := p.files ++ [⟨path, stored, found.1.text, false⟩] }
      | .error _ => { p with files := p.files ++ [⟨path, stored, stored, true⟩] } := by
  rw [Progress.step, Logged.value_bind]
  rcases (transformFile transforms ⟨path, p.treeNames⟩ stored).value with e | found
  · rfl
  · cases found <;> rfl

theorem Progress.step_visit (transforms : List Transform) (p : Progress) (path : String)
    (stored : List Char) :
    ∃ f renames, Visit transforms ⟨path, p.treeNames⟩ stored f renames ∧
      (p.step transforms path stored).value.files = p.files ++ [f] ∧
      (p.step transforms path stored).value.renames = p.renames ++ renames ∧
      (p.step transforms path stored).value.treeNames = p.treeNames ++ renames.map (·.new) := by
  have spec := transformFile_spec transforms ⟨path, p.treeNames⟩ stored
  rw [Progress.step, Logged.value_bind]
  revert spec
  cases (transformFile transforms ⟨path, p.treeNames⟩ stored).value with
  | error e =>
    intro stops
    exact ⟨_, [], .failed stops, rfl, (List.append_nil _).symm, (List.append_nil _).symm⟩
  | ok found =>
    cases found with
    | none =>
      rintro ⟨renames, passes⟩
      exact ⟨_, [], .same passes, rfl, (List.append_nil _).symm, (List.append_nil _).symm⟩
    | some found =>
      intro passes
      exact ⟨_, found.1.renames, .retyped passes, rfl, rfl, rfl⟩

/-- The files of a run, one after another; each sees the new names of those before it. -/
inductive Visits (transforms : List Transform) :
    List String → List (String × List Char) → List FileState → List Rename → Prop where
  | nil (names : List String) : Visits transforms names [] [] []
  | cons {names : List String} {path : String} {stored : List Char}
      {files : List (String × List Char)} {f : FileState} {fs : List FileState}
      {renames later : List Rename}
      (first : Visit transforms ⟨path, names⟩ stored f renames)
      (more : Visits transforms (names ++ renames.map (·.new)) files fs later) :
      Visits transforms names ((path, stored) :: files) (f :: fs) (renames ++ later)

/-- The progress behind further files. -/
def Progress.over (transforms : List Transform) (p : Progress)
    (files : List (String × List Char)) : Progress :=
  files.foldl (fun p f => (p.step transforms f.1 f.2).value) p

theorem Progress.over_visits (transforms : List Transform) (files : List (String × List Char))
    (p : Progress) :
    ∃ fs renames, Visits transforms p.treeNames files fs renames ∧
      (p.over transforms files).files = p.files ++ fs ∧
      (p.over transforms files).renames = p.renames ++ renames := by
  induction files generalizing p with
  | nil => exact ⟨[], [], .nil _, (List.append_nil _).symm, (List.append_nil _).symm⟩
  | cons file files ih =>
    obtain ⟨f, renames, first, files', renames', names⟩ :=
      p.step_visit transforms file.1 file.2
    obtain ⟨fs, later, more, allFiles, allRenames⟩ := ih (p.step transforms file.1 file.2).value
    rw [names] at more
    refine ⟨f :: fs, renames ++ later, .cons first more, ?_, ?_⟩
    · rw [Progress.over, List.foldl_cons, ← Progress.over, allFiles, files', List.append_assoc]
      rfl
    · rw [Progress.over, List.foldl_cons, ← Progress.over, allRenames, renames',
        List.append_assoc]

theorem Progress.treeNames_subset_over (transforms : List Transform) (p : Progress)
    (files : List (String × List Char)) : p.treeNames ⊆ (p.over transforms files).treeNames := by
  induction files generalizing p with
  | nil => exact List.Subset.refl _
  | cons file files ih =>
    obtain ⟨f, renames, -, -, -, names⟩ := p.step_visit transforms file.1 file.2
    have more := ih (p.step transforms file.1 file.2).value
    rw [names] at more
    exact List.Subset.trans (List.subset_append_left _ _) more

theorem Progress.renames_subset_over (transforms : List Transform) (p : Progress)
    (files : List (String × List Char)) : p.renames ⊆ (p.over transforms files).renames := by
  obtain ⟨_, renames, -, -, same⟩ := p.over_visits transforms files
  rw [same]
  exact List.subset_append_left _ _

/-- Every rename comes from one of the files. -/
theorem Progress.mem_renames_over {transforms : List Transform}
    {files : List (String × List Char)} (p : Progress) {rename : Rename}
    (mem : rename ∈ (p.over transforms files).renames) :
    rename ∈ p.renames ∨ ∃ done path stored later f renames,
      files = done ++ (path, stored) :: later ∧
      Visit transforms ⟨path, (p.over transforms done).treeNames⟩ stored f renames ∧
      rename ∈ renames := by
  induction files generalizing p with
  | nil => exact .inl mem
  | cons file files ih =>
    obtain ⟨f, renames, visit, -, isRenames, -⟩ := p.step_visit transforms file.1 file.2
    rcases ih (p.step transforms file.1 file.2).value mem with before | ⟨done, path, stored,
      later, g, renames', rfl, visit', here⟩
    · rw [isRenames] at before
      rcases List.mem_append.1 before with old | new
      · exact .inl old
      · exact .inr ⟨[], file.1, file.2, files, f, renames, rfl, visit, new⟩
    · exact .inr ⟨file :: done, path, stored, later, g, renames', rfl, visit', here⟩

/-- Where a run starts. -/
def startOf (transforms : List Transform) (files : List TreeFile) : Progress :=
  { treeNames := treeNames files, hits := transforms.map fun t => (t.name, 0) }

theorem transformAll_eq (transforms : List Transform) (files : List TreeFile) :
    (transformAll transforms files).value =
      (startOf transforms files).over transforms (decoded files) :=
  Logged.value_foldlM _ _ _

/-- A run visits the files that can be decoded, one after another. -/
theorem transformAll_visits (transforms : List Transform) (files : List TreeFile) :
    Visits transforms (treeNames files) (decoded files)
      (transformAll transforms files).value.files
      (transformAll transforms files).value.renames := by
  obtain ⟨fs, renames, visits, isFiles, isRenames⟩ :=
    (startOf transforms files).over_visits transforms (decoded files)
  rw [transformAll_eq, isFiles, isRenames]
  exact visits

/-! ### Renames that are followed -/

/-- The files as a run leaves them. -/
def filesAfter (transforms : List Transform) (files : List TreeFile) : List FileState :=
  (transformAll transforms files).value.follow.value

/-- A file in which renames are followed. -/
inductive Followed (renames : List Rename) (f : FileState) : FileState → Prop where
  | same (stays : f.failed = true ∨ renames = [] ∨ ∃ e, renameText renames f.current = .error e) :
      Followed renames f f
  | renamed {text : List Char} (found : f.failed = false)
      (rename : renameText renames f.current = .ok text) :
      Followed renames f { f with current := text }

theorem followed_follow (renames : List Rename) (f : FileState) :
    Followed renames f (f.follow renames).value := by
  unfold FileState.follow
  split
  · rename_i failed
    exact .same (.inl failed)
  · rename_i found
    split
    · rename_i rename
      exact .renamed (by simpa using found) rename
    · rename_i fails
      exact .same (.inr (.inr ⟨_, fails⟩))

theorem filesAfter_getElem? {transforms : List Transform} {files : List TreeFile} {i : Nat}
    {f' : FileState} (h : (filesAfter transforms files)[i]? = some f') :
    ∃ f, (transformAll transforms files).value.files[i]? = some f ∧
      Followed (transformAll transforms files).value.renames f f' := by
  unfold filesAfter Progress.follow at h
  split at h
  · rename_i nothing
    exact ⟨f', h, .same (.inr (.inl (List.isEmpty_iff.1 nothing)))⟩
  · rw [Logged.value_mapM, List.getElem?_map, Option.map_eq_some_iff] at h
    obtain ⟨f, hf, rfl⟩ := h
    exact ⟨f, hf, followed_follow _ f⟩

theorem mem_filesAfter {transforms : List Transform} {files : List TreeFile} {f' : FileState}
    (h : f' ∈ filesAfter transforms files) :
    ∃ f ∈ (transformAll transforms files).value.files,
      Followed (transformAll transforms files).value.renames f f' := by
  obtain ⟨i, hi⟩ := List.mem_iff_getElem?.1 h
  obtain ⟨f, hf, followed⟩ := filesAfter_getElem? hi
  exact ⟨f, List.mem_iff_getElem?.2 ⟨i, hf⟩, followed⟩

/-- A run keeps the paths and the stored texts of its files. -/
theorem Visits.map_eq {transforms : List Transform} {names : List String}
    {files : List (String × List Char)} {fs : List FileState} {renames : List Rename}
    (h : Visits transforms names files fs renames) :
    fs.map (fun f => (f.path, f.stored)) = files := by
  induction h with
  | nil => rfl
  | cons first _ ih =>
    rw [List.map_cons, ih]
    cases first <;> rfl

theorem Visits.length_eq {transforms : List Transform} {names : List String}
    {files : List (String × List Char)} {fs : List FileState} {renames : List Rename}
    (h : Visits transforms names files fs renames) : fs.length = files.length := by
  rw [← h.map_eq, List.length_map]

theorem Visits.exists_visit {transforms : List Transform} {names : List String}
    {files : List (String × List Char)} {fs : List FileState} {renames : List Rename}
    (h : Visits transforms names files fs renames) :
    ∀ f ∈ fs, ∃ file renames, Visit transforms file f.stored f renames := by
  induction h with
  | nil => exact fun f hf => nomatch hf
  | @cons names path stored files f fs renames later first _ ih =>
    refine List.forall_mem_cons.2 ⟨⟨⟨path, names⟩, renames, ?_⟩, ih⟩
    cases first with
    | same passes => exact .same passes
    | retyped passes => exact .retyped passes
    | failed stops => exact .failed stops

/-- What a run knows when it comes to the file at `path`, behind those that are done. -/
def contextAt (transforms : List Transform) (files : List TreeFile)
    (done : List (String × List Char)) (path : String) : FileContext :=
  ⟨path, ((startOf transforms files).over transforms done).treeNames⟩

/-- What becomes of the file behind some others. Its renames are followed in all files. -/
theorem exists_visit_at {transforms : List Transform} {files : List TreeFile}
    {done later : List (String × List Char)} {path : String} {stored : List Char}
    (split : decoded files = done ++ (path, stored) :: later) {f : FileState}
    (result : (filesAfter transforms files)[done.length]? = some f) :
    ∃ f₀ renames, Visit transforms (contextAt transforms files done path) stored f₀ renames ∧
      renames ⊆ (transformAll transforms files).value.renames ∧
      Followed (transformAll transforms files).value.renames f₀ f := by
  obtain ⟨f₀, atPlace, followed⟩ := filesAfter_getElem? result
  obtain ⟨before, _, visits, isBefore, -⟩ := (startOf transforms files).over_visits transforms done
  obtain ⟨f₁, renames, visit, isHere, isRenames, -⟩ :=
    ((startOf transforms files).over transforms done).step_visit transforms path stored
  obtain ⟨after, _, -, isAfter, -⟩ := (((startOf transforms files).over transforms done).step
    transforms path stored).value.over_visits transforms later
  have isBefore : ((startOf transforms files).over transforms done).files = before := isBefore
  have run : (transformAll transforms files).value =
      (((startOf transforms files).over transforms done).step transforms path stored).value.over
        transforms later := by
    rw [transformAll_eq, split, Progress.over, List.foldl_append, List.foldl_cons]
    rfl
  have whole : (transformAll transforms files).value.files = before ++ f₁ :: after := by
    rw [run, isAfter, isHere, isBefore, List.append_assoc]
    rfl
  rw [whole, ← visits.length_eq, List.getElem?_append_right (Nat.le_refl _), Nat.sub_self,
    List.getElem?_cons_zero] at atPlace
  obtain rfl := Option.some.inj atPlace
  refine ⟨_, renames, visit, ?_, followed⟩
  rw [run]
  refine List.Subset.trans ?_ (Progress.renames_subset_over _ _ _)
  rw [isRenames]
  exact List.subset_append_right _ _

theorem visit_at {transforms : List Transform} {files : List TreeFile}
    {done later : List (String × List Char)} {path : String} {stored : List Char}
    (split : decoded files = done ++ (path, stored) :: later) {f : FileState}
    (result : (filesAfter transforms files)[done.length]? = some f) :
    ∃ f₀ renames, Visit transforms (contextAt transforms files done path) stored f₀ renames ∧
      Followed (transformAll transforms files).value.renames f₀ f := by
  obtain ⟨f₀, renames, visit, -, followed⟩ := exists_visit_at split result
  exact ⟨f₀, renames, visit, followed⟩

/-- What a run changes are the files that it leaves with another text. -/
theorem changed_run (transforms : List Transform) (files : List TreeFile) :
    (run transforms files).value.changed =
      ((filesAfter transforms files).filter fun f => f.current != f.stored).map fun f =>
        (f.path, f.current) := by
  rfl

end OpenApiModels.Retyping
