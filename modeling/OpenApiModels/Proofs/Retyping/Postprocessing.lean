import OpenApiModels.Proofs.ModelFile.Written
import OpenApiModels.Proofs.Retyping.IdleFile
import OpenApiModels.Proofs.Workspace.Walks

/-!
# Postprocessing a generated directory

What postprocessing writes into a directory with generated files: new texts for some of them and,
where one is branded, the support file (`value_postprocess`).
-/

namespace OpenApiModels.Retyping

open Generation TypeScript

/-! ### The support file -/

def branded : SupportFile :=
  ⟨brandedFile, brandedSupport⟩

def OnlyBranded (support : List SupportFile) : Prop :=
  ∀ s ∈ support, s = branded

theorem OnlyBranded.append {a b : List SupportFile} (ha : OnlyBranded a) (hb : OnlyBranded b) :
    OnlyBranded (a ++ b) := by
  intro s hs
  rcases List.mem_append.1 hs with left | right
  · exact ha s left
  · exact hb s right

variable {transform : Transform} {transforms : List Transform} {file : FileContext}
  {cs stored : List Char}

theorem onlyBranded_of_apply {r : Retyped} (h : (transform.apply file cs).value = .ok (some r)) :
    OnlyBranded r.support := by
  obtain ⟨cut⟩ := exists_cut h
  rw [apply_cut cut] at h
  split at h
  · cases h
  · cases h
    intro s hs
    dsimp only [Cut.retyped] at hs
    split at hs
    · exact List.mem_singleton.1 hs
    · cases hs

theorem onlyBranded_of_combine {before after : Combined}
    (first : ∀ r ∈ before.retyped, OnlyBranded r.support)
    (h : (combine file stored transforms before).value = .ok after) :
    ∀ r ∈ after.retyped, OnlyBranded r.support := by
  induction transforms generalizing before with
  | nil =>
    cases h
    exact first
  | cons t ts ih =>
    rw [combine, Logged.value_bind] at h
    split at h
    · cases h
    · exact @ih ⟨before.retyped, before.fired ++ [false]⟩ first h
    · rename_i r apply
      refine ih ?_ h
      rintro _ ⟨⟩
      refine OnlyBranded.append ?_ (onlyBranded_of_apply apply)
      cases retyped : before.retyped with
      | none => exact fun s hs => absurd hs List.not_mem_nil
      | some r => exact first r retyped

theorem exists_combined_of_transformFile {found : Retyped × List Bool}
    (h : (transformFile transforms file stored).value = .ok (some found)) :
    ∃ after, (combine file stored transforms ⟨none, []⟩).value = .ok after ∧
      after.retyped = some found.1 := by
  rw [transformFile, Logged.value_bind] at h
  split at h
  · cases h
  · rename_i after whole
    simp only [Logged.value_pure, Except.ok.injEq, Option.map_eq_some_iff,
      Option.filter_eq_some_iff] at h
    obtain ⟨r, ⟨isRetyped, -⟩, rfl⟩ := h
    exact ⟨after, whole, isRetyped⟩

theorem onlyBranded_of_transformFile {found : Retyped × List Bool}
    (h : (transformFile transforms file stored).value = .ok (some found)) :
    OnlyBranded found.1.support := by
  obtain ⟨after, whole, isRetyped⟩ := exists_combined_of_transformFile h
  have first : ∀ r ∈ (⟨none, []⟩ : Combined).retyped, OnlyBranded r.support := by
    intro r isNone
    cases isNone
  exact onlyBranded_of_combine first whole found.1 isRetyped

theorem eraseDups_eq {α : Type} [BEq α] [LawfulBEq α] {x : α} {xs : List α}
    (h : ∀ y ∈ xs, y = x) : xs.eraseDups = [] ∨ xs.eraseDups = [x] := by
  cases xs with
  | nil => exact .inl rfl
  | cons y ys =>
    obtain rfl := h y List.mem_cons_self
    have none : (ys.filter fun z => !z == y) = [] := by
      rw [List.filter_eq_nil_iff]
      intro z hz
      simp [h z (List.mem_cons_of_mem _ hz)]
    rw [List.eraseDups_cons, none]
    exact .inr rfl

/-- Nothing but the support file is needed, and that once. -/
def AtMostBranded (support : List SupportFile) : Prop :=
  support = [] ∨ support = [branded]

theorem AtMostBranded.only {support : List SupportFile} (h : AtMostBranded support) :
    OnlyBranded support := by
  rcases h with rfl | rfl
  · exact fun s hs => nomatch hs
  · exact fun s hs => List.mem_singleton.1 hs

theorem atMostBranded_step {p : Progress} (h : AtMostBranded p.support) (path : String) :
    AtMostBranded (p.step transforms path stored).value.support := by
  rw [Progress.step, Logged.value_bind]
  split
  · exact h
  · rename_i r fired found
    exact eraseDups_eq (h.only.append (onlyBranded_of_transformFile found))
  · exact h

theorem atMostBranded_run (transforms : List Transform) (files : List TreeFile) :
    AtMostBranded (run transforms files).value.support := by
  change AtMostBranded (transformAll transforms files).value.support
  rw [transformAll_eq]
  suffices ∀ (files : List (String × List Char)) (p : Progress), AtMostBranded p.support →
      AtMostBranded (p.over transforms files).support from
    this (decoded files) _ (.inl rfl)
  intro files
  induction files with
  | nil => exact fun p h => h
  | cons file files ih => exact fun p h => ih _ (atMostBranded_step h file.1)

theorem keepsNames_brandedSupport : KeepsNames brandedSupport.toList :=
  brandedSupport_quiet.2

/-! ### The changed files -/

/-- The files that a run leaves are those that can be decoded. -/
theorem map_filesAfter (transforms : List Transform) (tree : List TreeFile) :
    (filesAfter transforms tree).map (fun f => (f.path, f.stored)) = decoded tree := by
  rw [filesAfter_eq, List.map_map, ← (transformAll_visits transforms tree).map_eq]
  refine List.map_congr_left fun f _ => ?_
  rw [Function.comp_apply, FileState.behind_eq]

theorem paths_decoded_sublist (tree : List TreeFile) :
    ((decoded tree).map (·.1)).Sublist (tree.map (·.path)) := by
  induction tree with
  | nil => exact List.Sublist.refl _
  | cons file tree ih =>
    cases text : file.text? with
    | none => simpa [decoded, text] using ih.cons file.path
    | some cs => simpa [decoded, text] using ih.cons_cons file.path

theorem paths_changed_sublist (transforms : List Transform) (tree : List TreeFile) :
    ((run transforms tree).value.changed.map (·.1)).Sublist (tree.map (·.path)) := by
  refine List.Sublist.trans ?_ (paths_decoded_sublist tree)
  rw [← map_filesAfter transforms tree, changed_run, List.map_map, List.map_map]
  exact List.filter_sublist.map _

theorem path_of_mem_changed {files : List TreeFile} {c : String × List Char}
    (h : c ∈ (run transforms files).value.changed) : ∃ file ∈ files, file.path = c.1 :=
  List.mem_map.1 ((paths_changed_sublist transforms files).subset (List.mem_map_of_mem h))

/-! ### Writing -/

open Workspace Postprocess

variable {w : Workspace} {output : String} {root : Location} {changed : List (String × List Char)}

/-- The new texts of changed files by their places. -/
def changedTexts (root : Location) (changed : List (String × List Char)) :
    List (Location × String) :=
  changed.map fun c => (root ++ Path.parts c.1, String.ofList c.2)

/-- The changed files are files of models that can be written. -/
def InModels (w : Workspace) (root : Location) (changed : List (String × List Char)) : Prop :=
  ∀ c ∈ changed, ∃ name, IsFileName name ∧ c.1 = modelPath name ∧ Fits w root name

def supportPlace (root : Location) : Location :=
  root ++ [brandedFile]

theorem supportPlace_ne_nil (root : Location) : supportPlace root ≠ [] :=
  List.append_ne_nil_of_right_ne_nil _ (List.cons_ne_nil _ _)

theorem outcome_writeChanged (h : IsOutput w output root)
    (models : w.isDirectoryAt (directoryOf root) = true)
    (inside : InModels w root changed) :
    (writeChanged output changed).outcome w =
      pure (.ok (), w.setTexts (changedTexts root changed)) := by
  induction changed generalizing w with
  | nil => rfl
  | cons c changed ih =>
    obtain ⟨path, text⟩ := c
    obtain ⟨name, isName, rfl, fits⟩ := inside _ List.mem_cons_self
    have located := locate?_modelPath h isName
    rw [withDirectory_of_directory models, if_neg (by have := fits.short; omega)] at located
    have isPlace : root ++ Path.parts (modelPath name) = placeOf root name := by
      rw [isName.parts_modelPath, placeOf]
    have isPath : fullPath output (modelPath name) = Path.join output (modelPath name) := by
      simp [fullPath, modelPath]
    have written := Action.outcome_writeText (write_eq located fits.free (String.ofList text))
      fun e => PostprocessError.unwritable (Path.join output (modelPath name)) e.message
    have later : InModels (w.setText (placeOf root name) (String.ofList text)) root changed := by
      intro c hc
      obtain ⟨name', isName', isPath', fits'⟩ := inside c (List.mem_cons_of_mem _ hc)
      exact ⟨name', isName', isPath', (fits_setText fits.free models).2 fits'⟩
    have rest := ih (h.setText fits.free) ((isDirectoryAt_setText fits.free _ _).trans models) later
    have first : writeChanged output ((modelPath name, text) :: changed) =
        (Action.writeText (fullPath output (modelPath name)) (String.ofList text) fun e =>
          .unwritable (fullPath output (modelPath name)) e.message) >>= fun _ =>
            writeChanged output changed := rfl
    rw [first, isPath, Action.outcome_bind written, rest, ← isPlace]
    rfl

theorem follow_brandedFile (directory : w.isDirectoryAt root = true) :
    w.follow root (Path.parts brandedFile) = some (supportPlace root) := by
  have isPart : Path.parts brandedFile = [brandedFile] := by decide
  rw [isPart, follow, if_neg (by simp [directory]), if_neg (by decide), if_neg (by decide),
    if_neg (by decide)]
  rfl

theorem locate?_support (h : IsOutput w output root) :
    w.locate? (Path.join output brandedFile) = some (supportPlace root) := by
  rw [locate?_join h.located (by decide) (by decide), follow_brandedFile h.directory]

theorem outcome_writeSupport (output : String) (w : Workspace) :
    (writeSupport output branded).outcome w =
      (if w.readText (Path.join output brandedFile) = .ok brandedSupport then pure []
        else do
          Action.writeText (Path.join output brandedFile) brandedSupport fun e =>
            .unwritable (Path.join output brandedFile) e.message
          pure [brandedFile] : Action PostprocessError (List String)).outcome w := by
  have named : branded.path = brandedFile := rfl
  have holds : branded.content = brandedSupport := rfl
  rw [writeSupport, Action.outcome_bind (Action.outcome_look _ w), named, holds]
  cases w.readText (Path.join output brandedFile) with
  | error e => rfl
  | ok text => simp only [beq_iff_eq, Except.ok.injEq]

theorem value_writeSupport (h : IsOutput w output root)
    (free : w.isDirectoryAt (supportPlace root) = false) :
    ∃ paths, ((writeSupport output branded).outcome w).value =
      (.ok paths, w.setText (supportPlace root) brandedSupport) := by
  have located := locate?_support h
  rw [outcome_writeSupport]
  by_cases there : w.readText (Path.join output brandedFile) = .ok brandedSupport
  · obtain ⟨loc, f, located', found, content⟩ := readText_eq_ok there
    obtain rfl := Option.some.inj (located.symm.trans located')
    rw [if_pos there, setText_eq_self found content]
    exact ⟨[], rfl⟩
  · rw [if_neg there,
      Action.outcome_bind (Action.outcome_writeText (write_eq located free brandedSupport) _)]
    exact ⟨_, rfl⟩

/-- What becomes of the support file where it is needed. -/
structure SupportWritten (w w' : Workspace) (root : String) (place : Location)
    (paths : List String) : Prop where
  located : w.locate? (Path.join root brandedFile) = some (supportPlace place)
  free : w.isDirectoryAt (supportPlace place) = false
  written : w' = w.setText (supportPlace place) brandedSupport
  /-- It is reported unless it was there already. -/
  reported : paths =
    if w.readText (Path.join root brandedFile) = .ok brandedSupport then [] else [brandedFile]

/-- The support file has its place in the directory of the run. -/
theorem eq_supportPlace_of_locate? {loc : Location} (rooted : w.locate? output = some root)
    (h : w.locate? (Path.join output brandedFile) = some loc) :
    w.isDirectoryAt root = true ∧ loc = supportPlace root := by
  have directory : w.isDirectoryAt root = true := by
    by_contra no_directory
    have isPart : Path.parts brandedFile = [brandedFile] := by decide
    rw [locate?_join rooted (by decide) (by decide), isPart, follow,
      if_pos (by simpa using no_directory)] at h
    cases h
  rw [locate?_support ⟨rooted, directory⟩] at h
  exact ⟨directory, (Option.some.inj h).symm⟩

theorem supportWritten_of_outcome {w' : Workspace} (rooted : w.locate? output = some root)
    {paths : List String}
    (ok : ((writeSupport output branded).outcome w).value = (.ok paths, w')) :
    SupportWritten w w' output root paths := by
  rw [outcome_writeSupport] at ok
  by_cases there : w.readText (Path.join output brandedFile) = .ok brandedSupport
  · rw [if_pos there] at ok
    cases ok
    obtain ⟨loc, f, located, found, content⟩ := readText_eq_ok there
    obtain ⟨-, rfl⟩ := eq_supportPlace_of_locate? rooted located
    exact ⟨located, HasFile.not_isDirectoryAt ⟨f, found⟩, (setText_eq_self found content).symm,
      (if_pos there).symm⟩
  · rw [if_neg there] at ok
    obtain ⟨⟨⟩, mid, written, rest⟩ := Action.exists_of_bind ok
    cases rest
    obtain ⟨loc, located, free, rfl⟩ := exists_place_of_write (Action.write_of_outcome written)
    obtain ⟨-, rfl⟩ := eq_supportPlace_of_locate? rooted located
    exact ⟨located, free, rfl, (if_neg there).symm⟩

/-! ### A run -/

variable {tree : List TreeFile}

/-- What is left of a directory behind a run over its files. -/
def afterRun (transforms : List Transform) (tree : List TreeFile) (root : Location)
    (w : Workspace) : Workspace :=
  let found := (run transforms tree).value
  let written := w.setTexts (changedTexts root found.changed)
  if found.changed = [] ∨ found.support = [] then written
  else written.setText (supportPlace root) brandedSupport

theorem find?_afterRun_of_ne {loc : Location} (ne : loc ≠ supportPlace root) :
    (afterRun transforms tree root w).find? loc =
      (w.setTexts (changedTexts root (run transforms tree).value.changed)).find? loc := by
  unfold afterRun
  dsimp only
  split
  · rfl
  · exact find?_setText_of_ne ne _

theorem place_of_mem_changedTexts (h : InModels w root changed) :
    ∀ t ∈ changedTexts root changed, ∃ name, t.1 = placeOf root name ∧ Fits w root name := by
  intro t ht
  obtain ⟨c, hc, rfl⟩ := List.mem_map.1 ht
  obtain ⟨name, isName, isPath, fits⟩ := h c hc
  refine ⟨name, ?_, fits⟩
  rw [isPath, isName.parts_modelPath, placeOf]

theorem free_of_mem_changedTexts (h : InModels w root changed) :
    ∀ t ∈ changedTexts root changed, w.isDirectoryAt t.1 = false := by
  intro t ht
  obtain ⟨name, isPlace, fits⟩ := place_of_mem_changedTexts h t ht
  rw [isPlace]
  exact fits.free

/-- What follows in a run when the changed files are written. -/
theorem value_postprocess_start (transforms : List Transform) (host : Script.Host)
    (h : IsOutput w output root) (models : w.isDirectoryAt (directoryOf root) = true)
    (inside : InModels w root (run transforms tree).value.changed)
    (listed : treeFiles? ["ts"] output w = some tree) :
    ∃ report : List String → Bool → PostprocessReport,
      ((postprocess host output transforms {}).outcome w).value =
        ((if (run transforms tree).value.changed.isEmpty then pure (report [] false)
          else do
            let support ← (run transforms tree).value.support.mapM (writeSupport output)
            let formatted ← format host output []
            pure (report support.flatten formatted) :
              Action PostprocessError PostprocessReport).outcome
          (w.setTexts (changedTexts root (run transforms tree).value.changed))).value := by
  refine ⟨fun support formatted =>
    { scanned := (run transforms tree).value.scanned
      changed := (run transforms tree).value.changed.map (·.1)
      hits := (run transforms tree).value.hits
      failed := (run transforms tree).value.failed
      support, formatted }, ?_⟩
  have written := outcome_writeChanged h models inside
  unfold postprocess
  rw [Action.value_outcome_bind (congrArg Logged.value (Action.outcome_look _ w)), listed]
  dsimp only
  rw [Action.value_outcome_bind (Action.value_outcome_logged _ w), Action.outcome_bind written]

/-- There is no directory in the place of the support file, if it is needed. -/
def SupportFits (w : Workspace) (root : Location) (transforms : List Transform)
    (tree : List TreeFile) : Prop :=
  (run transforms tree).value.changed ≠ [] → (run transforms tree).value.support ≠ [] →
    w.isDirectoryAt (supportPlace root) = false

theorem value_postprocess (host : Script.Host) (h : IsOutput w output root)
    (models : w.isDirectoryAt (directoryOf root) = true)
    (inside : InModels w root (run transforms tree).value.changed)
    (listed : treeFiles? ["ts"] output w = some tree) (fits : SupportFits w root transforms tree) :
    ∃ report, ((postprocess host output transforms {}).outcome w).value =
      (.ok report, afterRun transforms tree root w) := by
  obtain ⟨report, start⟩ := value_postprocess_start transforms host h models inside listed
  have taken := free_of_mem_changedTexts inside
  rw [start, afterRun]
  by_cases nothing : (run transforms tree).value.changed = []
  · rw [if_pos (List.isEmpty_iff.2 nothing), if_pos (.inl nothing)]
    exact ⟨_, rfl⟩
  rw [if_neg (mt List.isEmpty_iff.1 nothing)]
  rcases atMostBranded_run transforms tree with none | one
  · rw [none, if_pos (.inr rfl)]
    exact ⟨_, rfl⟩
  · have free := fits nothing (by rw [one]; exact List.cons_ne_nil _ _)
    obtain ⟨paths, written⟩ := value_writeSupport (h.setTexts taken)
      ((isDirectoryAt_setTexts taken _).trans free)
    have support : (([branded].mapM (writeSupport output)).outcome (w.setTexts
        (changedTexts root (run transforms tree).value.changed))).value = (.ok [paths],
        (w.setTexts (changedTexts root (run transforms tree).value.changed)).setText
          (supportPlace root) brandedSupport) := by
      rw [List.mapM_cons, Action.value_outcome_bind written]
      rfl
    rw [one, if_neg (by simpa using nothing), Action.value_outcome_bind support]
    exact ⟨_, rfl⟩

theorem supportFits_of_postprocess {host : Script.Host} {report : PostprocessReport}
    {w' : Workspace} (h : IsOutput w output root)
    (models : w.isDirectoryAt (directoryOf root) = true)
    (inside : InModels w root (run transforms tree).value.changed)
    (listed : treeFiles? ["ts"] output w = some tree)
    (ok : ((postprocess host output transforms {}).outcome w).value = (.ok report, w')) :
    SupportFits w root transforms tree := by
  intro changed support
  have taken := free_of_mem_changedTexts inside
  obtain ⟨_, start⟩ := value_postprocess_start transforms host h models inside listed
  rw [start, if_neg (mt List.isEmpty_iff.1 changed),
    (atMostBranded_run transforms tree).resolve_left support, List.mapM_cons] at ok
  obtain ⟨_, _, all, -⟩ := Action.exists_of_bind ok
  obtain ⟨_, _, written, -⟩ := Action.exists_of_bind all
  have free := (supportWritten_of_outcome (h.setTexts taken).located written).free
  exact (isDirectoryAt_setTexts taken _).symm.trans free

end OpenApiModels.Retyping
