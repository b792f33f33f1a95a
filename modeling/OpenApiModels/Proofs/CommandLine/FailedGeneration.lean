import OpenApiModels.Proofs.CommandLine.Stages
import OpenApiModels.Proofs.Selection
import OpenApiModels.Proofs.Spec.StoredMembers

/-!
# Generation that fails

`generate_fails` says what a generation that failed left behind: nothing where it failed before
checksums were stored, and at most the stored checksums where it failed before files were written.
-/

namespace OpenApiModels

open Run

/-! ### Reading -/

namespace Spec

theorem keeps_readFile (path : String) : Keeps id (readFile path) :=
  (Action.keeps_readText path _).bind fun _ =>
    (Action.keeps_ofExcept _).bind fun _ => keeps_pure _

theorem keeps_detectAdapter (registry : Registry) (mode : FallbackMode) (path : String) :
    Keeps id (detectAdapter registry mode path) := by
  have version : Keeps id (detectVersion path) :=
    (keeps_readFile path).bind fun _ => keeps_pure _
  refine (Action.keeps_mapError version _).bind fun version => ?_
  cases select registry mode version with
  | ok decision => exact Action.keeps_logged _
  | error e => exact Action.keeps_ofExcept _

/-- The files of `w'` are those of `w`, but for the spec at `path`, in which both checksums were
stored. -/
def StampedOnly (path : String) (w w' : Workspace) : Prop :=
  ∃ loc f text doc, w.locate? path = some loc ∧ w.fileAt? loc = some f ∧ f.content = .text text ∧
    Document.parse path text = .ok doc ∧
    w'.fileAt? loc = some { f with content := .text doc.stamp.2.text } ∧
    ∀ other, other ≠ loc → w'.fileAt? other = w.fileAt? other

theorem stampedOnly_of_stampFile {path : String} {pair : ChecksumPair} {w w' : Workspace}
    (stamped : ended (stampFile path) w = (.ok pair, w')) : StampedOnly path w w' := by
  have outcome : ((stampFile path).outcome w).value = (.ok pair, w') := stamped
  cases read : w.readText path with
  | error e =>
    rw [stampFile, readFile, bind_assoc,
      Action.outcome_bind_error (Action.outcome_readText_error read _)] at outcome
    cases outcome
  | ok text =>
    cases parsed : Document.parse path text with
    | error e =>
      have unread : (readFile path).outcome w = pure (.error e, w) := by
        rw [readFile, Action.outcome_bind (Action.outcome_readText read _), parsed]
        rfl
      rw [stampFile, Action.outcome_bind_error unread] at outcome
      cases outcome
    | ok doc =>
      obtain ⟨loc, f, located, found, content⟩ := Workspace.readText_eq_ok read
      have written := Workspace.write_of_find? located found (.text doc.stamp.2.text)
      rw [outcome_stampFile read parsed written] at outcome
      cases outcome
      refine ⟨loc, f, text, doc, located, ?_, content, parsed, ?_, fun other ne => ?_⟩
      · rw [Workspace.fileAt?, found]
      · rw [Workspace.fileAt?, Workspace.find?_put_self (Workspace.ne_nil_of_find? found)]
      · rw [Workspace.fileAt?, Workspace.find?_put_of_ne ne, Workspace.fileAt?]

end Spec

theorem Settings.keeps_load? (path : String) : Keeps id (Settings.load? path) := by
  refine (Action.keeps_look _).bind fun found => ?_
  cases found with
  | false => exact keeps_pure _
  | true =>
    refine (Action.keeps_readText path _).bind fun text => ?_
    cases Settings.ofText? text with
    | none => exact keeps_throw _
    | some s => exact keeps_pure _

namespace Generation

theorem keeps_renderTemplate (directory name : String) (scope : Template.Scope) :
    Keeps id (renderTemplate directory name scope) := by
  refine (Action.keeps_readText _ _).bind fun text => ?_
  cases Template.render? text scope with
  | none => exact keeps_throw _
  | some cs => exact keeps_pure _

theorem keeps_renderModel (options : GenerationOptions) (layout : ModelFile.LayoutOptions)
    (f : ModelFile) : Keeps id (renderModel options layout f) := by
  unfold renderModel
  cases options.templateDirectory with
  | none => exact (keeps_pure _).bind fun _ => keeps_pure _
  | some directory => exact (keeps_renderTemplate directory _ _).bind fun _ => keeps_pure _

theorem keeps_renderIndex (options : GenerationOptions) (modules : List String) :
    Keeps id (renderIndex options modules) := by
  unfold renderIndex
  cases options.templateDirectory with
  | none => exact (keeps_pure _).bind fun _ => keeps_pure _
  | some directory => exact (keeps_renderTemplate directory _ _).bind fun _ => keeps_pure _

theorem keeps_renderPlan (options : GenerationOptions) (layout : ModelFile.LayoutOptions)
    (plan : List ModelFile.Planned) : Keeps id (renderPlan options layout plan) := by
  induction plan with
  | nil => exact keeps_pure _
  | cons planned rest ih =>
    cases planned with
    | file f =>
      exact (keeps_renderModel options layout f).bind fun _ => ih.bind fun _ => keeps_pure _
    | repeated schema type => exact (Action.keeps_logged _).bind fun _ => ih

/-- Rendering writes nothing, whether it succeeds or fails. -/
theorem keeps_render (adapter : Adapter) (options : GenerationOptions) (m : Model) :
    Keeps id (render adapter options m) :=
  (keeps_renderPlan options _ _).bind fun _ =>
    (keeps_renderIndex options _).bind fun _ => keeps_pure _

end Generation

namespace CommandLine

open Job

variable {α β ε τ : Type} {p p' : Progress}

theorem keeps_readModel (input : String) : Keeps id (readModel input) := by
  refine (Action.keeps_mapError (Spec.keeps_readFile input) _).bind fun found => ?_
  obtain ⟨text, doc⟩ := found
  dsimp only
  cases Model.ofJson? doc.toJson with
  | none => exact keeps_throw _
  | some m => exact keeps_pure _

/-! ### Jobs -/

theorem ended_perform (a : Action ε α) (describe : ε → String) (p : Progress) :
    ended (perform a describe) p =
      ((ended a p.workspace).1.mapError fun e => ⟨describe e⟩,
        { p with workspace := (ended a p.workspace).2 }) := rfl

theorem keeps_perform {view : Workspace → τ} {a : Action ε α} (h : Keeps view a)
    (describe : ε → String) : Keeps (fun p => view p.workspace) (perform a describe) :=
  fun p => h p.workspace

theorem keeps_reportLine (line : String) : Keeps Progress.workspace (reportLine line) :=
  fun _ => rfl

theorem keeps_look (f : Workspace → α) : Keeps Progress.workspace (Job.look f) := fun _ => rfl

theorem keeps_fail (message : String) : Keeps Progress.workspace (fail message : Job α) :=
  fun _ => rfl

theorem keeps_settings (around : Surroundings) : Keeps Progress.workspace (settings around) :=
  (keeps_perform (Settings.keeps_load? _) _).bind fun _ =>
    keeps_perform (Action.keeps_logged _) _

theorem keeps_selectAdapter (o : GenerateOptions) (s : Settings) :
    Keeps Progress.workspace (selectAdapter o s) :=
  (keeps_perform (Spec.keeps_detectAdapter _ _ _) _).bind fun _ =>
    (Keeps.forM (fun _ => keeps_reportLine _) _).bind fun _ =>
      (keeps_reportLine _).bind fun _ => keeps_pure _

theorem keeps_checkTemplates (directory : String) (force : Bool) :
    Keeps Progress.workspace (checkTemplates directory force) := by
  refine (keeps_look _).bind fun w => ?_
  refine (keeps_perform (Action.keeps_logged _) _).bind fun missing => ?_
  dsimp only
  split
  · split
    · exact keeps_reportLine _
    · exact keeps_fail _
  · exact keeps_pure _

theorem keeps_checkDirectory (o : GenerateOptions) (s : Settings) :
    Keeps Progress.workspace (checkDirectory o s) := by
  unfold checkDirectory
  split
  · exact keeps_checkTemplates _ _
  · exact keeps_pure _

/-- What storing checksums leaves behind where it is enabled. -/
def Prepared (enabled : Bool) (input : String) (w w' : Workspace) : Prop :=
  (enabled = true → Spec.StampedOnly input w w') ∧
    (enabled = false → w'.fileAt? = w.fileAt?)

theorem Prepared.congr {enabled : Bool} {input : String} {w w₁ w₂ : Workspace}
    (h : Prepared enabled input w w₁) (same : w₂.fileAt? = w₁.fileAt?) :
    Prepared enabled input w w₂ := by
  refine ⟨fun on => ?_, fun off => same.trans (h.2 off)⟩
  obtain ⟨loc, f, text, doc, located, file, content, parsed, stored, others⟩ := h.1 on
  refine ⟨loc, f, text, doc, located, file, content, parsed, ?_, fun other ne => ?_⟩
  · rw [same, stored]
  · rw [same, others other ne]

theorem prepared_of_stampWhere {enabled : Bool} {input : String}
    (done : ended (stampWhere enabled input) p = (.ok (), p')) :
    Prepared enabled input p.workspace p'.workspace := by
  cases enabled with
  | false =>
    cases done
    exact ⟨fun on => (nomatch on), fun _ => rfl⟩
  | true =>
    refine ⟨fun _ => ?_, fun off => nomatch off⟩
    have job : ended (stampInput input) p = (.ok (), p') := done
    rw [stampInput, ended_bind, ended_perform] at job
    cases stamped : ended (Spec.stampFile input) p.workspace with
    | mk result w' =>
      rw [stamped] at job
      cases result with
      | error e => cases job
      | ok pair =>
        have kept := ((keeps_reportLine s!"  stamped raw checksum {pair.raw}").bind fun _ =>
          keeps_reportLine s!"  stamped processed checksum {pair.processed}")
          { p with workspace := w' }
        have same : p'.workspace = w' := (congrArg (fun out => out.2.workspace) job).symm.trans kept
        rw [same]
        exact Spec.stampedOnly_of_stampFile stamped

/-! ### Failures -/

/-- Where the job fails from `p`, the stage and the workspace it leaves are allowed. -/
def FailsWithin (allowed : Stage → Workspace → Prop) (job : StagedJob α) (p : Progress) : Prop :=
  ∀ stage e p', ended job p = (.error (stage, e), p') → allowed stage p'.workspace

variable {allowed : Stage → Workspace → Prop} {stage : Stage} {job : Job α}
  {next : α → StagedJob β}

theorem ended_during (stage : Stage) (job : Job α) (p : Progress) :
    ended (during stage job) p =
      ((ended job p).1.mapError fun e => (stage, e), (ended job p).2) := rfl

theorem ended_unmarked (job : StagedJob α) (p : Progress) :
    ended (unmarked job) p = ((ended job p).1.mapError Prod.snd, (ended job p).2) := rfl

theorem ended_during_bind {a : α} (done : ended job p = (.ok a, p')) :
    ended (during stage job >>= next) p = ended (next a) p' := by
  rw [ended_bind, ended_during, done]
  rfl

theorem ended_during_bind_error {e : Failure} (failed : ended job p = (.error e, p')) :
    ended (during stage job >>= next) p = (.error (stage, e), p') := by
  rw [ended_bind, ended_during, failed]
  rfl

/-- A stage fails within bounds if it does itself and what follows does. -/
theorem failsWithin_during_bind (here : allowed stage (ended job p).2.workspace)
    (later : ∀ a p', ended job p = (.ok a, p') → FailsWithin allowed (next a) p') :
    FailsWithin allowed (during stage job >>= next) p := by
  intro stage' e p' failed
  cases first : ended job p with
  | mk result p₁ =>
    rw [first] at here
    cases result with
    | error e' =>
      rw [ended_during_bind_error first] at failed
      cases failed
      exact here
    | ok a =>
      rw [ended_during_bind first] at failed
      exact later a p₁ first stage' e p' failed

theorem failsWithin_during (here : allowed stage (ended job p).2.workspace) :
    FailsWithin allowed (during stage job) p := by
  intro stage' e p' failed
  rw [ended_during] at failed
  generalize ended job p = out at here failed
  obtain ⟨result, p₁⟩ := out
  cases result <;> cases failed
  exact here

/-- What a failure at a stage may leave of the workspace `w`. -/
def Left (around : Surroundings) (o : GenerateOptions) (w : Workspace) (stage : Stage)
    (w' : Workspace) : Prop :=
  (stage ∈ [.settings, .selection, .templates] → w' = w) ∧
    (stage ∈ [.model, .rendering] → ∃ s,
      (ended (settings around) { workspace := w }).1 = .ok s ∧
        Prepared (stamps o s) (o.input.getD s.input) w w')

theorem failsWithin_generateStaged (around : Surroundings) (o : GenerateOptions) (w : Workspace) :
    FailsWithin (Left around o w) (generateStaged around o) { workspace := w } := by
  have early {stage : Stage} {w' : Workspace} (same : w' = w)
      (isEarly : stage ∉ [.model, .rendering]) : Left around o w stage w' :=
    ⟨fun _ => same, fun late => absurd late isEarly⟩
  have other {stage : Stage} {w' : Workspace}
      (notEarly : stage ∉ [.settings, .selection, .templates])
      (notLate : stage ∉ [.model, .rendering]) : Left around o w stage w' :=
    ⟨fun early => absurd early notEarly, fun late => absurd late notLate⟩
  refine failsWithin_during_bind (early (keeps_settings around _) (by decide)) fun s p₁ loaded => ?_
  have first : p₁.workspace = w := (keeps_settings around).after loaded
  refine failsWithin_during_bind (early ((keeps_selectAdapter o s p₁).trans first) (by decide))
    fun decision p₂ selected => ?_
  have second : p₂.workspace = w := ((keeps_selectAdapter o s).after selected).trans first
  refine failsWithin_during_bind (early ((keeps_checkDirectory o s p₂).trans second) (by decide))
    fun _ p₃ checked => ?_
  have third : p₃.workspace = w := ((keeps_checkDirectory o s).after checked).trans second
  refine failsWithin_during_bind (other (by decide) (by decide)) fun _ p₄ stamped => ?_
  refine failsWithin_during_bind (other (by decide) (by decide)) fun _ p₅ made => ?_
  -- from here on the files stay those that the checksums were stored among
  have late {stage : Stage} {w' : Workspace} (same : w'.fileAt? = p₅.workspace.fileAt?)
      (isLate : stage ∉ [.settings, .selection, .templates]) : Left around o w stage w' := by
    refine ⟨fun early => absurd early isLate, fun _ => ⟨s, by rw [loaded], ?_⟩⟩
    have prepared := prepared_of_stampWhere stamped
    rw [third] at prepared
    have kept := keeps_perform (Action.keeps_makeDirectories (o.output.getD s.output) id)
      fun _ => s!"failed to create output directory {o.output.getD s.output}"
    exact prepared.congr (same.trans (kept.after made))
  have model : Keeps Progress.workspace
      (perform (readModel (o.input.getD s.input)) GenerationError.message) :=
    keeps_perform (keeps_readModel _) _
  refine failsWithin_during_bind (late (congrArg _ (model p₅)) (by decide)) fun m p₆ read => ?_
  have sixth : p₆.workspace = p₅.workspace := model.after read
  have rendering : Keeps Progress.workspace (perform (Generation.render decision.adapter
      ⟨o.templateDirectory.or s.templateDirectory, !o.noComments⟩ m) GenerationError.message) :=
    keeps_perform (Generation.keeps_render _ _ _) _
  refine failsWithin_during_bind (late (congrArg _ ((rendering p₆).trans sixth)) (by decide))
    fun files p₇ rendered => ?_
  refine failsWithin_during_bind (other (by decide) (by decide)) fun count p₈ written => ?_
  exact failsWithin_during (other (by decide) (by decide))

/-- The stage at which generating fails. -/
def failedStage? (around : Surroundings) (o : GenerateOptions) (w : Workspace) : Option Stage :=
  match (ended (generateStaged around o) { workspace := w }).1 with
  | .ok _ => none
  | .error (stage, _) => some stage

/-- Generating fails just where it fails at a stage. -/
theorem isSome_failedStage?_iff (around : Surroundings) (o : GenerateOptions) (w : Workspace) :
    (failedStage? around o w).isSome = true ↔
      ∃ e, (ended (generate around o) { workspace := w }).1 = .error e := by
  rw [← unmarked_generateStaged, ended_unmarked, failedStage?]
  generalize (ended (generateStaged around o) { workspace := w }).1 = result
  cases result <;> simp [Except.mapError]

theorem value_run (around : Surroundings) (o : GenerateOptions) (w : Workspace) :
    ((Command.generate o).run around w).value =
      match ended (generate around o) { workspace := w } with
      | (.ok code, p) => ⟨code, p.output, p.report, p.workspace⟩
      | (.error e, p) =>
        ⟨failure, p.output, p.report ++ "Error: " ++ e.message ++ "\n", p.workspace⟩ := by
  have job : (StateT.run (ExceptT.run ((Command.generate o).job around))
      { workspace := w }).value = ended (generate around o) { workspace := w } := rfl
  unfold Command.run
  rw [Logged.value_bind, job]
  generalize ended (generate around o) { workspace := w } = out
  obtain ⟨result, p⟩ := out
  cases result <;> rfl

/-- A generation that fails before checksums are stored leaves the workspace as it was. One that
fails at reading the model or at rendering leaves all files as they were, but for the checksums
that were stored in the spec where this is enabled. -/
theorem generate_fails (around : Surroundings) (o : GenerateOptions) (w : Workspace) (stage : Stage)
    (failed : failedStage? around o w = some stage) :
    ((Command.generate o).run around w).value.code = failure ∧
      (stage ∈ [.settings, .selection, .templates] →
        ((Command.generate o).run around w).value.workspace = w) ∧
      (stage ∈ [.model, .rendering] → ∃ s,
        (ended (settings around) { workspace := w }).1 = .ok s ∧
          (stamps o s = true → Spec.StampedOnly (o.input.getD s.input) w
            ((Command.generate o).run around w).value.workspace) ∧
          (stamps o s = false →
            ((Command.generate o).run around w).value.workspace.fileAt? = w.fileAt?)) := by
  have within := failsWithin_generateStaged around o w
  have ran := value_run around o w
  rw [← unmarked_generateStaged, ended_unmarked] at ran
  unfold failedStage? at failed
  cases staged : ended (generateStaged around o) { workspace := w } with
  | mk result p =>
    rw [staged] at failed ran
    cases result with
    | ok code => cases failed
    | error e =>
      obtain ⟨stage', e⟩ := e
      obtain rfl := Option.some.inj failed
      rw [ran]
      exact ⟨rfl, within stage' e p staged⟩

/-! ### A version that is no text -/

/-- Generates beside the spec. -/
def beside : GenerateOptions := { output := some "." }

/-- A project without settings of its own. -/
def plainSurroundings : Surroundings := ⟨[], { standard := true }⟩

theorem ended_detectAdapter {registry : Registry} {mode : FallbackMode} {path text : String}
    {doc : Spec.Document} {w : Workspace} {decision : Logged Decision}
    (read : w.readText path = .ok text) (parsed : Spec.Document.parse path text = .ok doc)
    (selected : select registry mode (Version.ofDocument doc.toJson) = .ok decision) :
    ended (Spec.detectAdapter registry mode path) w = (.ok decision.value, w) := by
  have version : (Spec.detectVersion path).outcome w =
      pure (.ok (Version.ofDocument doc.toJson), w) := by
    rw [Spec.detectVersion, Action.outcome_bind (Spec.outcome_readFile read parsed)]
    rfl
  have outcome : (Spec.detectAdapter registry mode path).outcome w =
      (Action.logged decision : Action Spec.SelectionError Decision).outcome w := by
    rw [Spec.detectAdapter, Action.outcome_bind (Action.outcome_mapError version _), selected]
  exact congrArg Logged.value outcome

theorem ended_selectAdapter {o : GenerateOptions} {s : Settings} {decision : Decision}
    (detected : ended (Spec.detectAdapter Registry.standard (o.fallback.getD s.fallback)
      (o.input.getD s.input)) p.workspace = (.ok decision, p.workspace))
    (calm : decision.warnings = []) :
    ∃ report, ended (selectAdapter o s) p = (.ok decision, { p with report }) := by
  rw [selectAdapter, ended_bind, ended_perform, detected]
  dsimp only [Except.mapError]
  rw [calm]
  exact ⟨_, rfl⟩

theorem ended_stampInput {input : String} {pair : Spec.ChecksumPair} {w' : Workspace}
    (stamped : ended (Spec.stampFile input) p.workspace = (.ok pair, w')) :
    ∃ report, ended (stampInput input) p = (.ok (), { p with workspace := w', report }) := by
  rw [stampInput, ended_bind, ended_perform, stamped]
  exact ⟨_, rfl⟩

theorem ended_readModel {input text : String} {doc : Spec.Document} {w : Workspace}
    (read : w.readText input = .ok text) (parsed : Spec.Document.parse input text = .ok doc)
    (none : Model.ofJson? doc.toJson = none) :
    ended (readModel input) w = (.error .malformedModel, w) := by
  have outcome : (readModel input).outcome w = pure (.error .malformedModel, w) := by
    rw [readModel, Action.outcome_bind
      (Action.outcome_mapError (Spec.outcome_readFile read parsed) _)]
    dsimp only
    rw [none]
    rfl
  exact congrArg Logged.value outcome

/-- The version in the spec is a number, so that the model cannot be read. -/
theorem failedStage?_outdated :
    failedStage? plainSurroundings beside Spec.outdatedTree = some .model := by
  have loaded : ended (settings plainSurroundings) { workspace := Spec.outdatedTree } =
      (.ok {}, { workspace := Spec.outdatedTree }) := by rfl
  have read : Spec.outdatedTree.readText "openapi.json" = .ok Spec.outdated.text := rfl
  have version : select Registry.standard .warn (Version.ofDocument Spec.outdated.toJson) =
      .ok ⟨⟨.ofDocument Spec.outdated.toJson, .openapi30, true, none, []⟩, []⟩ :=
    select_of_supports List.mem_cons_self (by decide) .warn
  obtain ⟨report, selected⟩ := ended_selectAdapter (o := beside) (s := {})
    (p := { workspace := Spec.outdatedTree })
    (ended_detectAdapter read (Spec.parse_outdated _) version) rfl
  have checked (p : Progress) : ended (checkDirectory beside {}) p = (.ok (), p) := rfl
  have readable := Json.readable_of_read? (Spec.Document.parse_eq_ok (Spec.parse_outdated ""))
    Spec.numbersReread_outdated
  obtain ⟨w', stamped, overlaid⟩ := Spec.stampFile_overlaid read (Spec.parse_outdated _) readable
  obtain ⟨report', input⟩ := ended_stampInput (p := { workspace := Spec.outdatedTree, report })
    (congrArg Logged.value stamped)
  have stored : ended (stampWhere (stamps beside {}) (beside.input.getD "openapi.json"))
      { workspace := Spec.outdatedTree, report := report } =
      (.ok (), { workspace := w', report := report' }) := input
  have made (describe : FileError → String) (p : Progress) : ended (perform
      (Action.makeDirectories (beside.output.getD "src/generated") id) describe) p =
      (.ok (), p) := rfl
  have model : ended (readModel (beside.input.getD "openapi.json")) w' =
      (.error .malformedModel, w') :=
    ended_readModel overlaid.text overlaid.parsed (overlaid.model.trans rfl)
  have unread : ended (perform (readModel (beside.input.getD "openapi.json"))
      GenerationError.message) { workspace := w', report := report' } =
      (.error ⟨GenerationError.malformedModel.message⟩,
        { workspace := w', report := report' }) := by
    rw [ended_perform, model]
    rfl
  rw [failedStage?, generateStaged, ended_during_bind loaded]
  dsimp only
  rw [ended_during_bind selected, ended_during_bind (checked _), ended_during_bind stored,
    ended_during_bind (made _ _), ended_during_bind_error unread]

theorem generate_fails_outdated :
    failedStage? plainSurroundings beside Spec.outdatedTree = some .model ∧
      Spec.StampedOnly "openapi.json" Spec.outdatedTree
        ((Command.generate beside).run plainSurroundings Spec.outdatedTree).value.workspace := by
  obtain ⟨-, -, files⟩ := generate_fails _ _ _ _ failedStage?_outdated
  obtain ⟨s, loaded, stored, -⟩ := files (by decide)
  have isDefault : (ended (settings plainSurroundings) { workspace := Spec.outdatedTree }).1 =
      .ok {} := by rfl
  obtain rfl := Except.ok.inj (isDefault.symm.trans loaded)
  exact ⟨failedStage?_outdated, stored rfl⟩

end CommandLine

end OpenApiModels
