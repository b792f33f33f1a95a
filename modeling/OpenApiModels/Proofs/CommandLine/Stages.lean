import OpenApiModels.CommandLine.Run
import OpenApiModels.Proofs.Workspace.Keeping

/-!
# Stages of generating

Generating with each failure marked by the stage it arose at. `unmarked_generateStaged` says that
it is otherwise the same.
-/

namespace OpenApiModels.CommandLine

open OpenApiModels.Run Job

variable {α β ε : Type}

/-- What the command is doing. -/
inductive Stage where
  | settings
  | selection
  | templates
  | stamping
  | directory
  | model
  | rendering
  | writing
  | finishing
deriving DecidableEq, Repr

abbrev StagedJob := Run (Stage × Failure) Progress

/-- The job as a part of a stage. -/
def during (stage : Stage) (job : Job α) : StagedJob α :=
  ExceptT.adapt (fun failure => (stage, failure)) job

/-- The job without the marks. -/
def unmarked (job : StagedJob α) : Job α :=
  ExceptT.adapt Prod.snd job

/-! ### The stages -/

/-- Picks the adapter and reports on it. -/
def selectAdapter (o : GenerateOptions) (s : Settings) : Job Decision := do
  let decision ← perform
    (Spec.detectAdapter Registry.standard (o.fallback.getD s.fallback) (o.input.getD s.input))
    Spec.SelectionError.message
  decision.warnings.forM fun text => reportLine s!"warning: {text}"
  let input := o.input.getD s.input
  let version := decision.version.text
  let adapter := decision.adapter.name
  let output := o.output.getD s.output
  reportLine s!"Generating {input} (OpenAPI {version}) with {adapter} → {output}"
  pure decision

/-- Checks the template directory, if there is one. -/
def checkDirectory (o : GenerateOptions) (s : Settings) : Job Unit :=
  match o.templateDirectory.or s.templateDirectory with
  | some directory => checkTemplates directory o.force
  | none => pure ()

/-- Whether checksums are stored in the spec. -/
def stamps (o : GenerateOptions) (s : Settings) : Bool :=
  s.stamp && !o.noStamp

def stampWhere (enabled : Bool) (input : String) : Job Unit :=
  if enabled then stampInput input else pure ()

/-- Reads the model of a spec. -/
def readModel (input : String) : Action GenerationError Model := do
  let (_, doc) ← (Spec.readFile input).mapError .spec
  match Model.ofJson? doc.toJson with
  | none => throw .malformedModel
  | some m => pure m

/-- Writes the rendered files and the readme. -/
def writeRenderedFiles (output : String) (files : List Generation.Rendered) : Job Nat := do
  let written ← perform (files.mapM (Generation.writeRendered output)) GenerationError.message
  written.forM fun path => reportLine s!"  wrote {path}"
  let readme := Path.join output "README.md"
  perform (Action.writeText readme readmeText id) fun _ => s!"failed to write {readme}"
  reportLine s!"  wrote {readme}"
  pure (written.length + 1)

def retypeWhere (enabled : Bool) (around : Surroundings) (s : Settings) (output : String) :
    Job Unit :=
  if enabled then retypeOutput around s output else pure ()

/-- What follows the models: retyping, reporting and checking the types. -/
def finish (around : Surroundings) (o : GenerateOptions) (s : Settings) (count : Nat) :
    Job Nat := do
  let output := o.output.getD s.output
  retypeWhere (s.postprocess.enabled && !o.noPostprocess) around s output
  reportLine s!"Generated {count} files in {output}"
  if o.typecheck || s.postprocess.typecheck then
    pure (if ← typecheck around output then success else failure)
  else pure success

def generateStaged (around : Surroundings) (o : GenerateOptions) : StagedJob Nat := do
  let s ← during .settings (settings around)
  let input := o.input.getD s.input
  let output := o.output.getD s.output
  let decision ← during .selection (selectAdapter o s)
  during .templates (checkDirectory o s)
  during .stamping (stampWhere (stamps o s) input)
  during .directory (perform (Action.makeDirectories output id) fun _ =>
    s!"failed to create output directory {output}")
  let m ← during .model (perform (readModel input) GenerationError.message)
  let files ← during .rendering (perform
    (Generation.render decision.adapter
      ⟨o.templateDirectory.or s.templateDirectory, !o.noComments⟩ m) GenerationError.message)
  let count ← during .writing (writeRenderedFiles output files)
  during .finishing (finish around o s count)

/-! ### Without the marks -/

theorem unmarked_during (stage : Stage) (job : Job α) : unmarked (during stage job) = job := by
  have marks : (Except.mapError Prod.snd : Except (Stage × Failure) α → Except Failure α) ∘
      Except.mapError (fun failure => (stage, failure)) = id := by
    funext r
    cases r <;> rfl
  have run : unmarked (during stage job) = Functor.map
      (f := StateT Progress Logged) (Except.mapError Prod.snd)
      (Except.mapError (fun failure => (stage, failure)) <$> job) := rfl
  rw [run, ← comp_map, marks, id_map]

theorem unmarked_bind (job : StagedJob α) (next : α → StagedJob β) :
    unmarked (job >>= next) = unmarked job >>= fun a => unmarked (next a) := by
  have run : unmarked (job >>= next) = Functor.map
      (f := StateT Progress Logged) (Except.mapError Prod.snd)
      (ExceptT.run job >>= ExceptT.bindCont next) := rfl
  have run' : (unmarked job >>= fun a => unmarked (next a)) =
      ((Except.mapError Prod.snd <$> (ExceptT.run job : StateT Progress Logged _)) >>=
        ExceptT.bindCont fun a => unmarked (next a) : StateT Progress Logged _) := rfl
  rw [run, run', map_bind, bind_map_left]
  congr 1
  funext r
  cases r with
  | ok a => rfl
  | error e => exact map_pure _ _

theorem perform_bind (a : Action ε α) (next : α → Action ε β) (describe : ε → String) :
    perform (a >>= next) describe = perform a describe >>= fun r => perform (next r) describe := by
  funext p
  have run : (a >>= next).outcome p.workspace =
      (a.outcome p.workspace).bind fun r => ExceptT.bindCont next r.1 r.2 := rfl
  have run' : (perform a describe >>= fun r => perform (next r) describe) p =
      (perform a describe p).bind fun r =>
        ExceptT.bindCont (fun r => perform (next r) describe) r.1 r.2 := rfl
  have single {β : Type} (b : Action ε β) (p : Progress) : perform b describe p =
      ⟨((b.outcome p.workspace).value.1.mapError fun e => ⟨describe e⟩,
        { p with workspace := (b.outcome p.workspace).value.2 }),
        (b.outcome p.workspace).warnings⟩ := rfl
  rw [run', single, single, run]
  generalize a.outcome p.workspace = out
  obtain ⟨⟨result, w⟩, warnings⟩ := out
  cases result <;> rfl

theorem generate_eq (adapter : Adapter) (input output : String) (options : GenerationOptions) :
    OpenApiModels.generate adapter input output options =
      readModel input >>= fun m => Generation.render adapter options m >>= fun files =>
        files.mapM (Generation.writeRendered output) := by
  rw [OpenApiModels.generate, readModel, bind_assoc]
  congr 1
  funext found
  obtain ⟨text, doc⟩ := found
  dsimp only
  cases Model.ofJson? doc.toJson <;> rfl

theorem writeModels_eq (adapter : Adapter) (input output : String) (options : GenerationOptions) :
    writeModels adapter input output options =
      (perform (Action.makeDirectories output id) fun _ =>
        s!"failed to create output directory {output}") >>= fun _ =>
      perform (readModel input) GenerationError.message >>= fun m =>
      perform (Generation.render adapter options m) GenerationError.message >>= fun files =>
      writeRenderedFiles output files := by
  simp only [writeModels, generate_eq, perform_bind, writeRenderedFiles, bind_assoc]

theorem stampWhere_bind (enabled : Bool) (input : String) (next : Unit → Job α) :
    stampWhere enabled input >>= next =
      if enabled then stampInput input >>= next else next () := by
  cases enabled
  · exact pure_bind () next
  · rfl

theorem retypeWhere_bind (enabled : Bool) (around : Surroundings) (s : Settings)
    (output : String) (next : Unit → Job α) :
    retypeWhere enabled around s output >>= next =
      if enabled then retypeOutput around s output >>= next else next () := by
  cases enabled
  · exact pure_bind () next
  · rfl

theorem checkDirectory_bind (o : GenerateOptions) (s : Settings) (next : Unit → Job α) :
    checkDirectory o s >>= next =
      match o.templateDirectory.or s.templateDirectory with
      | some directory => checkTemplates directory o.force >>= next
      | none => next () := by
  rw [checkDirectory]
  cases o.templateDirectory.or s.templateDirectory
  · exact pure_bind () next
  · rfl

theorem unmarked_generateStaged (around : Surroundings) (o : GenerateOptions) :
    unmarked (generateStaged around o) = generate around o := by
  simp only [generate, generateStaged, unmarked_bind, unmarked_during, writeModels_eq,
    selectAdapter, finish, checkDirectory_bind, stampWhere_bind, retypeWhere_bind, bind_assoc,
    pure_bind]
  rfl

end OpenApiModels.CommandLine
