import OpenApiModels.CommandLine.Command
import OpenApiModels.Generation
import OpenApiModels.Json.Printer
import OpenApiModels.Postprocess
import OpenApiModels.Settings.File
import OpenApiModels.Template.Manifest

/-!
# Running commands

A command acts on the workspace it is run in. It prints results and reports on its progress, and
ends with an exit code.
-/

namespace OpenApiModels.CommandLine

/-- What a command has to know about where it runs. -/
structure Surroundings where
  environment : Environment
  host : Script.Host

/-- A command while it runs: the workspace, and what it printed and reported. -/
structure Progress where
  workspace : Workspace
  output : String := ""
  report : String := ""

/-- A failure that ends a command, as it is reported. -/
structure Failure where
  message : String
deriving DecidableEq, Repr

abbrev Job := ExceptT Failure (StateT Progress Logged)

namespace Job

variable {ε α : Type}

def lift (x : StateT Progress Logged α) : Job α :=
  ExceptT.lift x

/-- Performs an action, with its errors as failures. -/
def perform (a : Action ε α) (describe : ε → String) : Job α :=
  ExceptT.mk fun p =>
    let out := a.outcome p.workspace
    ⟨(out.value.1.mapError fun e => ⟨describe e⟩, { p with workspace := out.value.2 }),
      out.warnings⟩

/-- Performs an action, with its errors as values. -/
def attempt (a : Action ε α) : Job (Except ε α) :=
  perform (Action.attempt a : Action Empty (Except ε α)) fun e => nomatch e

def look (f : Workspace → α) : Job α :=
  lift ((fun p => f p.workspace) <$> StateT.get)

def print (text : String) : Job Unit :=
  lift (modify fun p => { p with output := p.output ++ text })

def printLine (line : String) : Job Unit :=
  print (line ++ "\n")

def report (text : String) : Job Unit :=
  lift (modify fun p => { p with report := p.report ++ text })

def reportLine (line : String) : Job Unit :=
  report (line ++ "\n")

def fail (message : String) : Job α :=
  throw ⟨message⟩

end Job

open Job

/-! ### Exit codes -/

def success : Nat := 0
def failure : Nat := 1

/-- The exit code where a spec to verify cannot be read, and where arguments are not used as they
should be. -/
def unusable : Nat := 2

/-! ### Common steps -/

/-- The settings of the project, overridden by the environment. -/
def settings (around : Surroundings) : Job Settings := do
  let loaded ← perform (Settings.load? Settings.fileName) fun _ =>
    s!"failed to load {Settings.fileName}"
  perform (Action.logged ((loaded.getD {}).overrideBy around.environment) : Action Empty Settings)
    fun e => nomatch e

def numberJson (n : Nat) : Json :=
  .number (.integer n)

def versionJson (v : Version) : Json :=
  .object [("version", .string v.text), ("majorVersion", numberJson v.major),
    ("minorVersion", numberJson v.minor), ("dialect", .string v.dialect)]

def decisionJson (d : Decision) : Json :=
  .object ([("version", versionJson d.version), ("adapter", .string d.adapter.name),
      ("isExplicitlySupported", .bool d.isExplicit)] ++
    (d.appliedFallback.toList.map fun mode => ("appliedFallback", .string mode.name)) ++
    if d.warnings.isEmpty then [] else [("warnings", .array (d.warnings.map .string))])

def optionalJson : Option String → Json
  | some s => .string s
  | none => .null

/-- Retypes the files of the output directory and reports on it. -/
def retypeOutput (around : Surroundings) (s : Settings) (output : String) : Job Unit := do
  let options : PostprocessOptions :=
    { extensions := s.postprocess.extensions, formatter := s.postprocess.formatter }
  let transforms := Retyping.defaultTransforms s.enums.limit s.enums.unions
  let found ← perform (OpenApiModels.postprocess around.host output transforms options) fun _ =>
    s!"failed to postprocess {output}"
  found.changed.forM fun path => reportLine s!"  rewrote {path}"
  found.support.forM fun path => reportLine ("  wrote " ++ Path.join output path)
  found.failed.forM fun path => reportLine s!"  warning: left {path} unchanged (see log)"
  if found.formatted then
    reportLine ("  formatted with " ++ " ".intercalate options.formatter)

/-- Type-checks the output directory. False only if the checker ran and found errors. -/
def typecheck (around : Surroundings) (output : String) : Job Bool := do
  let configured ← look (·.exists (Path.join output "tsconfig.json"))
  let arguments := if configured then ["-p", "."]
    else ["--strict", "--skipLibCheck", "models/index.ts"]
  match ← look fun w => around.host.run w output (["npx", "tsc", "--noEmit"] ++ arguments) with
  | none =>
    reportLine s!"  note: tsc not found, run `npx tsc --noEmit` in {output} to type-check"
    pure true
  | some ran =>
    lift (modify fun p => { p with workspace := ran.workspace })
    if ran.status = 0 then
      reportLine "  type-checked with tsc"
      pure true
    else
      reportLine s!"error: tsc reported errors in {output}"
      report ran.output
      pure false

/-- The file that tells readers not to edit the output. -/
def readmeText : String :=
  "# Generated Code, Do Not Edit\n" ++
  "\n" ++
  "This directory is **auto-generated** by specgen.\n" ++
  "Any manual changes will be overwritten the next time `specgen generate` is run.\n" ++
  "\n" ++
  "To regenerate, run:\n" ++
  "```\n" ++
  "specgen generate\n" ++
  "```\n" ++
  "\n" ++
  "The spec's checksums are stamped into its `x-spec-content-sha` and\n" ++
  "`x-spec-processed-checksum` extensions. Run `specgen verify` in CI to catch drift.\n"

/-! ### Generating -/

/-- Stops at a template directory that lacks templates, unless forced on. -/
def checkTemplates (directory : String) (force : Bool) : Job Unit := do
  let w ← look id
  let missing ← perform (Action.logged (Template.missingTemplates w directory) :
    Action Empty (List String)) fun e => nomatch e
  if !missing.isEmpty then
    let names := ", ".intercalate missing
    if force then
      reportLine s!"warning: template directory {directory} is missing: {names}"
    else
      fail s!"template directory {directory} is missing: {names}. Use --force to generate anyway."

/-- Stores the checksums of a spec and reports them. -/
def stampInput (input : String) : Job Unit := do
  let pair ← perform (Spec.stampFile input) fun _ => s!"failed to stamp checksums into {input}"
  reportLine s!"  stamped raw checksum {pair.raw}"
  reportLine s!"  stamped processed checksum {pair.processed}"

/-- Writes the model files and the readme. Yields their number. -/
def writeModels (adapter : Adapter) (input output : String) (options : GenerationOptions) :
    Job Nat := do
  perform (Action.makeDirectories output id) fun _ =>
    s!"failed to create output directory {output}"
  let written ← perform (OpenApiModels.generate adapter input output options)
    GenerationError.message
  written.forM fun path => reportLine s!"  wrote {path}"
  let readme := Path.join output "README.md"
  perform (Action.writeText readme readmeText id) fun _ => s!"failed to write {readme}"
  reportLine s!"  wrote {readme}"
  pure (written.length + 1)

def generate (around : Surroundings) (o : GenerateOptions) : Job Nat := do
  let s ← settings around
  let input := o.input.getD s.input
  let output := o.output.getD s.output
  let decision ← perform
    (Spec.detectAdapter Registry.standard (o.fallback.getD s.fallback) input)
    Spec.SelectionError.message
  decision.warnings.forM fun text => reportLine s!"warning: {text}"
  let version := decision.version.text
  let adapter := decision.adapter.name
  reportLine s!"Generating {input} (OpenAPI {version}) with {adapter} → {output}"
  let templateDirectory := o.templateDirectory.or s.templateDirectory
  match templateDirectory with
  | some directory => checkTemplates directory o.force
  | none => pure ()
  if s.stamp && !o.noStamp then stampInput input
  let count ← writeModels decision.adapter input output
    { templateDirectory, comments := !o.noComments }
  if s.postprocess.enabled && !o.noPostprocess then retypeOutput around s output
  reportLine s!"Generated {count} files in {output}"
  if o.typecheck || s.postprocess.typecheck then
    pure (if ← typecheck around output then success else failure)
  else pure success

/-! ### Other commands -/

def detect (around : Surroundings) (input : Option String) (fallback : Option FallbackMode) :
    Job Nat := do
  let s ← settings around
  let found ← attempt (Spec.detectAdapter Registry.standard (fallback.getD s.fallback)
    (input.getD s.input))
  match found with
  | .ok decision =>
    printLine (decisionJson decision).pretty
    pure success
  | .error (.unsupported e) =>
    reportLine ("error: " ++ e.message)
    pure failure
  | .error (.spec e) => fail e.message

def verify (around : Surroundings) (input : Option String) (options : Spec.VerifyOptions) :
    Job Nat := do
  let s ← settings around
  let path := input.getD s.input
  match ← attempt (Spec.verifyFile options path) with
  | .ok found =>
    found.messages.forM fun line => reportLine s!"  {line}"
    if !found.hasMismatch then reportLine s!"{path}: checksums verified"
    else if options.updateOnMismatch then reportLine s!"{path}: stored checksums updated"
    else reportLine s!"warning: checksum drift detected in {path}"
    pure success
  | .error e =>
    reportLine ("error: " ++ e.message)
    match e with
    | .mismatch _ _ => pure failure
    | .spec _ => pure unusable

def process (around : Surroundings) (input : Option String) (stamp : Bool) : Job Nat := do
  let s ← settings around
  let path := input.getD s.input
  if stamp then
    let pair ← perform (Spec.stampFile path) Spec.Error.message
    printLine (Json.object [("rawChecksum", .string pair.raw),
      ("processedChecksum", .string pair.processed)]).pretty
  else
    let found ← perform (Spec.processFile path) Spec.Error.message
    printLine (Json.object [("priorRawChecksum", optionalJson found.prior),
      ("processedChecksum", .string found.checksum)]).pretty
  pure success

/-- The template directory that is given, or else that of the settings. -/
def templateDirectory (around : Surroundings) : Option String → Job String
  | some directory => pure directory
  | none => do
    match (← settings around).templateDirectory with
    | some directory => pure directory
    | none => fail s!"no template directory given and none set in {Settings.fileName}"

def validateTemplates (around : Surroundings) (directory : Option String) : Job Nat := do
  let directory ← templateDirectory around directory
  let w ← look id
  let missing ← perform (Action.logged (Template.missingTemplates w directory) :
    Action Empty (List String)) fun e => nomatch e
  printLine (Json.object [("valid", .bool missing.isEmpty),
    ("missingTemplates", .array (missing.map .string))]).pretty
  pure (if missing.isEmpty then success else failure)

def postprocess (around : Surroundings) (directory : Option String) : Job Nat := do
  let s ← settings around
  retypeOutput around s (directory.getD s.output)
  pure success

def init (force : Bool) : Job Nat := do
  if (← look (·.exists Settings.fileName)) && !force then
    fail s!"{Settings.fileName} already exists. Use --force to overwrite."
  else
    perform (Action.writeText Settings.fileName Settings.defaultText id) FileError.message
    reportLine s!"Created {Settings.fileName}"
    pure success

def versionText : String := "specgen 0.3.0"

def Command.job (around : Surroundings) : Command → Job Nat
  | .generate options => CommandLine.generate around options
  | .detect input fallback => CommandLine.detect around input fallback
  | .verify input options => CommandLine.verify around input options
  | .process input stamp => CommandLine.process around input stamp
  | .validateTemplates directory => CommandLine.validateTemplates around directory
  | .postprocess directory => CommandLine.postprocess around directory
  | .init force => CommandLine.init force
  | .version => do
    printLine versionText
    pure success

/-! ### Running -/

/-- What a run leaves behind. -/
structure Result where
  code : Nat
  output : String
  report : String
  workspace : Workspace

/-- Runs a command in a workspace. A failure is reported last. -/
def Command.run (around : Surroundings) (c : Command) (w : Workspace) : Logged Result := do
  let (ended, p) ← StateT.run (ExceptT.run (c.job around)) { workspace := w }
  match ended with
  | .ok code => pure ⟨code, p.output, p.report, p.workspace⟩
  | .error e => pure ⟨failure, p.output, p.report ++ "Error: " ++ e.message ++ "\n", p.workspace⟩

end OpenApiModels.CommandLine
