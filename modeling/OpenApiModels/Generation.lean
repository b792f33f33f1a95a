import OpenApiModels.Schema.Reader
import OpenApiModels.Spec.Files
import OpenApiModels.Template.Basic

/-!
# Generation

The model files of a spec are all rendered before the first of them is written.
-/

namespace OpenApiModels

open TypeScript

structure GenerationOptions where
  /-- Where the templates are; without it, files have the standard layout. -/
  templateDirectory : Option String := none
  comments : Bool := true
deriving DecidableEq, Repr

inductive GenerationError where
  | spec (e : Spec.Error)
  | malformedModel
  | template (name : String)
  | unwritable (path cause : String)
deriving DecidableEq, Repr

/-- The text of an error. Which member is no schema model, and what is wrong with a template, is not
kept. -/
def GenerationError.message : GenerationError → String
  | .spec e => e.message
  | .malformedModel => "failed to read schema model: not a schema model"
  | .template name => s!"template error: {name}"
  | .unwritable path cause => s!"failed to write {path}: {cause}"

/-- The dialect that an adapter reads. -/
def Adapter.dialect : Adapter → Dialect
  | openapi30 => .openapi30
  | openapi31 => .openapi31

namespace Generation

/-- A file to write, by its path under the output directory. -/
structure Rendered where
  path : String
  text : String
deriving DecidableEq, Repr

def modelPath (name : String) : String :=
  "models/" ++ name ++ ".ts"

def modelTemplate : String := "model.ts.j2"
def indexTemplate : String := "index.ts.j2"

/-- Renders a template of a directory. -/
def renderTemplate (directory name : String) (scope : Template.Scope) :
    Action GenerationError String := do
  let text ← Action.readText (Path.join directory name) fun _ => .template name
  match Template.render? text scope with
  | some cs => pure (String.ofList cs)
  | none => throw (.template name)

def renderModel (options : GenerationOptions) (layout : ModelFile.LayoutOptions) (f : ModelFile) :
    Action GenerationError Rendered := do
  let text ← match options.templateDirectory with
    | none => pure (String.ofList (f.text layout))
    | some directory => renderTemplate directory modelTemplate (Template.scopeOf layout f)
  pure ⟨modelPath f.name, text⟩

def renderIndex (options : GenerationOptions) (modules : List String) :
    Action GenerationError Rendered := do
  let text ← match options.templateDirectory with
    | none => pure (String.ofList (ModelFile.indexText modules))
    | some directory => renderTemplate directory indexTemplate (Template.scopeOfIndex modules)
  pure ⟨modelPath "index", text⟩

/-- Renders the planned files in order. A schema that is left out gives a warning. -/
def renderPlan (options : GenerationOptions) (layout : ModelFile.LayoutOptions) :
    List ModelFile.Planned → Action GenerationError (List Rendered)
  | [] => pure []
  | .file f :: rest => do
    let file ← renderModel options layout f
    let more ← renderPlan options layout rest
    pure (file :: more)
  | .repeated schema type :: rest => do
    let name := Text.quoted schema
    Action.logged (Logged.warn s!"schema {name} maps to duplicate type name {type}, skipping")
    renderPlan options layout rest

/-- Renders the files of a model, the index last. -/
def render (adapter : Adapter) (options : GenerationOptions) (m : Model) :
    Action GenerationError (List Rendered) := do
  let layout : ModelFile.LayoutOptions := ⟨m.info.title, m.info.version, options.comments⟩
  let files ← renderPlan options layout (ModelFile.plan adapter.dialect [] m.schemas)
  let index ← renderIndex options ((ModelFile.ofModel adapter.dialect m).map (·.name))
  pure (files ++ [index])

/-- The directory that holds a path. -/
def parent (path : String) : String :=
  "/".intercalate (Path.parts path).dropLast

/-- Writes a file and makes the directories that lead to it. Yields its path. -/
def writeRendered (output : String) (file : Rendered) : Action GenerationError String := do
  let path := Path.join output file.path
  Action.makeDirectories (parent path) fun e => .unwritable (parent path) e.message
  Action.writeText path file.text fun e => .unwritable path e.message
  pure path

end Generation

/-- Generates the model files of a spec. Yields the paths that were written, in order. -/
def generate (adapter : Adapter) (input output : String) (options : GenerationOptions) :
    Action GenerationError (List String) := do
  let (_, doc) ← (Spec.readFile input).mapError .spec
  match Model.ofJson? doc.toJson with
  | none => throw .malformedModel
  | some m => do
    let files ← Generation.render adapter options m
    files.mapM (Generation.writeRendered output)

end OpenApiModels
