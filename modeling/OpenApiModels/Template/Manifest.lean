import OpenApiModels.Workspace.Action
import OpenApiModels.Yaml.Record

/-!
# Template manifests

The manifest of a template directory lists the templates that have to be in it. Where there is no
manifest that can be read, the manifest itself is what is missing.
-/

namespace OpenApiModels.Template

open Yaml

structure Manifest where
  required : List String
  /-- Templates that the directory may leave out. -/
  optional : List String
deriving DecidableEq, Repr

namespace Manifest

def fileName : String := "manifest.yaml"

def ofView? (v : View) : Option Manifest := do
  let fields ← v.fields? ["required", "optional"]
  let required ← View.field fields "required" [] View.texts?
  let optional ← View.field fields "optional" [] View.texts?
  pure { required, optional }

def ofText? (text : String) : Option Manifest :=
  (view? text).bind ofView?

end Manifest

/-- The templates that a directory lacks. -/
def missingTemplates (w : Workspace) (directory : String) : Logged (List String) :=
  let path := Path.join directory Manifest.fileName
  match w.readText path with
  | .error _ => pure [Manifest.fileName]
  | .ok text =>
    match Manifest.ofText? text with
    | none => ⟨[Manifest.fileName], [s!"invalid template manifest {path}"]⟩
    | some manifest =>
      pure (manifest.required.filter fun name => !w.isFile (Path.join directory name))

end OpenApiModels.Template
