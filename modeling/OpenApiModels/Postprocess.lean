import OpenApiModels.Retyping.Run
import OpenApiModels.Script.Run
import OpenApiModels.Workspace.Action

/-!
# Postprocessing

The files of a directory are retyped together. Where something changed, the support files follow
and the formatter runs.
-/

namespace OpenApiModels

open Retyping

structure PostprocessOptions where
  /-- The extensions of the files to retype, without the point. -/
  extensions : List String := ["ts"]
  /-- The command to run behind any change; none if empty. -/
  formatter : List String := []
deriving DecidableEq, Repr

/-- What a run did. Paths are relative to the directory. -/
structure PostprocessReport where
  scanned : Nat
  changed : List String
  hits : List (String × Nat)
  failed : List String
  support : List String
  formatted : Bool
deriving DecidableEq, Repr

inductive PostprocessError where
  | noDirectory (path : String)
  | unwritable (path cause : String)
deriving DecidableEq, Repr

namespace Postprocess

/-- The path of a file by its path under a directory; the directory may itself be the file. -/
def fullPath (root rel : String) : String :=
  if rel == "" then root else Path.join root rel

/-- The files below a directory that have one of the extensions, in order. -/
def treeFiles? (extensions : List String) (root : String) (w : Workspace) :
    Option (List TreeFile) := do
  let loc ← w.locate? root
  let _ ← w.find? loc
  let files := (w.filesBelow loc).map fun (rel, f) =>
    (⟨Location.path rel, f.content.text?.map String.toList⟩ : TreeFile)
  pure (files.filter fun f =>
    (Path.extension? (fullPath root f.path)).any fun ext => extensions.contains ext)

def writeChanged (root : String) (changed : List (String × List Char)) :
    Action PostprocessError Unit :=
  changed.forM fun (rel, text) =>
    Action.writeText (fullPath root rel) (String.ofList text) fun e =>
      .unwritable (fullPath root rel) e.message

/-- Writes a support file, unless it is there. Yields the paths that were written. -/
def writeSupport (root : String) (file : SupportFile) : Action PostprocessError (List String) := do
  let path := Path.join root file.path
  match ← Action.look (·.readText path) with
  | .ok text =>
    if text == file.content then pure []
    else
      Action.writeText path file.content fun e => .unwritable path e.message
      pure [file.path]
  | .error _ =>
    Action.writeText path file.content fun e => .unwritable path e.message
    pure [file.path]

/-- Runs the formatter in the directory. Failures give a warning. -/
def format (host : Script.Host) (root : String) (command : List String) :
    Action PostprocessError Bool := do
  match command with
  | [] => pure false
  | program :: _ =>
    let line := " ".intercalate command
    match ← Action.look fun w => host.run w root command with
    | none =>
      Action.logged (Logged.warn s!"could not run {program}; run `{line}` in {root} to format")
      pure false
    | some s =>
      Action.update (fun _ => .ok s.workspace) fun e => .unwritable root e.message
      if s.status = 0 then pure true
      else
        let status := s!"exit status: {s.status}"
        Action.logged (Logged.warn
          s!"{line} exited with {status}, output may need manual formatting")
        pure false

end Postprocess

open Postprocess

/-- Retypes the files of a directory. -/
def postprocess (host : Script.Host) (root : String) (transforms : List Transform)
    (options : PostprocessOptions) : Action PostprocessError PostprocessReport := do
  match ← Action.look (treeFiles? options.extensions root) with
  | none => throw (.noDirectory root)
  | some files => do
    let found ← Action.logged (Retyping.run transforms files)
    writeChanged root found.changed
    let report : PostprocessReport :=
      { scanned := found.scanned
        changed := found.changed.map (·.1)
        hits := found.hits
        failed := found.failed
        support := []
        formatted := false }
    if found.changed.isEmpty then pure report
    else
      let support ← found.support.mapM (writeSupport root)
      let formatted ← format host root options.formatter
      pure { report with support := support.flatten, formatted }

end OpenApiModels
