import OpenApiModels.Retyping.Transform

/-!
# Retyping a tree of files

Every file is transformed before any is written. Renames of exported declarations are then
followed in all files. A file that cannot be read as source text stays as it is.
-/

namespace OpenApiModels.Retyping

open Text TypeScript

/-- A file of the tree. Its text is missing if it is not UTF-8. -/
structure TreeFile where
  path : String
  text? : Option (List Char)

/-! ### One file -/

/-- The retyped file so far, and which transforms changed it. -/
structure Combined where
  retyped : Option Retyped
  fired : List Bool

/-- Applies one transform after another. -/
def combine (file : FileContext) (stored : List Char) :
    List Transform → Combined → Logged (Except (Transform × SourceError) Combined)
  | [], combined => pure (.ok combined)
  | transform :: rest, combined => do
    let text := (combined.retyped.map (·.text)).getD stored
    match ← transform.apply file text with
    | .error e => pure (.error (transform, e))
    | .ok none => combine file stored rest { combined with fired := combined.fired ++ [false] }
    | .ok (some r) =>
      let before := combined.retyped.getD ⟨stored, [], []⟩
      combine file stored rest
        { retyped := some
            { text := r.text
              renames := before.renames ++ r.renames
              support := before.support ++ r.support }
          fired := combined.fired ++ [r.text != text] }

/-- All transforms over one file. Yields nothing when the text stays the same. -/
def transformFile (transforms : List Transform) (file : FileContext) (stored : List Char) :
    Logged (Except (Transform × SourceError) (Option (Retyped × List Bool))) := do
  match ← combine file stored transforms ⟨none, []⟩ with
  | .error e => pure (.error e)
  | .ok combined =>
    pure (.ok ((combined.retyped.filter fun r => r.text != stored).map fun r =>
      (r, combined.fired)))

/-! ### All files -/

/-- A file during a run. -/
structure FileState where
  path : String
  stored : List Char
  current : List Char
  failed : Bool

/-- What a run has found so far. -/
structure Progress where
  treeNames : List String
  renames : List Rename := []
  support : List SupportFile := []
  hits : List (String × Nat)
  files : List FileState := []

def addHits (hits : List (String × Nat)) (fired : List Bool) : List (String × Nat) :=
  List.zipWith (fun h f => (h.1, h.2 + if f then 1 else 0)) hits fired

/-- Transforms one more file. -/
def Progress.step (transforms : List Transform) (p : Progress) (path : String)
    (stored : List Char) : Logged Progress := do
  match ← transformFile transforms ⟨path, p.treeNames⟩ stored with
  | .ok none => pure { p with files := p.files ++ [⟨path, stored, stored, false⟩] }
  | .ok (some (r, fired)) =>
    pure
      { treeNames := p.treeNames ++ r.renames.map (·.new)
        renames := p.renames ++ r.renames
        support := (p.support ++ r.support).eraseDups
        hits := addHits p.hits fired
        files := p.files ++ [⟨path, stored, r.text, false⟩] }
  | .error (transform, e) => do
    let name := transform.name
    let cause := e.message
    Logged.warn s!"{path}: {name} failed, file left unchanged: {cause}"
    pure { p with files := p.files ++ [⟨path, stored, stored, true⟩] }

/-- Follows the renames in one file. -/
def FileState.follow (renames : List Rename) (f : FileState) : Logged FileState :=
  if f.failed then pure f
  else
    match renameText renames f.current with
    | .ok text => pure { f with current := text }
    | .error e =>
      let cause := e.message
      ⟨f, [s!"{f.path}: could not follow renamed declarations: {cause}"]⟩

/-- The outcome of a run before anything is written. -/
structure Outcome where
  scanned : Nat
  hits : List (String × Nat)
  failed : List String
  /-- The files whose text changed, with their new texts, in order. -/
  changed : List (String × List Char)
  /-- The support files that the retyped files need. -/
  support : List SupportFile

/-- The names that the files of the tree declare. -/
def treeNames (files : List TreeFile) : List String :=
  files.flatMap fun f =>
    match f.text?.map declaredNames with
    | some (.ok names) => names
    | _ => []

/-- The files that are not UTF-8. -/
def undecodable (files : List TreeFile) : Logged (List String) :=
  let bad := (files.filter fun f => f.text?.isNone).map (·.path)
  ⟨bad, bad.map fun path => s!"{path}: not valid UTF-8, file left unchanged"⟩

/-- The files that are UTF-8, with their texts. -/
def decoded (files : List TreeFile) : List (String × List Char) :=
  files.filterMap fun f => f.text?.map fun text => (f.path, text)

/-- Transforms one file after another. -/
def transformAll (transforms : List Transform) (files : List TreeFile) : Logged Progress :=
  (decoded files).foldlM (fun p f => p.step transforms f.1 f.2)
    { treeNames := treeNames files, hits := transforms.map fun t => (t.name, 0) }

/-- Follows the renames of exported declarations in all files. -/
def Progress.follow (p : Progress) : Logged (List FileState) :=
  if p.renames.isEmpty then pure p.files else p.files.mapM (·.follow p.renames)

/-- Runs the transforms over the files of a tree. -/
def run (transforms : List Transform) (files : List TreeFile) : Logged Outcome := do
  let bad ← undecodable files
  let p ← transformAll transforms files
  let followed ← p.follow
  pure
    { scanned := files.length
      hits := p.hits
      failed := bad ++ (p.files.filter (·.failed)).map (·.path)
      changed := (followed.filter fun f => f.current != f.stored).map fun f =>
        (f.path, f.current)
      support := p.support }

end OpenApiModels.Retyping
