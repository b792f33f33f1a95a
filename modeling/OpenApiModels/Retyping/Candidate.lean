import OpenApiModels.Retyping.Import
import OpenApiModels.TypeScript.EnumDecl
import OpenApiModels.TypeScript.Rename

/-!
# Replacing declarations

A candidate is the planned replacement of one enum declaration by a type declaration. Candidates
are applied from the last to the first, then the names that changed are followed in the file.
-/

namespace OpenApiModels.Retyping

open Text TypeScript

structure Candidate where
  /-- The offset of the enum declaration in bytes. -/
  position : Nat
  enumText : List Char
  declaration : List Char
  branded : Bool
  /-- The new name, if the declaration gets one. -/
  rename : Option Rename
  /-- Whether other files can import the declaration. -/
  exported : Bool
deriving DecidableEq, Repr

/-- A file that retyped files depend on; its path is relative to the output root. -/
structure SupportFile where
  path : String
  content : String
deriving DecidableEq, Repr

/-- A file whose enums are retyped. -/
structure Retyped where
  text : List Char
  /-- The renames of exported declarations, which other files have to follow. -/
  renames : List Rename
  support : List SupportFile
deriving DecidableEq, Repr

/-- The text before and after an offset in bytes. -/
def splitAtByte : Nat → List Char → List Char × List Char
  | _, [] => ([], [])
  | 0, cs => ([], cs)
  | n + 1, c :: cs =>
    let (before, after) := splitAtByte (n + 1 - c.utf8Size) cs
    (c :: before, after)

/-- Puts the new declaration in front of the old one, which is then cut out. -/
def Candidate.replaceIn (c : Candidate) (cs : List Char) : Except SourceError (List Char) :=
  let (before, after) := splitAtByte c.position cs
  match splitFirst? c.enumText (c.declaration ++ after) with
  | some (kept, rest) => .ok (before ++ kept ++ rest)
  | none => .error (.declarationNotFound c.position)

/-- Replaces the declarations; the candidates are in descending order of their positions. -/
def replaceAll (candidates : List Candidate) (cs : List Char) : Except SourceError (List Char) :=
  candidates.foldlM (fun cs c => c.replaceIn cs) cs

/-- Applies candidates, which are in ascending order of their positions, to the file at `path`.
Yields nothing when there is none. -/
def applyCandidates (path : String) (cs : List Char) (candidates : List Candidate) :
    Except SourceError (Option Retyped) :=
  let ordered := candidates.reverse
  if ordered.isEmpty then .ok none
  else do
    let replaced ← replaceAll ordered cs
    let renames := ordered.filterMap (·.rename)
    let followed ← if renames.isEmpty then .ok replaced else renameText renames replaced
    let branded := ordered.any (·.branded)
    pure (some
      { text := if branded then addBrandedImport path followed else followed
        renames := (ordered.filter (·.exported)).filterMap (·.rename)
        support := if branded then [⟨brandedFile, brandedSupport⟩] else [] })

end OpenApiModels.Retyping
