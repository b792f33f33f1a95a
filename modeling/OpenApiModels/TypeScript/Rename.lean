import OpenApiModels.TypeScript.Source

/-!
# Renaming

Names are replaced token by token. Comments, literals and names behind a point keep their text.
-/

namespace OpenApiModels.TypeScript

structure Rename where
  old : String
  new : String
deriving DecidableEq, Repr

/-- The first new name for a name, or the name itself. -/
def renamed (renames : List Rename) (name : String) : String :=
  match renames.find? fun r => r.old == name with
  | some r => r.new
  | none => name

/-- The tokens with their names replaced; `afterPoint` says whether a point comes before. -/
def renameTokens (renames : List Rename) (afterPoint : Bool) : List Token → List Token
  | [] => []
  | t :: rest =>
    (if t.kind = .word ∧ !afterPoint then { t with text := (renamed renames t.name).toList }
      else t) :: renameTokens renames (t.isMark '.') rest

def Source.rename (renames : List Rename) (s : Source) : Source :=
  { s with tokens := renameTokens renames false s.tokens }

/-- The text with its names replaced. -/
def renameText (renames : List Rename) (cs : List Char) : Except SourceError (List Char) :=
  (Source.ofText? cs).map fun s => (s.rename renames).text

theorem renamed_nil (name : String) : renamed [] name = name := rfl

end OpenApiModels.TypeScript
