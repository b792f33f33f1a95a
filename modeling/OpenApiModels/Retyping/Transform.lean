import OpenApiModels.Retyping.Candidate
import OpenApiModels.Settings.Mode

/-!
# Enum transforms

The union transform retypes enums whose names end in `Enum`. The size transform retypes enums
with enough string members, whatever their names, to unions or to branded strings.
-/

namespace OpenApiModels.Retyping

open Text TypeScript

/-- The file that is retyped, and the names declared in any file under the output root. -/
structure FileContext where
  path : String
  treeNames : List String

/-- The name without its suffix `Enum`; names that have none, or nothing else, stay. -/
def baseName (name : String) : String :=
  match stripStart? "Enum".toList.reverse name.toList.reverse with
  | none | some [] => name
  | some base => String.ofList base.reverse

/-- The name under which a declaration is retyped: its base name where that is free. -/
def targetName (decl : EnumDecl) (used : List String) (file : FileContext) : Logged String :=
  let base := baseName decl.name
  if base != decl.name && (used.contains base || file.treeNames.contains base) then
    ⟨decl.name,
      [s!"{file.path}: enum {decl.name} keeps its name, {base} is already in use"]⟩
  else pure base

/-- The string values of a declaration, with a warning for each member that is dropped. -/
def stringMembers (decl : EnumDecl) (path : String) : Logged (List String) :=
  let dropped := decl.members.filterMap fun m =>
    match m.value with
    | .string _ => none
    | value =>
      let text := value.describe
      some s!"{path}: enum {decl.name}: dropping non-string member {m.name} = {text}"
  let empty :=
    if decl.strings.isEmpty then
      [s!"{path}: enum {decl.name} has no string members, leaving it unchanged"]
    else []
  ⟨decl.strings, dropped ++ empty⟩

/-! ### Declarations -/

def exportText (decl : EnumDecl) : List Char :=
  if decl.exported then "export ".toList else []

def unionDeclaration (decl : EnumDecl) (target : String) (values : List String) : List Char :=
  exportText decl ++ "type ".toList ++ target.toList ++ " = ".toList ++
    List.intercalate [' ', '|', ' '] (values.map fun v => stringLiteral v.toList) ++ [';']

def brandedDeclaration (decl : EnumDecl) (target : String) : List Char :=
  exportText decl ++ "type ".toList ++ target.toList ++ " = Branded<string, ".toList ++
    stringLiteral target.toList ++ ">;".toList

def candidate (decl : EnumDecl) (target : String) (declaration : List Char) (branded : Bool) :
    Candidate :=
  { position := decl.start
    enumText := decl.text
    declaration, branded
    rename := if target = decl.name then none else some ⟨decl.name, target⟩
    exported := decl.exported }

/-! ### Transforms -/

inductive Transform where
  | union
  /-- Retypes enums with at least `limit` string members. -/
  | bySize (limit : Nat) (mode : EnumMode)
deriving DecidableEq, Repr

namespace Transform

def name : Transform → String
  | union => "enum-union"
  | bySize _ _ => "enum-branded"

/-- Whether an enum with that many string members becomes a branded string. -/
def brands (limit : Nat) (mode : EnumMode) (count : Nat) : Bool :=
  match mode with
  | .union => false
  | .branded => true
  | .auto => decide (limit < count)

/-- The replacement planned for a declaration, if there is one. -/
def plan (transform : Transform) (used : List String) (file : FileContext) (decl : EnumDecl) :
    Logged (Option Candidate) :=
  match transform with
  | union =>
    if baseName decl.name = decl.name then pure none
    else do
      let values ← stringMembers decl file.path
      if values.isEmpty then pure none
      else do
        let target ← targetName decl used file
        pure (some (candidate decl target (unionDeclaration decl target values) false))
  | bySize limit mode =>
    let count := decl.strings.length
    if count = 0 ∨ count < limit then pure none
    else do
      let values ← stringMembers decl file.path
      let target ← targetName decl used file
      let branded := brands limit mode count
      let declaration :=
        if branded then brandedDeclaration decl target else unionDeclaration decl target values
      pure (some (candidate decl target declaration branded))

/-- Retypes the enums of a file. Yields nothing when there is nothing to retype. -/
def apply (transform : Transform) (file : FileContext) (cs : List Char) :
    Logged (Except SourceError (Option Retyped)) :=
  match Source.ofText? cs with
  | .error e => pure (.error e)
  | .ok s =>
    match enumDecls [] s.tokens with
    | .error e => pure (.error e)
    | .ok decls => do
      let candidates ← decls.mapM (plan transform s.words file)
      pure (applyCandidates file.path cs (candidates.filterMap id))

end Transform

/-- The transforms of a run, in order. -/
def defaultTransforms (limit : Nat) (mode : EnumMode) : List Transform :=
  [.union, .bySize limit mode]

end OpenApiModels.Retyping
