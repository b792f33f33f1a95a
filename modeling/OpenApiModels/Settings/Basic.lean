import OpenApiModels.Settings.Mode

/-!
# Settings of a project

Every setting has a default. Variables of the environment override the fallback mode and the enum
settings.
-/

namespace OpenApiModels

-- Powers are those of the core library, whatever else is imported.
attribute [local instance (high)] instPowNat

/-- Which enums are retyped, and how. -/
structure EnumSettings where
  /-- The number of members from which on enums are retyped by their size. -/
  limit : Nat := 45
  unions : EnumMode := .auto
deriving DecidableEq, Repr

structure PostprocessSettings where
  enabled : Bool := true
  /-- The extensions of the files that are retyped. -/
  extensions : List String := ["ts"]
  /-- The command that formats the output; none if empty. -/
  formatter : List String := ["npx", "@biomejs/biome", "format", "--write", "."]
  typecheck : Bool := false
deriving DecidableEq, Repr

structure Settings where
  input : String := "openapi.json"
  output : String := "src/generated"
  fallback : FallbackMode := .warn
  templateDirectory : Option String := none
  enums : EnumSettings := {}
  postprocess : PostprocessSettings := {}
  /-- Whether checksums are stored in the spec before models are generated. -/
  stamp : Bool := true
deriving DecidableEq, Repr

/-- The variables that are set. -/
abbrev Environment := List (String × String)

/-- A limit as the environment gives it: digits of at most 64 bits, perhaps behind a plus sign. -/
def parseLimit? (text : String) : Option Nat :=
  let cs := Text.trim text.toList
  let digits := if cs.head? == some '+' then cs.tail else cs
  let n := Nat.ofDigitChars 10 digits 0
  if digits.isEmpty || !digits.all Char.isDigit || 2 ^ (64 : Nat) ≤ n then none else some n

namespace Settings

def overrideFallback (environment : Environment) (s : Settings) : Logged Settings :=
  match environment.lookup fallbackVariable with
  | none => pure s
  | some text => do pure { s with fallback := ← FallbackMode.resolve none (some text) }

def overrideLimit (environment : Environment) (s : Settings) : Logged Settings :=
  match environment.lookup enumLimitVariable with
  | none => pure s
  | some text =>
    match parseLimit? text with
    | some limit => pure { s with enums.limit := limit }
    | none =>
      let bad := Text.quoted text
      ⟨s, [s!"{enumLimitVariable}: invalid limit {bad}, keeping {s.enums.limit}"]⟩

def overrideUnions (environment : Environment) (s : Settings) : Logged Settings :=
  match environment.lookup enumUnionsVariable with
  | none => pure s
  | some text => do pure { s with enums.unions := ← EnumMode.parseOrAuto text }

/-- Applies the overrides of the environment. Values that cannot be read give a warning. -/
def overrideBy (environment : Environment) (s : Settings) : Logged Settings := do
  let s ← overrideFallback environment s
  let s ← overrideLimit environment s
  overrideUnions environment s

end Settings

end OpenApiModels
