import OpenApiModels.Logged
import OpenApiModels.Text.Blank
import OpenApiModels.Text.Quoted

/-!
# Modes

What to do about a version without an adapter, and how large enums are retyped. Modes are read
from texts without regard to ASCII case or blanks at the ends.
-/

namespace OpenApiModels

/-- The variables that override settings. -/
def fallbackVariable : String := "OPENAPI_ADAPTER_FALLBACK"
def enumLimitVariable : String := "CODEGEN_ENUM_LIMIT"
def enumUnionsVariable : String := "CODEGEN_ENUM_UNIONS"

/-- A text as mode names are compared: trimmed, in small ASCII letters. -/
def normalizeMode (s : String) : String :=
  String.ofList ((Text.trim s.toList).map Char.toLower)

/-- What to do when no adapter supports the version of a spec. -/
inductive FallbackMode where
  | strict
  | warn
  | auto
deriving DecidableEq, Repr

namespace FallbackMode

def name : FallbackMode → String
  | strict => "strict"
  | warn => "warn"
  | auto => "auto"

def ofName? (s : String) : Option FallbackMode :=
  [strict, warn, auto].find? fun mode => mode.name == s

def parse (s : String) : Except String FallbackMode :=
  match ofName? (normalizeMode s) with
  | some mode => .ok mode
  | none =>
    let bad := Text.quoted (normalizeMode s)
    .error s!"invalid fallback mode {bad} (expected strict, warn or auto)"

/-- The explicit mode if there is one, else the mode of the environment, else `warn`. -/
def resolve (explicit : Option FallbackMode) (environment : Option String) : Logged FallbackMode :=
  match explicit, environment with
  | some mode, _ => pure mode
  | none, none => pure warn
  | none, some text =>
    match parse text with
    | .ok mode => pure mode
    | .error bad => ⟨warn, [s!"{fallbackVariable}: {bad}, using \"warn\""]⟩

end FallbackMode

/-- How large enums are retyped: by their size, or always in one way. -/
inductive EnumMode where
  | auto
  | union
  | branded
deriving DecidableEq, Repr

namespace EnumMode

def name : EnumMode → String
  | auto => "auto"
  | union => "union"
  | branded => "branded"

def ofName? (s : String) : Option EnumMode :=
  [auto, union, branded].find? fun mode => mode.name == s

def parse (s : String) : Except String EnumMode :=
  match ofName? (normalizeMode s) with
  | some mode => .ok mode
  | none =>
    let bad := Text.quoted (normalizeMode s)
    .error s!"invalid enum mode {bad} (expected auto, union or branded)"

def parseOrAuto (s : String) : Logged EnumMode :=
  match parse s with
  | .ok mode => pure mode
  | .error bad => ⟨auto, [s!"{enumUnionsVariable}: {bad}, using \"auto\""]⟩

end EnumMode

theorem FallbackMode.ofName?_name (mode : FallbackMode) : ofName? mode.name = some mode := by
  cases mode <;> decide

theorem EnumMode.ofName?_name (mode : EnumMode) : ofName? mode.name = some mode := by
  cases mode <;> decide

end OpenApiModels
