import OpenApiModels.CommandLine.Arguments
import OpenApiModels.Settings.Mode
import OpenApiModels.Spec.Drift

/-!
# Commands

The commands of the program, as its arguments give them.
-/

namespace OpenApiModels.CommandLine

structure GenerateOptions where
  input : Option String := none
  output : Option String := none
  fallback : Option FallbackMode := none
  templateDirectory : Option String := none
  /-- Whether to generate with an incomplete template directory. -/
  force : Bool := false
  noStamp : Bool := false
  noPostprocess : Bool := false
  noComments : Bool := false
  typecheck : Bool := false
deriving DecidableEq, Repr

inductive Command where
  | generate (options : GenerateOptions)
  | detect (input : Option String) (fallback : Option FallbackMode)
  | verify (input : Option String) (options : Spec.VerifyOptions)
  | process (input : Option String) (stamp : Bool)
  | validateTemplates (directory : Option String)
  | postprocess (directory : Option String)
  | init (force : Bool)
  | version
deriving DecidableEq, Repr

namespace Command

def inputSpec : OptionSpec := { long := "input", short := some 'i', takesValue := true }
def outputSpec : OptionSpec := { long := "output", short := some 'o', takesValue := true }
def fallbackSpec : OptionSpec := { long := "fallback", takesValue := true }
def templatesSpec : OptionSpec := { long := "template-dir", takesValue := true }

/-- An option without a value. -/
def flagSpec (name : String) : OptionSpec := { long := name }

/-- Reads the arguments of a command, with at most `others` that are not options. -/
def arguments? (specs : List OptionSpec) (others : Nat) (texts : List String) :
    Option Arguments := do
  let a ← Arguments.read? specs {} texts
  if a.others.length ≤ others then some a else none

/-- The fallback mode that was given, if any; it has to be one. -/
def fallback? (a : Arguments) : Option (Option FallbackMode) :=
  match a.value? "fallback" with
  | none => some none
  | some text => (FallbackMode.parse text).toOption.map some

def generate? (texts : List String) : Option Command := do
  let flags := ["force", "no-stamp", "no-postprocess", "no-jsdoc", "typecheck"]
  let a ← arguments? ([inputSpec, outputSpec, fallbackSpec, templatesSpec] ++ flags.map flagSpec)
    0 texts
  let fallback ← fallback? a
  pure (.generate
    { input := a.value? "input"
      output := a.value? "output"
      fallback
      templateDirectory := a.value? "template-dir"
      force := a.hasOption "force"
      noStamp := a.hasOption "no-stamp"
      noPostprocess := a.hasOption "no-postprocess"
      noComments := a.hasOption "no-jsdoc"
      typecheck := a.hasOption "typecheck" })

def detect? (texts : List String) : Option Command := do
  let a ← arguments? [inputSpec, fallbackSpec] 0 texts
  let fallback ← fallback? a
  pure (.detect (a.value? "input") fallback)

def verify? (texts : List String) : Option Command := do
  let flags := ["update", "no-fail", "raw-only", "processed-only"]
  let a ← arguments? (inputSpec :: flags.map flagSpec) 0 texts
  let rawOnly := a.hasOption "raw-only"
  let processedOnly := a.hasOption "processed-only"
  if rawOnly && processedOnly then none
  else
    pure (.verify (a.value? "input")
      { failOnMismatch := !a.hasOption "no-fail"
        updateOnMismatch := a.hasOption "update"
        checkRaw := !processedOnly
        checkProcessed := !rawOnly })

def process? (texts : List String) : Option Command := do
  let a ← arguments? [inputSpec, flagSpec "stamp"] 0 texts
  pure (.process (a.value? "input") (a.hasOption "stamp"))

/-- The command that arguments give. Nothing if they are not used as they should be. -/
def ofArguments? : List String → Option Command
  | [] => none
  | name :: rest =>
    match name with
    | "generate" => generate? rest
    | "detect" => detect? rest
    | "verify" => verify? rest
    | "process" => process? rest
    | "validate-templates" =>
      (arguments? [] 1 rest).map fun a => .validateTemplates a.others.head?
    | "postprocess" => (arguments? [] 1 rest).map fun a => .postprocess a.others.head?
    | "init" => (arguments? [flagSpec "force"] 0 rest).map fun a => .init (a.hasOption "force")
    | name => if name == "--version" || "-V".toList.isPrefixOf name.toList then some .version
      else none

end Command

end OpenApiModels.CommandLine
