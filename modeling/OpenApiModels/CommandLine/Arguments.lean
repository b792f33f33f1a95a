import OpenApiModels.Text.Search

/-!
# Arguments

Options have a long name and perhaps a short one, and come in any order. An option may be given
once. Behind `--` there are no options.
-/

namespace OpenApiModels.CommandLine

open Text

structure OptionSpec where
  long : String
  short : Option Char := none
  /-- Whether a value follows. -/
  takesValue : Bool := false
deriving DecidableEq, Repr

/-- The options that were given, with their values, and the other arguments. -/
structure Arguments where
  options : List (String × String) := []
  others : List String := []
deriving DecidableEq, Repr

namespace Arguments

def hasOption (name : String) (a : Arguments) : Bool :=
  (a.options.lookup name).isSome

def value? (name : String) (a : Arguments) : Option String :=
  a.options.lookup name

/-- Adds an option, unless it was given before. -/
def addOption (name value : String) (a : Arguments) : Option Arguments :=
  if a.hasOption name then none else some { a with options := (name, value) :: a.options }

/-- Adds another argument, which may not be empty. -/
def addOther (text : String) (a : Arguments) : Option Arguments :=
  if text == "" then none else some { a with others := a.others ++ [text] }

/-! ### Reading -/

/-- What an argument looks like. -/
inductive Shape where
  | endOfOptions
  | long (name : List Char) (value : Option (List Char))
  | short (name : Char) (value : Option (List Char))
  | other

def shapeOf (text : String) : Shape :=
  match text.toList with
  | ['-', '-'] => .endOfOptions
  | '-' :: '-' :: cs =>
    match splitFirst? ['='] cs with
    | some (name, value) => .long name (some value)
    | none => .long cs none
  | '-' :: c :: '=' :: value => .short c (some value)
  | ['-', c] => .short c none
  | '-' :: c :: value => .short c (some value)
  | _ => .other

/-- Whether an argument can be the value of an option before it. -/
def isValue (text : String) : Bool :=
  match shapeOf text with
  | .other => text != ""
  | _ => false

/-- Gives an option its value, which may be the next argument. Yields what follows. -/
def readOption (spec : OptionSpec) (value : Option (List Char)) (rest : List String)
    (a : Arguments) : Option (Arguments × List String) :=
  match spec.takesValue, value, rest with
  | false, none, rest => (a.addOption spec.long "").map fun a => (a, rest)
  | false, some _, _ => none
  | true, some [], _ => none
  | true, some value, rest => (a.addOption spec.long (String.ofList value)).map fun a => (a, rest)
  | true, none, [] => none
  | true, none, next :: rest =>
    if isValue next then (a.addOption spec.long next).map fun a => (a, rest) else none

/-- Reads arguments. Nothing if they do not fit the options. -/
def read? (specs : List OptionSpec) (a : Arguments) (texts : List String) : Option Arguments :=
  match texts with
  | [] => some a
  | text :: rest =>
    let given (spec : Option OptionSpec) (value : Option (List Char)) : Option Arguments := do
      let spec ← spec
      let (a, after) ← readOption spec value rest a
      if after.length ≤ rest.length then read? specs a after else none
    match shapeOf text with
    | .endOfOptions => rest.foldlM (fun a text => a.addOther text) a
    | .long name value => given (specs.find? fun s => s.long == String.ofList name) value
    | .short name value => given (specs.find? fun s => s.short == some name) value
    | .other => (a.addOther text).bind fun a => read? specs a rest
termination_by texts.length

end Arguments

end OpenApiModels.CommandLine
