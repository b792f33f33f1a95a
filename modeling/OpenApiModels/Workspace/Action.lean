import OpenApiModels.Logged
import OpenApiModels.Workspace.Basic

/-!
# Actions

An action reads and changes a workspace, gives warnings and may fail. What it wrote before it
failed stays.
-/

namespace OpenApiModels

abbrev Action (ε : Type) := ExceptT ε (StateT Workspace Logged)

namespace Action

variable {ε ε' α : Type}

/-- The result of an action, the workspace after it and the warnings on the way. -/
def outcome (a : Action ε α) (w : Workspace) : Logged (Except ε α × Workspace) :=
  StateT.run (ExceptT.run a) w

def logged (x : Logged α) : Action ε α :=
  ExceptT.lift (StateT.lift x)

def ofExcept (x : Except ε α) : Action ε α :=
  ExceptT.mk (pure x)

/-- Looks at the workspace. -/
def look (f : Workspace → α) : Action ε α :=
  ExceptT.lift (f <$> StateT.get)

/-- Reads a text file. -/
def readText (path : String) (onError : FileError → ε) : Action ε String := do
  ofExcept ((← look (·.readText path)).mapError onError)

/-- Changes the workspace, unless the change fails. -/
def update (f : Workspace → Except FileError Workspace) (onError : FileError → ε) :
    Action ε Unit := do
  match ← look f with
  | .ok w => ExceptT.lift (StateT.set w)
  | .error e => ofExcept (.error (onError e))

def writeText (path text : String) (onError : FileError → ε) : Action ε Unit :=
  update (Workspace.write path (.text text)) onError

def makeDirectories (path : String) (onError : FileError → ε) : Action ε Unit :=
  update (Workspace.makeDirectories path) onError

/-- The same action with other errors. -/
def mapError (f : ε → ε') (a : Action ε α) : Action ε' α :=
  ExceptT.adapt f a

/-- The same action with its failure as a value. -/
def attempt (a : Action ε α) : Action ε' (Except ε α) :=
  ExceptT.lift (ExceptT.run a)

end Action

end OpenApiModels
