import OpenApiModels.Adapter
import OpenApiModels.Spec.Drift
import OpenApiModels.Workspace.Action

/-!
# Spec files

The operations on specs as actions on the files that hold them.
-/

namespace OpenApiModels.Spec

/-- Reads a spec: its text and its document. -/
def readFile (path : String) : Action Error (String × Document) := do
  let text ← Action.readText path fun e => .unreadable path e.message
  let doc ← Action.ofExcept (Document.parse path text)
  pure (text, doc)

def writeFile (path text : String) : Action Error Unit :=
  Action.writeText path text fun e => .unwritable path e.message

/-! ### Checksums -/

/-- The canonical text of a spec and its checksum. -/
def processContent (path : String) : Action Error (String × String) := do
  let (_, doc) ← readFile path
  pure (doc.canonical, doc.processedChecksum)

/-- The checksum from before that a spec held, and the one stored now. -/
structure Processed where
  prior : Option String
  checksum : String
deriving DecidableEq, Repr

/-- Stores the processed checksum in a spec. -/
def processFile (path : String) : Action Error Processed := do
  let (_, doc) ← readFile path
  writeFile path doc.process.text
  pure ⟨doc.extension? checksumKey, doc.processedChecksum⟩

/-- Stores both checksums in a spec. -/
def stampFile (path : String) : Action Error ChecksumPair := do
  let (_, doc) ← readFile path
  let (pair, stamped) := doc.stamp
  writeFile path stamped.text
  pure pair

def currentChecksums (path : String) : Action Error ChecksumPair := do
  let (text, doc) ← readFile path
  pure (checksumsOf text doc)

/-- Verifies a spec, and writes it again where its checksums are to be updated. -/
def verifyFile (options : VerifyOptions) (path : String) : Action DriftError DriftReport := do
  let text ← Action.readText path fun e => .spec (.unreadable path e.message)
  let found ← Action.ofExcept (verify options path text)
  match found.updated with
  | none => pure found.report
  | some new => do
    (writeFile path new).mapError .spec
    pure found.report

/-! ### Versions -/

def detectVersion (path : String) : Action Error Version := do
  let (_, doc) ← readFile path
  pure (Version.ofDocument doc.toJson)

/-- Why no adapter was picked for a spec. -/
inductive SelectionError where
  | unsupported (e : UnsupportedVersion)
  | spec (e : Error)

def SelectionError.message : SelectionError → String
  | .unsupported e => e.message
  | .spec e => e.message

/-- Picks an adapter for the version that a spec declares. -/
def detectAdapter (registry : Registry) (mode : FallbackMode) (path : String) :
    Action SelectionError Decision := do
  let version ← (detectVersion path).mapError .spec
  match select registry mode version with
  | .ok decision => Action.logged decision
  | .error e => Action.ofExcept (.error (.unsupported e))

end OpenApiModels.Spec
