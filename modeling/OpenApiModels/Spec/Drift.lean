import OpenApiModels.Spec.Checksum

/-!
# Checksum drift

The stored checksums of a spec against those recomputed from its text. A check without a stored
checksum is neither passed nor failed.
-/

namespace OpenApiModels.Spec

structure VerifyOptions where
  failOnMismatch : Bool
  updateOnMismatch : Bool
  checkRaw : Bool
  checkProcessed : Bool
deriving DecidableEq, Repr

/-- Stored and current checksums, and whether they match where both were compared. -/
structure DriftReport where
  path : String
  stored : Option String × Option String
  current : ChecksumPair
  rawMatches : Option Bool
  processedMatches : Option Bool
  messages : List String
deriving DecidableEq, Repr

inductive DriftError where
  | mismatch (path details : String)
  | spec (e : Error)
deriving DecidableEq, Repr

def DriftError.message : DriftError → String
  | .mismatch path details =>
    s!"checksum drift detected in {path}\n{details}\n" ++
    "To resolve, either:\n" ++
    "  1. revert the spec to the vendored version, or\n" ++
    "  2. regenerate checksums with `specgen verify --update` (or `specgen process --stamp`)"
  | .spec e => e.message

/-- Whether an enabled check found what was stored. -/
def compareStored (enabled : Bool) (stored : Option String) (current : String) : Option Bool :=
  if enabled then stored.map (· == current) else none

def describeCheck (label : String) (enabled : Bool) (outcome : Option Bool) : String :=
  match enabled, outcome with
  | false, _ => s!"{label} checksum: skipped"
  | true, none => s!"{label} checksum: no stored checksum to compare"
  | true, some true => s!"{label} checksum: ok"
  | true, some false => s!"{label} checksum: MISMATCH"

namespace DriftReport

def hasMismatch (r : DriftReport) : Bool :=
  r.rawMatches == some false || r.processedMatches == some false

/-- Compares the checksums stored in a document with those of the text it was read from. -/
def compare (options : VerifyOptions) (path text : String) (doc : Document) : DriftReport :=
  let raw := (doc.extension? contentKey).orElse fun _ => doc.extension? checksumKey
  let processed := doc.extension? processedKey
  let current := checksumsOf text doc
  let rawMatches := compareStored options.checkRaw raw current.raw
  let processedMatches := compareStored options.checkProcessed processed current.processed
  { path, current, rawMatches, processedMatches
    stored := (raw, processed)
    messages := [describeCheck "raw" options.checkRaw rawMatches,
      describeCheck "processed" options.checkProcessed processedMatches] }

/-- A line for each check that failed. -/
def details (r : DriftReport) : String :=
  let line (label : String) (stored : Option String) (current : String) : String :=
    s!"  {label} stored " ++ stored.getD "-" ++ s!" / current {current}"
  "\n".intercalate
    ((if r.rawMatches == some false then
        [line "raw checksum:      " r.stored.1 r.current.raw] else []) ++
      if r.processedMatches == some false then
        [line "processed checksum:" r.stored.2 r.current.processed] else [])

end DriftReport

/-- What verification found, and the text to write if the checksums are to be updated. -/
structure Verification where
  report : DriftReport
  updated : Option String

/-- Verifies the text of the file at `path`. -/
def verify (options : VerifyOptions) (path text : String) : Except DriftError Verification :=
  match Document.parse path text with
  | .error e => .error (.spec e)
  | .ok doc =>
    let report := DriftReport.compare options path text doc
    if !report.hasMismatch then .ok ⟨report, none⟩
    else if options.updateOnMismatch then
      let (pair, stamped) := doc.stamp
      let note := s!"updated stored checksums in {path} " ++
        s!"(raw {pair.raw}, processed {pair.processed})"
      .ok ⟨{ report with messages := report.messages ++ [note] }, some stamped.text⟩
    else if options.failOnMismatch then .error (.mismatch path report.details)
    else .ok ⟨report, none⟩

end OpenApiModels.Spec
