import OpenApiModels.Proofs.Spec.Restamping

/-!
# Verifying spec files

`verifyFile_verifies` says what verifying a file does under all options: which of them write it,
which of them fail, and that each check is made without regard to the other.
-/

namespace OpenApiModels

namespace Spec

/-! ### Drift -/

namespace Document

/-- The raw checksum that is compared: the string in the member for it, and the string in the
older member where the first holds none. -/
def StoresRaw (checksum : String) (doc : Document) : Prop :=
  doc.members.lookup contentKey = some (.string checksum) ∨
    (∀ s, doc.members.lookup contentKey ≠ some (.string s)) ∧
      doc.members.lookup checksumKey = some (.string checksum)

/-- An enabled check finds a checksum other than the one recomputed from the text. -/
def Drifts (options : VerifyOptions) (text : String) (doc : Document) : Prop :=
  (options.checkRaw = true ∧ ∃ stored, doc.StoresRaw stored ∧ stored ≠ rawChecksum text) ∨
    options.checkProcessed = true ∧ ∃ stored, doc.Stores stored ∧ stored ≠ doc.processedChecksum

theorem extension?_eq_some {key value : String} {doc : Document} :
    doc.extension? key = some value ↔ doc.members.lookup key = some (.string value) := by
  refine ⟨fun found => ?_, extension?_of_lookup⟩
  simp only [extension?, toJson, Json.string?, Json.get?, Option.bind_eq_some_iff] at found
  obtain ⟨member, held, asString⟩ := found
  cases member <;> simp [Json.asString?] at asString
  rw [held, asString]

theorem storedRaw_eq_some {doc : Document} {checksum : String} :
    ((doc.extension? contentKey).orElse fun _ => doc.extension? checksumKey) = some checksum ↔
      doc.StoresRaw checksum := by
  simp only [StoresRaw, ne_eq, ← extension?_eq_some]
  cases doc.extension? contentKey <;> simp

end Document

theorem compareStored_eq_some_false {enabled : Bool} {stored : Option String} {current : String} :
    compareStored enabled stored current = some false ↔
      enabled = true ∧ ∃ checksum, stored = some checksum ∧ checksum ≠ current := by
  cases enabled <;> cases stored <;> simp [compareStored]

/-- A report has a mismatch just if the document has drifted. -/
theorem hasMismatch_compare {options : VerifyOptions} {path text : String} {doc : Document} :
    (DriftReport.compare options path text doc).hasMismatch = true ↔
      doc.Drifts options text := by
  simp only [DriftReport.hasMismatch, DriftReport.compare, Bool.or_eq_true, beq_iff_eq,
    compareStored_eq_some_false, Document.storedRaw_eq_some, Document.extension?_eq_some]
  rfl

/-! ### Checks on their own -/

/-- The report in which only the enabled checks were made. -/
def DriftReport.enabled (options : VerifyOptions) (report : DriftReport) : DriftReport :=
  { report with
    rawMatches := if options.checkRaw then report.rawMatches else none
    processedMatches := if options.checkProcessed then report.processedMatches else none }

/-- What both checks find. -/
def finding (path text : String) (doc : Document) : DriftReport :=
  DriftReport.compare ⟨false, false, true, true⟩ path text doc

theorem compare_eq (options : VerifyOptions) (path text : String) (doc : Document) :
    ∃ messages, DriftReport.compare options path text doc =
      { (finding path text doc).enabled options with messages } := by
  obtain ⟨failing, updating, checkRaw, checkProcessed⟩ := options
  cases checkRaw <;> cases checkProcessed <;> exact ⟨_, rfl⟩

theorem details_compare (options : VerifyOptions) (path text : String) (doc : Document) :
    (DriftReport.compare options path text doc).details =
      ((finding path text doc).enabled options).details := by
  obtain ⟨messages, compared⟩ := compare_eq options path text doc
  rw [compared]
  rfl

/-! ### Verifying a file -/

/-- The spec at `path` can be read and has drifted. -/
def Drifted (options : VerifyOptions) (path : String) (w : Workspace) : Prop :=
  ∃ text doc, w.readText path = .ok text ∧ Document.parse path text = .ok doc ∧
    doc.Drifts options text

/-- What comes of verifying the spec at `path` when both checks would find `found`. -/
structure Verifies (path : String) (w : Workspace) (found : DriftReport)
    (options : VerifyOptions) (out : Except DriftError DriftReport × Workspace) : Prop where
  /-- Only an update of a spec that drifted changes anything. -/
  kept : ¬ (options.updateOnMismatch = true ∧ Drifted options path w) → out.2 = w
  /-- The update succeeds, and stores both checksums. -/
  updated : options.updateOnMismatch = true → Drifted options path w →
    (∃ report, out.1 = .ok report) ∧ ∃ text doc, w.readText path = .ok text ∧
      Document.parse path text = .ok doc ∧ w.write path (.text doc.stamp.2.text) = .ok out.2
  mismatch : (∃ named details, out.1 = .error (.mismatch named details)) ↔
    Drifted options path w ∧ options.updateOnMismatch = false ∧ options.failOnMismatch = true
  /-- A check that is not made leaves the other and all checksums as they are. -/
  reported : ∀ report, out.1 = .ok report →
    ∃ messages, report = { found.enabled options with messages }
  detailed : ∀ named details, out.1 = .error (.mismatch named details) →
    named = path ∧ details = (found.enabled options).details

variable {path text : String} {doc : Document} {w w' : Workspace} {options : VerifyOptions}

theorem drifted_iff (read : w.readText path = .ok text)
    (parsed : Document.parse path text = .ok doc) :
    Drifted options path w ↔ doc.Drifts options text := by
  constructor
  · rintro ⟨text', doc', read', parsed', drifts⟩
    obtain rfl := Except.ok.inj (read.symm.trans read')
    obtain rfl := Except.ok.inj (parsed.symm.trans parsed')
    exact drifts
  · exact fun drifts => ⟨text, doc, read, parsed, drifts⟩

/-- A failure to read the spec is not a mismatch and changes nothing. -/
theorem verifies_of_error {found : DriftReport} {e : Error}
    (unread : ¬ Drifted options path w) : Verifies path w found options (.error (.spec e), w) where
  kept := fun _ => rfl
  updated := fun _ drifted => absurd drifted unread
  mismatch := ⟨fun ⟨_, _, h⟩ => (nomatch h), fun h => absurd h.1 unread⟩
  reported := fun _ h => nomatch h
  detailed := fun _ _ h => nomatch h

/-- A spec without drift is reported as it is. -/
theorem verifies_of_report {report : DriftReport}
    (compared : report = DriftReport.compare options path text doc)
    (calm : Drifted options path w →
      options.updateOnMismatch = false ∧ options.failOnMismatch = false) :
    Verifies path w (finding path text doc) options (.ok report, w) where
  kept := fun _ => rfl
  updated := fun update drifted => by simp [(calm drifted).1] at update
  mismatch := ⟨fun ⟨_, _, h⟩ => (nomatch h), fun ⟨drifted, _, failing⟩ => by
    simp [(calm drifted).2] at failing⟩
  reported := fun _ h => by
    obtain rfl := Except.ok.inj h
    rw [compared]
    exact compare_eq options path text doc
  detailed := fun _ _ h => nomatch h

theorem verifies_of_parse (read : w.readText path = .ok text)
    (parsed : Document.parse path text = .ok doc) (options : VerifyOptions) :
    Verifies path w (finding path text doc) options
      ((verifyFile options path).outcome w).value := by
  have verified := verify_eq options parsed
  have mismatch : (DriftReport.compare options path text doc).hasMismatch = true ↔
      Drifted options path w := hasMismatch_compare.trans (drifted_iff read parsed).symm
  dsimp only at verified
  split at verified
  · rename_i matching
    rw [outcome_verifyFile read verified]
    refine verifies_of_report rfl fun drifted => ?_
    simp [mismatch.2 drifted] at matching
  rename_i differing
  have drifted : Drifted options path w := mismatch.1 (by simpa using differing)
  split at verified
  · rename_i update
    obtain ⟨w', written, -⟩ := Workspace.write_over read doc.stamp.2.text
    rw [outcome_verifyFile_update read verified written]
    exact
      { kept := fun h => absurd ⟨update, drifted⟩ h
        updated := fun _ _ => ⟨⟨_, rfl⟩, text, doc, read, parsed, written⟩
        mismatch := ⟨fun ⟨_, _, h⟩ => (nomatch h), fun ⟨_, off, _⟩ => by simp [off] at update⟩
        reported := fun report h => by
          obtain rfl := Except.ok.inj h
          obtain ⟨messages, compared⟩ := compare_eq options path text doc
          exact ⟨_, by rw [compared]⟩
        detailed := fun _ _ h => nomatch h }
  rename_i update
  split at verified
  · rename_i failing
    rw [outcome_verifyFile_error read verified]
    exact
      { kept := fun _ => rfl
        updated := fun h _ => absurd h update
        mismatch := ⟨fun _ => ⟨drifted, by simpa using update, failing⟩, fun _ => ⟨_, _, rfl⟩⟩
        reported := fun _ h => nomatch h
        detailed := fun named details h => by
          cases h
          exact ⟨rfl, details_compare options path text doc⟩ }
  · rename_i failing
    rw [outcome_verifyFile read verified]
    exact verifies_of_report rfl fun _ => ⟨by simpa using update, by simpa using failing⟩

/-- Verifying a file writes it just where an enabled check fails and an update is asked for, and
reports the mismatch as an error just where none is asked for and failing is. Whether one check
is made changes neither the verdict of the other nor any checksum. -/
theorem verifyFile_verifies (path : String) (w : Workspace) :
    ∃ found : DriftReport, ∀ options,
      Verifies path w found options ((verifyFile options path).outcome w).value := by
  have nothing : DriftReport := ⟨path, (none, none), ⟨"", ""⟩, none, none, []⟩
  cases read : w.readText path with
  | error e =>
    refine ⟨nothing, fun options => ?_⟩
    rw [verifyFile, Action.outcome_bind_error (Action.outcome_readText_error read _)]
    refine verifies_of_error ?_
    rintro ⟨text, doc, read', -⟩
    rw [read] at read'
    cases read'
  | ok text =>
    cases parsed : Document.parse path text with
    | error e =>
      refine ⟨nothing, fun options => ?_⟩
      have verified : verify options path text = .error (.spec e) := by rw [verify, parsed]
      rw [outcome_verifyFile_error read verified]
      refine verifies_of_error ?_
      rintro ⟨text', doc, read', parsed', -⟩
      obtain rfl := Except.ok.inj (read.symm.trans read')
      rw [parsed] at parsed'
      cases parsed'
    | ok doc => exact ⟨finding path text doc, verifies_of_parse read parsed⟩

end Spec

end OpenApiModels
