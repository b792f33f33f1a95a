import OpenApiModels.Proofs.Json.Rereading
import OpenApiModels.Proofs.Spec.CanonicalMembers
import OpenApiModels.Proofs.Workspace.ReadWrite
import OpenApiModels.Spec.Files

/-!
# Storing the processed checksum

Processing, stamping and updating store the checksum of the canonical form of the spec that was
read. `settled_iff` says when the spec that was written still has that checksum: when the checksum
members leave the canonical order of the others as it was.
-/

namespace OpenApiModels

namespace Spec

open Keyed

namespace Document

theorem parse_eq_ok {path text : String} {doc : Document} (h : parse path text = .ok doc) :
    Json.read? text = some (.object doc.members) := by
  unfold parse at h
  split at h
  · cases h
  · rename_i ms read
    obtain rfl := Except.ok.inj h
    exact read
  · cases h

theorem distinct_of_parse {path text : String} {doc : Document}
    (h : parse path text = .ok doc) : Distinct doc.members :=
  Json.nodup_keys_of_read? (parse_eq_ok h)

theorem read?_text {doc : Document} (h : Json.Readable Json.maxDepth doc.toJson) :
    Json.read? doc.text = some doc.toJson :=
  Json.read?_pretty h fun c hc => by
    rw [List.mem_singleton.1 hc]
    rfl

theorem parse_of_read? {path text : String} {doc : Document}
    (h : Json.read? text = some doc.toJson) : parse path text = .ok doc := by
  rw [parse, h]
  rfl

/-! ### What is stored -/

theorem extension?_of_lookup {key value : String} {doc : Document}
    (h : doc.members.lookup key = some (.string value)) : doc.extension? key = some value := by
  simp [extension?, toJson, Json.string?, Json.get?, h, Json.asString?]

/-- The document stores a checksum of its canonical form. -/
def Stores (checksum : String) (doc : Document) : Prop :=
  doc.members.lookup processedKey = some (.string checksum)

theorem stores_process (doc : Document) : doc.process.Stores doc.processedChecksum :=
  lookup_setExtensions List.mem_cons_self (by simp) doc

theorem process_eq_self {doc : Document} (h : doc.Stores doc.processedChecksum) :
    doc.process = doc :=
  setExtensions_eq_self fun e he => by
    obtain rfl := List.mem_singleton.1 he
    exact h

/-- What is stamped before the checksum of the text is known. -/
def prepared (doc : Document) : Document :=
  doc.setExtensions [(contentKey, ""), (processedKey, doc.processedChecksum)]

theorem stamp_eq (doc : Document) : doc.stamp =
    (⟨rawChecksum doc.prepared.text, doc.processedChecksum⟩,
      doc.prepared.setExtensions [(contentKey, rawChecksum doc.prepared.text)]) := rfl

theorem contentKey_ne : contentKey ≠ processedKey := by decide

theorem lookup_prepared (doc : Document) :
    doc.prepared.members.lookup contentKey = some (.string "") ∧
      doc.prepared.Stores doc.processedChecksum := by
  have keys : [contentKey, processedKey].Nodup := by decide
  exact ⟨lookup_setExtensions (by simp) (by exact keys) doc,
    lookup_setExtensions (by simp) (by exact keys) doc⟩

theorem stores_stamp (doc : Document) : doc.stamp.2.Stores doc.processedChecksum := by
  rw [stamp_eq, Stores, lookup_setExtensions_of_ne]
  · exact doc.lookup_prepared.2
  · simpa using contentKey_ne.symm

/-- Stamping again prepares what was prepared before. -/
theorem prepared_stamp {doc : Document}
    (same : doc.stamp.2.processedChecksum = doc.processedChecksum) :
    doc.stamp.2.prepared = doc.prepared := by
  obtain ⟨content, processed⟩ := doc.lookup_prepared
  have stamped : doc.stamp.2.members =
      put contentKey (.string (rawChecksum doc.prepared.text)) doc.prepared.members := by
    rw [stamp_eq, members_setExtensions_of_hasKey (by simpa using hasKey_of_lookup content)]
    rfl
  have present : ∀ e ∈ [(contentKey, ""), (processedKey, doc.processedChecksum)],
      hasKey e.1 doc.stamp.2.members = true := by
    simp [stamped, hasKey_put, hasKey_of_lookup processed]
  have members : doc.stamp.2.prepared.members = doc.prepared.members := by
    rw [prepared, same, members_setExtensions_of_hasKey present, stamped, putStrings_cons,
      putStrings_cons, put_put, put_eq_self content, put_eq_self processed]
    rfl
  exact congrArg Document.mk members

theorem stamp_stamp {doc : Document}
    (same : doc.stamp.2.processedChecksum = doc.processedChecksum) :
    doc.stamp.2.stamp = doc.stamp := by
  rw [stamp_eq, prepared_stamp same, same]
  rfl

/-! ### Canonical texts -/

theorem canonical_eq_iff {doc doc' : Document} (h : Distinct doc.members)
    (agree : Agree doc doc') :
    doc'.canonical = doc.canonical ↔ doc'.canonicalMembers = doc.canonicalMembers := by
  have perm := canonicalMembers_perm_agree h agree
  refine ⟨fun same => Json.pretty_object_inj perm.length_eq (fun m hm m' hm' => ?_) same,
    fun same => by rw [canonical, canonical, same]⟩
  exact List.inj_on_of_nodup_map (canonicalMembers_distinct h) (perm.mem_iff.1 hm) hm'

end Document

/-! ### Operations on files -/

section Files

variable {path text : String} {doc : Document} {w w' : Workspace}

theorem outcome_readFile (read : w.readText path = .ok text)
    (parsed : Document.parse path text = .ok doc) :
    (readFile path).outcome w = pure (.ok (text, doc), w) := by
  rw [readFile, Action.outcome_bind (Action.outcome_readText read _), parsed]
  rfl

theorem outcome_writeFile (written : w.write path (.text text) = .ok w') :
    (writeFile path text).outcome w = pure (.ok (), w') :=
  Action.outcome_writeText written _

theorem outcome_currentChecksums (read : w.readText path = .ok text)
    (parsed : Document.parse path text = .ok doc) :
    (currentChecksums path).outcome w = pure (.ok (checksumsOf text doc), w) := by
  rw [currentChecksums, Action.outcome_bind (outcome_readFile read parsed)]
  rfl

theorem outcome_processFile (read : w.readText path = .ok text)
    (parsed : Document.parse path text = .ok doc)
    (written : w.write path (.text doc.process.text) = .ok w') :
    (processFile path).outcome w =
      pure (.ok ⟨doc.extension? checksumKey, doc.processedChecksum⟩, w') := by
  rw [processFile, Action.outcome_bind (outcome_readFile read parsed)]
  dsimp only
  rw [Action.outcome_bind (outcome_writeFile written)]
  rfl

theorem outcome_stampFile (read : w.readText path = .ok text)
    (parsed : Document.parse path text = .ok doc)
    (written : w.write path (.text doc.stamp.2.text) = .ok w') :
    (stampFile path).outcome w = pure (.ok doc.stamp.1, w') := by
  rw [stampFile, Action.outcome_bind (outcome_readFile read parsed)]
  dsimp only
  rw [Action.outcome_bind (outcome_writeFile written)]
  rfl

theorem verify_eq (options : VerifyOptions) (parsed : Document.parse path text = .ok doc) :
    verify options path text =
      let report := DriftReport.compare options path text doc
      if !report.hasMismatch then .ok ⟨report, none⟩
      else if options.updateOnMismatch then
        .ok ⟨{ report with messages := report.messages ++
          [s!"updated stored checksums in {path} " ++
            s!"(raw {doc.stamp.1.raw}, processed {doc.stamp.1.processed})"] },
          some doc.stamp.2.text⟩
      else if options.failOnMismatch then .error (.mismatch path report.details)
      else .ok ⟨report, none⟩ := by
  simp only [verify, parsed]

theorem outcome_verifyFile {options : VerifyOptions} {report : DriftReport}
    (read : w.readText path = .ok text) (verified : verify options path text = .ok ⟨report, none⟩) :
    (verifyFile options path).outcome w = pure (.ok report, w) := by
  rw [verifyFile, Action.outcome_bind (Action.outcome_readText read _), verified]
  rfl

theorem outcome_verifyFile_error {options : VerifyOptions} {e : DriftError}
    (read : w.readText path = .ok text) (verified : verify options path text = .error e) :
    (verifyFile options path).outcome w = pure (.error e, w) := by
  rw [verifyFile, Action.outcome_bind (Action.outcome_readText read _), verified]
  rfl

theorem verify_of_verifyFile {options : VerifyOptions} {report : DriftReport}
    (read : w.readText path = .ok text)
    (h : ((verifyFile options path).outcome w).value = (.ok report, w')) :
    ∃ found, verify options path text = .ok found ∧ found.report = report := by
  rw [verifyFile, Action.outcome_bind (Action.outcome_readText read _)] at h
  cases verified : verify options path text with
  | error e =>
    rw [verified] at h
    cases h
  | ok found =>
    refine ⟨found, rfl, ?_⟩
    rw [verified, Action.outcome_bind (Action.outcome_ofExcept found w)] at h
    obtain ⟨found, updated⟩ := found
    cases updated with
    | none => exact Except.ok.inj (Prod.mk.inj h).1
    | some new =>
      dsimp only at h
      cases written : w.write path (.text new) with
      | ok w₂ =>
        rw [Action.outcome_bind (Action.outcome_mapError (outcome_writeFile written) _)] at h
        exact Except.ok.inj (Prod.mk.inj h).1
      | error e =>
        rw [writeFile, Action.outcome_bind_error
          (Action.outcome_mapError (Action.outcome_writeText_error written _) _)] at h
        cases (Prod.mk.inj h).1

theorem outcome_verifyFile_update {options : VerifyOptions} {report : DriftReport} {new : String}
    (read : w.readText path = .ok text)
    (verified : verify options path text = .ok ⟨report, some new⟩)
    (written : w.write path (.text new) = .ok w') :
    (verifyFile options path).outcome w = pure (.ok report, w') := by
  rw [verifyFile, Action.outcome_bind (Action.outcome_readText read _), verified,
    Action.outcome_bind (Action.outcome_ofExcept _ w)]
  dsimp only
  rw [Action.outcome_bind (Action.outcome_mapError (outcome_writeFile written) _)]
  rfl

end Files

/-- An operation that stores a processed checksum in a spec. -/
inductive Restamping where
  | process
  | stamp
  | update (options : VerifyOptions)

namespace Restamping

/-- Performs the operation on a file and yields the processed checksum it reports. -/
def perform (path : String) : Restamping → Action DriftError String
  | .process => (fun found => found.checksum) <$> (processFile path).mapError .spec
  | .stamp => (fun pair => pair.processed) <$> (stampFile path).mapError .spec
  | .update options => (fun report => report.current.processed) <$> verifyFile options path

/-- Whether the operation writes the file: updating does where a check fails. -/
def Writes (path text : String) (doc : Document) : Restamping → Prop
  | .update options => options.updateOnMismatch = true ∧
      (DriftReport.compare options path text doc).hasMismatch = true
  | _ => True

/-- What is written for a document. -/
def document (doc : Document) : Restamping → Document
  | .process => doc.process
  | _ => doc.stamp.2

def keepsOrder (doc : Document) : Restamping → Bool
  | .process => doc.processKeepsOrder
  | _ => doc.stampKeepsOrder

/-- What should find nothing more to do behind the operation. -/
def repeats : Restamping → List Restamping
  | .process => [.process]
  | _ => [.process, .stamp]

theorem agree_document (op : Restamping) {doc : Document} (h : Distinct doc.members) :
    doc.Agree (op.document doc) := by
  cases op with
  | process => exact Document.agree_process h
  | stamp | update => exact Document.agree_stamp h

theorem canonicalMembers_document_iff (op : Restamping) {doc : Document}
    (h : Distinct doc.members) :
    (op.document doc).canonicalMembers = doc.canonicalMembers ↔ op.keepsOrder doc = true := by
  cases op with
  | process => exact Document.canonicalMembers_process_iff h
  | stamp | update => exact Document.canonicalMembers_stamp_iff h

theorem stores_document (op : Restamping) (doc : Document) :
    (op.document doc).Stores doc.processedChecksum := by
  cases op with
  | process => exact doc.stores_process
  | stamp | update => exact doc.stores_stamp

/-- The canonical texts before and behind the operation differ, but their digests do not. -/
def Collides (op : Restamping) (doc : Document) : Prop :=
  (op.document doc).canonical ≠ doc.canonical ∧
    Digest.ofText (op.document doc).canonical = Digest.ofText doc.canonical

theorem processedChecksum_document_iff (op : Restamping) {doc : Document}
    (h : Distinct doc.members) :
    (op.document doc).processedChecksum = doc.processedChecksum ↔
      op.keepsOrder doc = true ∨ op.Collides doc := by
  rw [← canonicalMembers_document_iff op h,
    ← Document.canonical_eq_iff h (op.agree_document h)]
  constructor
  · intro same
    by_cases text : (op.document doc).canonical = doc.canonical
    · exact .inl text
    · exact .inr ⟨text, same⟩
  · rintro (text | ⟨-, same⟩)
    · exact congrArg Digest.ofText text
    · exact same

theorem outcome_perform (op : Restamping) {path text : String} {doc : Document}
    {w w' : Workspace} (read : w.readText path = .ok text)
    (parsed : Document.parse path text = .ok doc) (writes : op.Writes path text doc)
    (written : w.write path (.text (op.document doc).text) = .ok w') :
    (op.perform path).outcome w = pure (.ok doc.processedChecksum, w') := by
  cases op with
  | process =>
    exact Action.outcome_map (Action.outcome_mapError (outcome_processFile read parsed written) _) _
  | stamp =>
    exact Action.outcome_map (Action.outcome_mapError (outcome_stampFile read parsed written) _) _
  | update options =>
    obtain ⟨update, mismatch⟩ := writes
    have verified := verify_eq options parsed
    simp only [mismatch, update, Bool.not_true, Bool.false_eq_true, if_false, if_true] at verified
    exact Action.outcome_map (outcome_verifyFile_update read verified written) _

/-! ### Nothing more to do -/

/-- The spec at `path` has the processed checksum it stores: it is found again, verification
reports it, and what `repeats` names reports it and leaves the workspace as it is. -/
structure Settled (op : Restamping) (path checksum : String) (w : Workspace) : Prop where
  current : ∃ pair, (currentChecksums path).outcome w = pure (.ok pair, w) ∧
    pair.processed = checksum
  reported : ∀ options : VerifyOptions, options.checkProcessed = true →
    ∀ report w', ((verifyFile options path).outcome w).value = (.ok report, w') →
      report.processedMatches = some true
  verified : ∀ options : VerifyOptions, options.checkProcessed = true → options.checkRaw = false →
    ∃ report, (verifyFile options path).outcome w = pure (.ok report, w)
  again : ∀ next ∈ op.repeats, (next.perform path).outcome w = pure (.ok checksum, w)

theorem processedMatches_eq {path text checksum : String} {doc : Document}
    {options : VerifyOptions} (checked : options.checkProcessed = true)
    (stores : doc.Stores checksum) (same : doc.processedChecksum = checksum) :
    (DriftReport.compare options path text doc).processedMatches = some true := by
  simp [DriftReport.compare, compareStored, checked, Document.extension?_of_lookup stores,
    checksumsOf, same]

theorem verify_report {options : VerifyOptions} {path text : String} {doc : Document}
    {found : Verification} (parsed : Document.parse path text = .ok doc)
    (h : verify options path text = .ok found) :
    ∃ messages, found.report =
      { DriftReport.compare options path text doc with messages } := by
  rw [verify_eq options parsed] at h
  dsimp only at h
  split at h
  · exact ⟨_, by rw [← Except.ok.inj h]⟩
  split at h
  · exact ⟨_, by rw [← Except.ok.inj h]⟩
  split at h
  · cases h
  · exact ⟨_, by rw [← Except.ok.inj h]⟩

/-- A spec that stores its checksum is settled. -/
theorem settled_of_stores (op : Restamping) {path text checksum : String} {doc : Document}
    {w : Workspace} (read : w.readText path = .ok text)
    (parsed : Document.parse path text = .ok doc) (stores : doc.Stores checksum)
    (same : doc.processedChecksum = checksum)
    (fixed : ∀ next ∈ op.repeats, next.document doc = doc ∧ next.Writes path text doc)
    (written : w.write path (.text doc.text) = .ok w) : op.Settled path checksum w where
  current := ⟨_, outcome_currentChecksums read parsed, same⟩
  reported := by
    intro options checked report w' h
    obtain ⟨found, verified, rfl⟩ := verify_of_verifyFile read h
    obtain ⟨messages, reported⟩ := verify_report parsed verified
    rw [reported, processedMatches_eq checked stores same]
  verified := by
    intro options checked unchecked
    refine ⟨_, outcome_verifyFile read ((verify_eq options parsed).trans (if_pos ?_))⟩
    have raw : (DriftReport.compare options path text doc).rawMatches = none := by
      simp [DriftReport.compare, compareStored, unchecked]
    rw [DriftReport.hasMismatch, raw, processedMatches_eq checked stores same]
    rfl
  again := by
    intro next hnext
    obtain ⟨document, writes⟩ := fixed next hnext
    rw [← same]
    exact outcome_perform next read parsed writes (by rw [document]; exact written)

theorem fixed_document (op : Restamping) {path text : String} {doc : Document}
    (same : (op.document doc).processedChecksum = doc.processedChecksum) :
    ∀ next ∈ op.repeats, next.document (op.document doc) = op.document doc ∧
      next.Writes path text (op.document doc) := by
  have process : (op.document doc).process = op.document doc := by
    refine Document.process_eq_self ?_
    rw [same]
    exact op.stores_document doc
  cases op with
  | process =>
    intro next hnext
    obtain rfl := List.mem_singleton.1 hnext
    exact ⟨process, trivial⟩
  | stamp | update =>
    intro next hnext
    simp only [repeats, List.mem_cons, List.not_mem_nil, or_false] at hnext
    rcases hnext with rfl | rfl
    · exact ⟨process, trivial⟩
    · exact ⟨congrArg Prod.snd (Document.stamp_stamp same), trivial⟩

/-- An operation that stores a processed checksum leaves a settled spec just if the checksum
members keep the canonical order of the others, unless two canonical texts share their digest. -/
theorem settled_iff (op : Restamping) {path text : String} {doc : Document} {w : Workspace}
    (read : w.readText path = .ok text) (parsed : Document.parse path text = .ok doc)
    (writes : op.Writes path text doc)
    (reread : Json.read? (op.document doc).text = some (op.document doc).toJson) :
    ∃ w', (op.perform path).outcome w = pure (.ok doc.processedChecksum, w') ∧
      w'.readText path = .ok (op.document doc).text ∧
      (op.document doc).extension? processedKey = some doc.processedChecksum ∧
      (op.Settled path doc.processedChecksum w' ↔
        op.keepsOrder doc = true ∨ op.Collides doc) := by
  obtain ⟨w', written, read', again⟩ := Workspace.write_over read (op.document doc).text
  have stores := op.stores_document doc
  have parsed' : Document.parse path (op.document doc).text = .ok (op.document doc) :=
    Document.parse_of_read? reread
  refine ⟨w', outcome_perform op read parsed writes written, read',
    Document.extension?_of_lookup stores, ?_⟩
  rw [← processedChecksum_document_iff op (Document.distinct_of_parse parsed)]
  constructor
  · intro settled
    obtain ⟨pair, current, same⟩ := settled.current
    rw [outcome_currentChecksums read' parsed'] at current
    cases congrArg (fun r => r.value.1) current
    exact same
  · intro same
    exact settled_of_stores op read' parsed' stores same (op.fixed_document same) again

/-! ### Two members behind the checksum -/

/-- A spec with two members whose keys lie behind those of its checksums. -/
def grouped : Document :=
  ⟨[("openapi", .string "3.0.3"), ("x-tagGroups", .array []), ("x-topics", .array [])]⟩

def groupedTree : Workspace :=
  ⟨[(["openapi.json"], .file ⟨.text grouped.text, false⟩)]⟩

theorem readText_grouped : groupedTree.readText "openapi.json" = .ok grouped.text := rfl

theorem parse_grouped (path : String) : Document.parse path grouped.text = .ok grouped := by
  refine Document.parse_of_read? (Document.read?_text ⟨by decide, by decide, ?_⟩)
  exact ⟨trivial, ⟨by decide, trivial⟩, ⟨by decide, trivial⟩, trivial⟩

theorem read_process_grouped :
    Json.read? grouped.process.text = some grouped.process.toJson := by
  refine Document.read?_text ⟨by decide, ?_, ?_⟩
  · have keys : (processedKey :: grouped.members.map (·.1)).Nodup := by decide
    exact keys
  · exact ⟨trivial, trivial, ⟨by decide, trivial⟩, ⟨by decide, trivial⟩, trivial⟩

theorem settled_iff_grouped :
    ∃ w', (Restamping.process.perform "openapi.json").outcome groupedTree =
        pure (.ok grouped.processedChecksum, w') ∧
      w'.readText "openapi.json" = .ok grouped.process.text ∧
      grouped.process.extension? processedKey = some grouped.processedChecksum ∧
      (Restamping.process.Settled "openapi.json" grouped.processedChecksum w' ↔
        Restamping.process.keepsOrder grouped = true ∨ Restamping.process.Collides grouped) :=
  settled_iff .process readText_grouped (parse_grouped _) trivial read_process_grouped

theorem ordered_grouped : grouped.ordered = grouped.members := by
  refine Document.ordered_eq_of_perm ?_ (.refl _) (by decide)
  have keys : (grouped.members.map (·.1)).Nodup := by decide
  exact keys

theorem ordered_process_grouped : grouped.process.ordered =
    [("openapi", .string "3.0.3"), (processedKey, .string grouped.processedChecksum),
      ("x-tagGroups", .array []), ("x-topics", .array [])] := by
  refine Document.ordered_eq_of_perm ?_ (.swap ..) ?_
  · have keys : (processedKey :: grouped.members.map (·.1)).Nodup := by decide
    exact keys
  · simp [Members.Ascending, Json.keyLe]
    decide

/-- The stored checksum is not that of the spec that was written: its last member took the place
of the checksum. -/
theorem process_unsettled :
    ∃ w' raw, (processFile "openapi.json").outcome groupedTree = pure (.ok ⟨none,
        "c3474deea6f7ff51dbbaaf6d1e7467a68d9c91b35a219e565974a571ffad3f03"⟩, w') ∧
      (currentChecksums "openapi.json").outcome w' = pure (.ok ⟨raw,
        "0b99f0909084bf44282a5f39824eda725a3bebb1e3429b5e6d3d6537e0fbfda0"⟩, w') := by
  obtain ⟨w', written, read', -⟩ := Workspace.write_over readText_grouped grouped.process.text
  have before : grouped.canonicalMembers = grouped.members := by
    rw [Document.canonicalMembers_eq_swapErase, ordered_grouped]
    rfl
  have checksum : grouped.processedChecksum =
      "c3474deea6f7ff51dbbaaf6d1e7467a68d9c91b35a219e565974a571ffad3f03" := by
    rw [Document.processedChecksum, Document.canonical, before]
    decide +kernel
  have behind : grouped.process.canonicalMembers =
      [("openapi", .string "3.0.3"), ("x-topics", .array []), ("x-tagGroups", .array [])] := by
    rw [Document.canonicalMembers_eq_swapErase, ordered_process_grouped]
    rfl
  have again : grouped.process.processedChecksum =
      "0b99f0909084bf44282a5f39824eda725a3bebb1e3429b5e6d3d6537e0fbfda0" := by
    rw [Document.processedChecksum, Document.canonical, behind]
    decide +kernel
  have prior : grouped.extension? checksumKey = none := by rfl
  refine ⟨w', rawChecksum grouped.process.text, ?_, ?_⟩
  · rw [outcome_processFile readText_grouped (parse_grouped _) written, checksum, prior]
  · rw [outcome_currentChecksums read' (Document.parse_of_read? read_process_grouped),
      checksumsOf, again]

end Restamping

end Spec

end OpenApiModels
