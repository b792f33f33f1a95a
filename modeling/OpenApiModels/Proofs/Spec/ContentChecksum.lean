import OpenApiModels.Proofs.Spec.ChecksumLines
import OpenApiModels.Proofs.Spec.Restamping

/-!
# The checksum of the text

A stamped spec stores the checksum of its own text. Every operation on its file keeps that: what
operations store stands on lines that the checksum does not see. `content_checksum_run` follows a
stamp through any sequence of operations.
-/

namespace OpenApiModels.Spec

open Digest

namespace Document

theorem mem_putStrings {entries : List (String × String)} {ms : List (String × Json)}
    {m : String × Json} (h : m ∈ putStrings entries ms) :
    (∃ s, m.2 = .string s) ∨ m ∈ ms := by
  induction entries generalizing ms with
  | nil => exact .inr h
  | cons e entries ih =>
    rw [putStrings_cons] at h
    rcases ih h with text | old
    · exact .inl text
    · exact (Keyed.mem_put old).imp_left fun same => ⟨e.2, same⟩

theorem mem_setExtensions {entries : List (String × String)} {doc : Document}
    {m : String × Json} (h : m ∈ (doc.setExtensions entries).members) :
    (∃ s, m.2 = .string s) ∨ m ∈ doc.members := by
  rw [members_setExtensions, List.mem_append] at h
  rcases h with new | old
  · obtain ⟨e, -, rfl⟩ := List.mem_map.1 new
    exact .inl ⟨e.2, rfl⟩
  · exact mem_putStrings old

theorem readable_setExtensions {depth : Nat} {entries : List (String × String)} {doc : Document}
    (fresh : (entries.map (·.1)).Nodup) (h : Json.Readable depth doc.toJson) :
    Json.Readable depth (doc.setExtensions entries).toJson := by
  obtain ⟨deep, distinct, members⟩ := h
  refine ⟨deep, distinct_setExtensions fresh distinct, Json.readableMembers_iff.2 ?_⟩
  intro m hm
  rcases mem_setExtensions hm with ⟨s, text⟩ | old
  · rw [text]
    trivial
  · exact Json.readableMembers_iff.1 members m old

/-- A document that stores the checksum of its text, with a checksum of its canonical form to be
replaced in place. -/
structure Sealed (doc : Document) : Prop where
  readable : Json.Readable Json.maxDepth doc.toJson
  content : doc.members.lookup contentKey = some (.string (rawChecksum doc.text))
  processed : ∃ checksum, doc.Stores checksum ∧ Plain checksum.toList

theorem contentKey_mem : contentKey ∈ checksumKeys := List.mem_cons_self

theorem processedKey_mem : processedKey ∈ checksumKeys := by simp [checksumKeys]

/-- A stamp stores the checksum of the text that it writes, whatever the document was. -/
theorem sealed_stamp {doc : Document} (readable : Json.Readable Json.maxDepth doc.toJson) :
    doc.stamp.2.Sealed := by
  have keys : [contentKey, processedKey].Nodup := by decide
  obtain ⟨empty, -⟩ := doc.lookup_prepared
  have text : rawChecksum doc.stamp.2.text = rawChecksum doc.prepared.text := by
    rw [stamp_eq]
    exact rawChecksum_setExtensions contentKey_mem empty (by simp [Plain]) (plain_ofText _)
  refine ⟨?_, ?_, doc.processedChecksum, doc.stores_stamp, plain_ofText _⟩
  · rw [stamp_eq]
    exact readable_setExtensions (by simp) (readable_setExtensions keys readable)
  · rw [text, stamp_eq]
    exact lookup_setExtensions List.mem_cons_self (by simp) _

theorem sealed_process {doc : Document} (h : doc.Sealed) : doc.process.Sealed := by
  obtain ⟨readable, content, old, stored, plain⟩ := h
  have text : rawChecksum doc.process.text = rawChecksum doc.text :=
    rawChecksum_setExtensions processedKey_mem stored plain (plain_ofText _)
  refine ⟨readable_setExtensions (by simp) readable, ?_, doc.processedChecksum,
    doc.stores_process, plain_ofText _⟩
  rw [text, process, lookup_setExtensions_of_ne, content]
  intro e he
  rw [List.mem_singleton.1 he]
  exact contentKey_ne

theorem parse_text {doc : Document} (path : String)
    (h : Json.Readable Json.maxDepth doc.toJson) : parse path doc.text = .ok doc :=
  parse_of_read? (read?_text h)

theorem rawMatches_of_sealed {doc : Document} (h : doc.Sealed) {options : VerifyOptions}
    (checked : options.checkRaw = true) (path : String) :
    (DriftReport.compare options path doc.text doc).rawMatches = some true := by
  simp [DriftReport.compare, compareStored, checked, extension?_of_lookup h.content, checksumsOf]

end Document

namespace Restamping

/-- The file holds a document that stores the checksum of its text. -/
def SealedAt (path : String) (w : Workspace) : Prop :=
  ∃ doc : Document, w.readText path = .ok doc.text ∧ doc.Sealed

theorem sealed_document (op : Restamping) {doc : Document} (h : doc.Sealed) :
    (op.document doc).Sealed := by
  cases op with
  | process => exact Document.sealed_process h
  | stamp | update => exact Document.sealed_stamp h.readable

theorem sealedAt_write (op : Restamping) {path : String} {doc : Document} {w : Workspace}
    (read : w.readText path = .ok doc.text) (h : doc.Sealed)
    (writes : op.Writes path doc.text doc) :
    SealedAt path ((op.perform path).outcome w).value.2 := by
  obtain ⟨w', written, read', -⟩ := Workspace.write_over read (op.document doc).text
  rw [outcome_perform op read (Document.parse_text path h.readable) writes written]
  exact ⟨op.document doc, read', op.sealed_document h⟩

/-- What one operation does to the file leaves its checksum right, also where it fails. -/
theorem sealedAt_perform (op : Restamping) {path : String} {w : Workspace}
    (h : SealedAt path w) : SealedAt path ((op.perform path).outcome w).value.2 := by
  obtain ⟨doc, read, stamped⟩ := h
  cases op with
  | process | stamp => exact sealedAt_write _ read stamped trivial
  | update options =>
    have verified := verify_eq options (Document.parse_text path stamped.readable)
    by_cases writes : (Restamping.update options).Writes path doc.text doc
    · exact sealedAt_write _ read stamped writes
    · have untouched : ((Restamping.update options).perform path).outcome w =
          pure ((((Restamping.update options).perform path).outcome w).value.1, w) := by
        dsimp only at verified
        split at verified
        · rw [perform, Action.outcome_map (outcome_verifyFile read verified)]
          rfl
        · rename_i mismatch
          rw [if_neg fun update => writes ⟨update, by simpa using mismatch⟩] at verified
          split at verified
          · rw [perform, Action.outcome_map_error (outcome_verifyFile_error read verified)]
            rfl
          · rw [perform, Action.outcome_map (outcome_verifyFile read verified)]
            rfl
      rw [untouched]
      exact ⟨doc, read, stamped⟩

/-- The workspace after operations on a file, one after the other; some of them may fail. -/
def run (path : String) : List Restamping → Workspace → Workspace
  | [], w => w
  | op :: ops, w => run path ops ((op.perform path).outcome w).value.2

theorem sealedAt_run {path : String} {w : Workspace} (ops : List Restamping)
    (h : SealedAt path w) : SealedAt path (run path ops w) := by
  induction ops generalizing w with
  | nil => exact h
  | cons op ops ih => exact ih (op.sealedAt_perform h)

/-- Stamping succeeds, and whatever operations follow, the stored checksum of the text is that of
the text and verification finds it so. -/
theorem content_checksum_run {path text : String} {doc : Document} {w : Workspace}
    (read : w.readText path = .ok text) (parsed : Document.parse path text = .ok doc)
    (numbers : doc.toJson.NumbersReread) :
    ∃ pair stamped, (stampFile path).outcome w = pure (.ok pair, stamped) ∧
      ∀ ops : List Restamping, ∃ now doc', (run path ops stamped).readText path = .ok now ∧
        Document.parse path now = .ok doc' ∧
        doc'.extension? contentKey = some (rawChecksum now) ∧
        ∀ options : VerifyOptions, options.checkRaw = true →
          (DriftReport.compare options path now doc').rawMatches = some true ∧
          ∀ report w', ((verifyFile options path).outcome (run path ops stamped)).value =
            (.ok report, w') → report.rawMatches = some true := by
  have readable := Json.readable_of_read? (Document.parse_eq_ok parsed) numbers
  obtain ⟨stamped, written, read', -⟩ := Workspace.write_over read doc.stamp.2.text
  refine ⟨doc.stamp.1, stamped, outcome_stampFile read parsed written, ?_⟩
  intro ops
  obtain ⟨now, readNow, holds⟩ := sealedAt_run ops ⟨_, read', Document.sealed_stamp readable⟩
  have parsedNow := Document.parse_text path holds.readable
  refine ⟨now.text, now, readNow, parsedNow, Document.extension?_of_lookup holds.content, ?_⟩
  intro options checked
  have found := Document.rawMatches_of_sealed holds checked path
  refine ⟨found, ?_⟩
  intro report w' outcome
  obtain ⟨verification, verified, rfl⟩ := verify_of_verifyFile readNow outcome
  obtain ⟨messages, reported⟩ := verify_report parsedNow verified
  rw [reported, found]

theorem content_checksum_run_grouped :
    ∃ pair stamped, (stampFile "openapi.json").outcome groupedTree = pure (.ok pair, stamped) ∧
      ∀ ops : List Restamping, ∃ now doc',
        (run "openapi.json" ops stamped).readText "openapi.json" = .ok now ∧
        Document.parse "openapi.json" now = .ok doc' ∧
        doc'.extension? contentKey = some (rawChecksum now) ∧
        ∀ options : VerifyOptions, options.checkRaw = true →
          (DriftReport.compare options "openapi.json" now doc').rawMatches = some true ∧
          ∀ report w', ((verifyFile options "openapi.json").outcome
            (run "openapi.json" ops stamped)).value = (.ok report, w') →
              report.rawMatches = some true :=
  content_checksum_run readText_grouped (parse_grouped _) fun _ hn => nomatch hn

end Restamping

end OpenApiModels.Spec
