import OpenApiModels.Proofs.Json.Integers
import OpenApiModels.Proofs.Spec.ContentChecksum
import OpenApiModels.Proofs.Workspace.Rewriting
import OpenApiModels.Schema.Reader

/-!
# What storing checksums leaves as it was

Processing and stamping a spec write the document that was read with checksums laid over it: those
that it held keep their places, the others come first. Everything else in the spec stays, and so do
its version, its model and every other file (`processFile_stampFile_overlaid`).
-/

namespace OpenApiModels

/-! ### What versions and models are read from -/

theorem Version.ofDocument_congr {doc doc' : Json}
    (same : ∀ key ∈ [dialectKey, "openapi", "swagger"], doc.get? key = doc'.get? key) :
    ofDocument doc = ofDocument doc' := by
  simp only [List.forall_mem_cons] at same
  obtain ⟨dialect, openapi, swagger, -⟩ := same
  simp only [ofDocument, declared?, Json.string?, dialect, openapi, swagger]

theorem Model.ofJson?_congr {members members' : List (String × Json)}
    (same : ∀ key ∈ ["info", "components", "definitions"], members.lookup key =
      members'.lookup key) : ofJson? (.object members) = ofJson? (.object members') := by
  simp only [List.forall_mem_cons] at same
  obtain ⟨info, components, definitions, -⟩ := same
  simp only [ofJson?, Json.record?, Json.field, Option.bind_eq_bind, Option.bind_some, info,
    components, definitions]

namespace Spec

open Keyed

namespace Document

/-! ### Documents with strings laid over them -/

/-- The value of a member: the string that is laid over it, or the old value. -/
def laidOver (entries : List (String × String)) (m : String × Json) : Json :=
  ((entries.lookup m.1).map Json.string).getD m.2

/-- The document with strings laid over it at the root: members that are there keep their places,
the others come first in the order given. -/
def overlay (entries : List (String × String)) (doc : Document) : Document :=
  ⟨(entries.filter fun e => !hasKey e.1 doc.members).map (fun e => (e.1, .string e.2)) ++
    doc.members.map fun m => (m.1, laidOver entries m)⟩

theorem putStrings_eq_map {entries : List (String × String)}
    (fresh : (entries.map (·.1)).Nodup) {ms : List (String × Json)} (distinct : Distinct ms)
    (present : ∀ e ∈ entries, hasKey e.1 ms = true) :
    putStrings entries ms = ms.map fun m => (m.1, laidOver entries m) := by
  induction entries generalizing ms with
  | nil => exact (List.map_id _).symm
  | cons e entries ih =>
    obtain ⟨key, value⟩ := e
    obtain ⟨new, fresh⟩ := List.nodup_cons.1 fresh
    have here := present _ List.mem_cons_self
    have kept : ∀ e ∈ entries, hasKey e.1 (put key (.string value) ms) = true := fun e he => by
      rw [hasKey_put, present e (List.mem_cons_of_mem _ he), Bool.or_true]
    rw [putStrings_cons, ih fresh (nodup_keys_put distinct) kept, put_eq_map distinct here,
      List.map_map]
    refine List.map_congr_left fun m _ => ?_
    by_cases same : m.1 = key
    · have absent : entries.lookup key = none := by
        rw [List.lookup_eq_none_iff]
        exact fun e he => bne_iff_ne.2 fun same => new (List.mem_map.2 ⟨e, he, same.symm⟩)
      simp [laidOver, same, absent]
    · simp [laidOver, List.lookup_cons, same, beq_eq_false_iff_ne.2 same]

/-- Setting members lays their strings over the document. -/
theorem setExtensions_eq_overlay {entries : List (String × String)}
    (fresh : (entries.map (·.1)).Nodup) {doc : Document} (distinct : Distinct doc.members) :
    doc.setExtensions entries = doc.overlay entries := by
  have there : doc.refreshed entries = doc.members.map fun m => (m.1, laidOver entries m) := by
    rw [refreshed, putStrings_eq_map (fresh.sublist (List.filter_sublist.map _)) distinct
      fun e he => (List.mem_filter.1 he).2]
    refine List.map_congr_left fun m hm => ?_
    have here : hasKey m.1 doc.members = true :=
      List.any_eq_true.2 ⟨m, hm, beq_self_eq_true _⟩
    rw [laidOver, laidOver, lookup_filter (hasKey · doc.members), if_pos here]
  refine congrArg Document.mk ?_
  rw [← there]
  exact members_setExtensions entries doc

/-- A string that is laid over a document can be put in place of another. -/
theorem put_overlay {key new : String} {entries : List (String × String)} (old : String)
    (fresh : (((key, old) :: entries).map (·.1)).Nodup) {doc : Document}
    (distinct : Distinct doc.members) :
    put key (.string new) (doc.overlay ((key, old) :: entries)).members =
      (doc.overlay ((key, new) :: entries)).members := by
  have others : ∀ e ∈ entries, e.1 ≠ key := fun e he same =>
    (List.nodup_cons.1 fresh).1 (List.mem_map.2 ⟨e, he, same⟩)
  have eq := setExtensions_eq_overlay fresh distinct
  have distinct' := distinct_setExtensions fresh distinct
  have present : hasKey key (doc.setExtensions ((key, old) :: entries)).members = true := by
    rw [hasKey_setExtensions, hasKey_cons, beq_self_eq_true, Bool.true_or, Bool.or_true]
  rw [eq] at distinct' present
  rw [put_eq_map distinct' present, overlay, overlay, List.map_append, List.map_map, List.map_map]
  refine congrArg₂ (· ++ ·) ?_ (List.map_congr_left fun m _ => ?_)
  · have rest : ((entries.filter fun e => !hasKey e.1 doc.members).map fun e =>
          if e.1 == key then (e.1, Json.string new) else (e.1, Json.string e.2)) =
        (entries.filter fun e => !hasKey e.1 doc.members).map fun e => (e.1, Json.string e.2) := by
      refine List.map_congr_left fun e he => if_neg ?_
      simpa using others e (List.mem_of_mem_filter he)
    cases found : hasKey key doc.members <;> simpa [List.filter_cons, found] using rest
  · by_cases same : m.1 = key
    · simp [laidOver, same]
    · simp [laidOver, List.lookup_cons, same, beq_eq_false_iff_ne.2 same]

theorem process_eq_overlay {doc : Document} (distinct : Distinct doc.members) :
    doc.process = doc.overlay [(processedKey, doc.processedChecksum)] :=
  setExtensions_eq_overlay (by simp) distinct

theorem stamp_eq_overlay {doc : Document} (distinct : Distinct doc.members) : doc.stamp.2 =
    doc.overlay [(contentKey, doc.stamp.1.raw), (processedKey, doc.stamp.1.processed)] := by
  have keys : [contentKey, processedKey].Nodup := by decide
  have present : hasKey contentKey doc.prepared.members = true :=
    hasKey_of_lookup doc.lookup_prepared.1
  have prepared : doc.prepared =
      doc.overlay [(contentKey, ""), (processedKey, doc.processedChecksum)] :=
    setExtensions_eq_overlay (by exact keys) distinct
  have members : doc.stamp.2.members = (doc.overlay
      [(contentKey, doc.stamp.1.raw), (processedKey, doc.stamp.1.processed)]).members := by
    rw [← put_overlay "" (by exact keys) distinct, stamp_eq,
      members_setExtensions_of_hasKey (by simpa using present), prepared]
    rfl
  exact congrArg Document.mk members

theorem lookup_overlay {entries : List (String × String)} {key : String}
    (fresh : (entries.map (·.1)).Nodup) (h : ∀ e ∈ entries, key ≠ e.1) {doc : Document}
    (distinct : Distinct doc.members) :
    (doc.overlay entries).members.lookup key = doc.members.lookup key := by
  rw [← setExtensions_eq_overlay fresh distinct, lookup_setExtensions_of_ne h]

end Document

/-- The spec at `path` is written again with strings laid over the document, and that is all that
happens. -/
structure Overlaid (path : String) (doc : Document) (entries : List (String × String))
    (w w' : Workspace) : Prop where
  text : w'.readText path = .ok (doc.overlay entries).text
  parsed : Document.parse path (doc.overlay entries).text = .ok (doc.overlay entries)
  version : Version.ofDocument (doc.overlay entries).toJson = Version.ofDocument doc.toJson
  model : Model.ofJson? (doc.overlay entries).toJson = Model.ofJson? doc.toJson
  others : ∀ loc, w.locate? path ≠ some loc → w'.find? loc = w.find? loc

/-- Writing a document with checksums laid over it succeeds and changes nothing else. -/
theorem write_overlay {path text : String} {doc : Document} {w : Workspace}
    (read : w.readText path = .ok text) (readable : Json.Readable Json.maxDepth doc.toJson)
    (entries : List (String × String)) (fresh : (entries.map (·.1)).Nodup)
    (keys : ∀ e ∈ entries, e.1 ∈ checksumKeys) :
    ∃ w', w.write path (.text (doc.overlay entries).text) = .ok w' ∧
      Overlaid path doc entries w w' := by
  have distinct : Distinct doc.members := readable.2.1
  obtain ⟨loc, f, located, found, -⟩ := Workspace.readText_eq_ok read
  obtain ⟨w', written, read', -⟩ := Workspace.write_over read (doc.overlay entries).text
  have file : w.HasFile loc := ⟨f, found⟩
  obtain rfl : w.setText loc (doc.overlay entries).text = w' :=
    Except.ok.inj ((Workspace.write_eq located file.not_isDirectoryAt _).symm.trans written)
  have same {key : String} (other : key ∉ checksumKeys) :
      (doc.overlay entries).members.lookup key = doc.members.lookup key :=
    Document.lookup_overlay fresh
      (fun e he => (ne_of_mem_of_not_mem (keys e he) other).symm) distinct
  have readable' := Document.readable_setExtensions fresh readable
  rw [Document.setExtensions_eq_overlay fresh distinct] at readable'
  refine ⟨_, written, read', Document.parse_text path readable', ?_, ?_, ?_⟩
  · refine Version.ofDocument_congr fun key hkey => same ?_
    revert key
    decide
  · refine Model.ofJson?_congr fun key hkey => same ?_
    revert key
    decide
  · intro other elsewhere
    refine Workspace.find?_setText_of_ne ?_ w
    rintro rfl
    exact elsewhere located

/-- Stamping succeeds, and lays both checksums over the document. -/
theorem stampFile_overlaid {path text : String} {doc : Document} {w : Workspace}
    (read : w.readText path = .ok text) (parsed : Document.parse path text = .ok doc)
    (readable : Json.Readable Json.maxDepth doc.toJson) :
    ∃ w', (stampFile path).outcome w = pure (.ok doc.stamp.1, w') ∧ Overlaid path doc
      [(contentKey, doc.stamp.1.raw), (processedKey, doc.stamp.1.processed)] w w' := by
  have keys : [contentKey, processedKey].Nodup := by decide
  obtain ⟨w', written, overlaid⟩ := write_overlay read readable
    [(contentKey, doc.stamp.1.raw), (processedKey, doc.stamp.1.processed)]
    (by exact keys) (by simp [checksumKeys])
  rw [← Document.stamp_eq_overlay (Document.distinct_of_parse parsed)] at written
  exact ⟨w', outcome_stampFile read parsed written, overlaid⟩

/-- Processing a spec sets the checksum of its canonical form, stamping sets that of its text as
well. Either leaves all else as it was: the other members, the version and the model of the spec,
and the other files. -/
theorem processFile_stampFile_overlaid {path text : String} {doc : Document} {w : Workspace}
    (read : w.readText path = .ok text) (parsed : Document.parse path text = .ok doc)
    (numbers : doc.toJson.NumbersReread) :
    (∃ w', (processFile path).outcome w =
        pure (.ok ⟨doc.extension? checksumKey, doc.processedChecksum⟩, w') ∧
      Overlaid path doc [(processedKey, doc.processedChecksum)] w w') ∧
    ∃ pair w', (stampFile path).outcome w = pure (.ok pair, w') ∧
      Overlaid path doc [(contentKey, pair.raw), (processedKey, pair.processed)] w w' := by
  have readable := Json.readable_of_read? (Document.parse_eq_ok parsed) numbers
  have distinct := Document.distinct_of_parse parsed
  constructor
  · obtain ⟨w', written, overlaid⟩ := write_overlay read readable
      [(processedKey, doc.processedChecksum)] (by simp) (by simp [checksumKeys])
    rw [← Document.process_eq_overlay distinct] at written
    exact ⟨w', outcome_processFile read parsed written, overlaid⟩
  · exact ⟨_, stampFile_overlaid read parsed readable⟩

/-- A spec with an outdated checksum among its members. -/
def outdated : Document :=
  ⟨[("openapi", .string "3.0.3"), (processedKey, .string "outdated"),
    ("info", .object [("title", .string "T"), ("version", .number (.integer 1))])]⟩

def outdatedTree : Workspace :=
  ⟨[(["openapi.json"], .file ⟨.text outdated.text, false⟩)]⟩

theorem numbersReread_outdated : outdated.toJson.NumbersReread := by
  intro n hn
  rw [show n = .integer 1 from List.mem_singleton.1 hn]
  exact Json.rereads_integer (by decide)

theorem parse_outdated (path : String) : Document.parse path outdated.text = .ok outdated := by
  have keys : ["openapi", processedKey, "info"].Nodup := by decide
  have version := numbersReread_outdated (.integer 1) List.mem_cons_self
  exact Document.parse_text path
    ⟨by decide, keys, trivial, trivial, ⟨by decide, by decide, trivial, version, trivial⟩, trivial⟩

theorem processFile_stampFile_outdated :
    (∃ w', (processFile "openapi.json").outcome outdatedTree =
        pure (.ok ⟨none, outdated.processedChecksum⟩, w') ∧
      Overlaid "openapi.json" outdated [(processedKey, outdated.processedChecksum)]
        outdatedTree w') ∧
    ∃ pair w', (stampFile "openapi.json").outcome outdatedTree = pure (.ok pair, w') ∧
      Overlaid "openapi.json" outdated [(contentKey, pair.raw), (processedKey, pair.processed)]
        outdatedTree w' :=
  processFile_stampFile_overlaid rfl (parse_outdated _) numbersReread_outdated

end Spec

end OpenApiModels
