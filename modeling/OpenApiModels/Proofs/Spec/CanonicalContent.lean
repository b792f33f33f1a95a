import OpenApiModels.Proofs.Json.Content
import OpenApiModels.Proofs.Json.TextInjective
import OpenApiModels.Proofs.Spec.CanonicalMembers

/-!
# Content told by canonical texts

The canonical text of a spec holds its content and nothing else: specs with the same canonical text
have the same content up to their checksum members, and specs with the same content and the same
checksum keys have the same canonical text (`canonical_eq_iff_sameContent`).
-/

namespace OpenApiModels

namespace Json

/-- Sorting a document brings no number into it. -/
theorem numbers_sorted_subset (v : Json) : v.sorted.numbers ⊆ v.numbers := by
  induction v using induct with
  | null | bool | number | string => exact List.Subset.refl _
  | array items ih =>
    intro n hn
    rw [sorted_array] at hn
    obtain ⟨w, hw, hn⟩ := mem_numbers_array.1 hn
    obtain ⟨v, hv, rfl⟩ := List.mem_map.1 hw
    exact mem_numbers_array.2 ⟨v, hv, ih v hv hn⟩
  | object members ih =>
    intro n hn
    rw [sorted_object] at hn
    obtain ⟨m, hm, hn⟩ := mem_numbers_object.1 hn
    obtain ⟨source, hsource, rfl⟩ := mem_sortedObject.1 hm
    exact mem_numbers_object.2 ⟨source, hsource, ih source hsource hn⟩

end Json

namespace Spec

open Keyed Json

namespace Document

/-- The key is not that of a stored checksum. -/
def isContent (key : String) : Bool :=
  !checksumKeys.contains key

/-- The document without the root members that store checksums. -/
def withoutChecksums (doc : Document) : Document :=
  ⟨doc.members.filter fun m => isContent m.1⟩

theorem distinct_of_distinctKeys {doc : Document} (h : doc.toJson.DistinctKeys) :
    Distinct doc.members :=
  (distinctKeys_object_iff.1 h).1

theorem distinctKeys_withoutChecksums {doc : Document} (h : doc.toJson.DistinctKeys) :
    doc.withoutChecksums.toJson.DistinctKeys := by
  obtain ⟨keys, inner⟩ := distinctKeys_object_iff.1 h
  exact .object (Members.distinct_filter keys _) fun m hm => inner m (List.mem_of_mem_filter hm)

/-! ### The content part of the sorted members -/

theorem sorted_toJson (doc : Document) : doc.toJson.sorted = .object doc.ordered :=
  sorted_object doc.members

theorem ordered_withoutChecksums {doc : Document} (h : Distinct doc.members) :
    doc.withoutChecksums.ordered = doc.part isContent := by
  refine ordered_eq_of_perm (Members.distinct_filter h _) ?_ (doc.ordered_ascending.filter _)
  refine (doc.ordered_perm.filter _).trans (.of_eq ?_)
  rw [sortedMembers_eq_map, sortedMembers_eq_map, List.filter_map]
  rfl

theorem sorted_withoutChecksums {doc : Document} (h : Distinct doc.members) :
    doc.withoutChecksums.toJson.sorted = .object (doc.part isContent) := by
  rw [sorted_toJson, ordered_withoutChecksums h]

/-- Members that are selected among the content are selected among all. -/
theorem filter_part_isContent {p : String → Bool} (hp : ∀ key ∈ checksumKeys, p key = false)
    (doc : Document) : (doc.part isContent).filter (fun m => p m.1) = doc.part p := by
  rw [part, part, List.filter_filter]
  refine List.filter_congr fun m _ => ?_
  cases found : p m.1 with
  | false => rfl
  | true =>
    have content : isContent m.1 = true := by
      rw [isContent, Bool.not_eq_true', List.contains_eq_mem, decide_eq_false_iff_not]
      intro key
      rw [hp m.1 key] at found
      cases found
    rw [content, Bool.and_self]

/-- With the same checksum keys, the canonical members are a matter of the content alone. -/
theorem canonicalMembers_congr {a b : Document} (ha : Distinct a.members)
    (hb : Distinct b.members)
    (keys : ∀ key ∈ checksumKeys, hasKey key a.members = hasKey key b.members)
    (content : a.part isContent = b.part isContent) : a.canonicalMembers = b.canonicalMembers := by
  have parts {p : String → Bool} (hp : ∀ key ∈ checksumKeys, p key = false) :
      a.part p = b.part p := by
    rw [← filter_part_isContent hp, content, filter_part_isContent hp]
  rw [canonicalMembers_eq ha, canonicalMembers_eq hb, parts isBefore_keys, parts isBetween₁_keys,
    parts isBetween₂_keys, parts isBehind_keys, keys checksumKey (by simp [checksumKeys]),
    keys contentKey (by simp [checksumKeys]), keys processedKey (by simp [checksumKeys])]

/-- The content is a matter of the canonical members alone. -/
theorem part_isContent_congr {a b : Document} (ha : Distinct a.members)
    (hb : Distinct b.members) (members : a.canonicalMembers = b.canonicalMembers) :
    a.part isContent = b.part isContent := by
  refine Members.eq_of_perm_ascending ?_ (Members.distinct_filter (ordered_distinct ha) _)
    (a.ordered_ascending.filter _) (b.ordered_ascending.filter _)
  exact (canonicalMembers_perm ha).symm.trans (members ▸ canonicalMembers_perm hb)

/-! ### Canonical texts -/

theorem numbers_canonicalMembers_subset {doc : Document} (h : Distinct doc.members) :
    (Json.object doc.canonicalMembers).numbers ⊆ doc.toJson.numbers := by
  intro n hn
  obtain ⟨m, hm, hn⟩ := mem_numbers_object.1 hn
  have ordered : m ∈ doc.ordered :=
    List.mem_of_mem_filter ((canonicalMembers_perm h).mem_iff.1 hm)
  refine numbers_sorted_subset _ ?_
  rw [sorted_toJson]
  exact mem_numbers_object.2 ⟨m, ordered, hn⟩

theorem canonicalMembers_of_canonical_eq {a b : Document} (ha : Distinct a.members)
    (hb : Distinct b.members) (numbers : NumbersTold a.toJson b.toJson)
    (h : a.canonical = b.canonical) : a.canonicalMembers = b.canonicalMembers := by
  have told : NumbersTold (.object a.canonicalMembers) (.object b.canonicalMembers) :=
    fun m hm n hn => numbers m (numbers_canonicalMembers_subset ha hm) n
      (numbers_canonicalMembers_subset hb hn)
  exact Json.object.inj (pretty_injective told h)

/-- Specs with the same canonical text have the same content up to their checksum members. Specs
with the same checksum keys have the same canonical text just if they have the same content up to
the checksums. -/
theorem canonical_eq_iff_sameContent {a b : Document} (ha : a.toJson.DistinctKeys)
    (hb : b.toJson.DistinctKeys) (numbers : NumbersTold a.toJson b.toJson) :
    (a.canonical = b.canonical →
        SameContent a.withoutChecksums.toJson b.withoutChecksums.toJson) ∧
      ((∀ key ∈ checksumKeys, hasKey key a.members = hasKey key b.members) →
        (a.canonical = b.canonical ↔
          SameContent a.withoutChecksums.toJson b.withoutChecksums.toJson)) := by
  have da := distinct_of_distinctKeys ha
  have db := distinct_of_distinctKeys hb
  have content : SameContent a.withoutChecksums.toJson b.withoutChecksums.toJson ↔
      a.part isContent = b.part isContent := by
    rw [sameContent_iff (distinctKeys_withoutChecksums ha) (distinctKeys_withoutChecksums hb),
      sorted_withoutChecksums da, sorted_withoutChecksums db, Json.object.injEq]
  have sound (h : a.canonical = b.canonical) : a.part isContent = b.part isContent :=
    part_isContent_congr da db (canonicalMembers_of_canonical_eq da db numbers h)
  refine ⟨fun h => content.2 (sound h), fun keys => ⟨fun h => content.2 (sound h), fun h => ?_⟩⟩
  rw [canonical, canonical, canonicalMembers_congr da db keys (content.1 h)]

/-- A spec of some version. -/
def listed (version : Int) : Document :=
  ⟨[("openapi", .string "3.0.3"),
    ("info", .object [("title", .string "T"), ("version", .number (.integer version))]),
    (checksumKey, .string "a")]⟩

/-- The first of them in another order, with another checksum. -/
def relisted : Document :=
  ⟨[(checksumKey, .string "b"),
    ("info", .object [("version", .number (.integer 1)), ("title", .string "T")]),
    ("openapi", .string "3.0.3")]⟩

theorem distinctKeys_listed (version : Int) : (listed version).toJson.DistinctKeys := by
  refine .object (show ["openapi", "info", checksumKey].Nodup by decide) ?_
  simp only [listed, List.forall_mem_cons, List.not_mem_nil, false_implies, implies_true, and_true]
  refine ⟨.string _, .object (show ["title", "version"].Nodup by decide) ?_, .string _⟩
  simp only [List.forall_mem_cons, List.not_mem_nil, false_implies, implies_true, and_true]
  exact ⟨.string _, .number _⟩

theorem distinctKeys_relisted : relisted.toJson.DistinctKeys := by
  refine .object (show [checksumKey, "info", "openapi"].Nodup by decide) ?_
  simp only [relisted, List.forall_mem_cons, List.not_mem_nil, false_implies, implies_true,
    and_true]
  refine ⟨.string _, .object (by decide) ?_, .string _⟩
  simp only [List.forall_mem_cons, List.not_mem_nil, false_implies, implies_true, and_true]
  exact ⟨.number _, .string _⟩

theorem sameContent_relisted :
    SameContent (listed 1).withoutChecksums.toJson relisted.withoutChecksums.toJson := by
  have members : relisted.withoutChecksums.members = relisted.members.drop 1 := rfl
  have members' : (listed 1).withoutChecksums.members = (listed 1).members.take 2 := rfl
  rw [toJson, toJson, members, members']
  have info : SameContent
      (.object [("title", .string "T"), ("version", .number (.integer 1))])
      (.object [("version", .number (.integer 1)), ("title", .string "T")]) :=
    .object (.swap ..) (by simpa using ⟨.string _, .number _⟩)
  exact .object (.swap ..) (by simpa [listed, relisted] using ⟨.string _, info⟩)

theorem canonical_relisted :
    (listed 1).canonical = relisted.canonical ∧ (listed 1).canonical ≠ (listed 2).canonical := by
  have integers (version : Int) : ∀ m ∈ (listed version).toJson.numbers, ∃ k, m = .integer k :=
    fun m hm => ⟨version, List.mem_singleton.1 hm⟩
  have reordered := canonical_eq_iff_sameContent (distinctKeys_listed 1) distinctKeys_relisted
    (numbersTold_of_integers (integers 1) fun m hm => ⟨1, List.mem_singleton.1 hm⟩)
  have edited := canonical_eq_iff_sameContent (distinctKeys_listed 1) (distinctKeys_listed 2)
    (numbersTold_of_integers (integers 1) (integers 2))
  refine ⟨(reordered.2 (by decide)).2 sameContent_relisted, fun same => ?_⟩
  cases edited.1 same with
  | object _ values =>
    have info := values _ (List.mem_cons_of_mem _ List.mem_cons_self) _
      (List.mem_cons_of_mem _ List.mem_cons_self) rfl
    cases info with
    | object _ values =>
      have version := values _ (List.mem_cons_of_mem _ List.mem_cons_self) _
        (List.mem_cons_of_mem _ List.mem_cons_self) rfl
      cases version

end Document

end Spec

end OpenApiModels
