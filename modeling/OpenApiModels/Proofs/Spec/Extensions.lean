import OpenApiModels.Proofs.Keyed
import OpenApiModels.Spec.Document

/-!
# Extension members

What `setExtensions` does to the members of a document: the members it sets hold their texts, the
others stay, and setting what is there already changes nothing.
-/

namespace OpenApiModels.Spec

open Keyed

/-- Members without repeated keys. -/
def Distinct (ms : List (String × Json)) : Prop :=
  (ms.map (·.1)).Nodup

namespace Document

/-- Sets string members, each in place where it is there. -/
def putStrings (entries : List (String × String)) (ms : List (String × Json)) :
    List (String × Json) :=
  entries.foldl (fun ms e => put e.1 (.string e.2) ms) ms

/-- The members that `setExtensions` puts in front. -/
def fresh (entries : List (String × String)) (doc : Document) : List (String × Json) :=
  (entries.filter fun e => !hasKey e.1 doc.members).map fun e => (e.1, .string e.2)

def refreshed (entries : List (String × String)) (doc : Document) : List (String × Json) :=
  putStrings (entries.filter fun e => hasKey e.1 doc.members) doc.members

theorem putStrings_cons (e : String × String) (entries : List (String × String))
    (ms : List (String × Json)) :
    putStrings (e :: entries) ms = putStrings entries (put e.1 (.string e.2) ms) := rfl

theorem members_setExtensions (entries : List (String × String)) (doc : Document) :
    (doc.setExtensions entries).members = doc.fresh entries ++ doc.refreshed entries := by
  simp [setExtensions, fresh, refreshed, List.partition_eq_filter_filter]
  rfl

theorem keys_fresh (entries : List (String × String)) (doc : Document) :
    (doc.fresh entries).map (·.1) =
      (entries.filter fun e => !hasKey e.1 doc.members).map (·.1) := by
  simp [fresh]

/-- Puts of keys that are there keep the keys. -/
theorem keys_putStrings (entries : List (String × String)) (ms : List (String × Json))
    (h : ∀ e ∈ entries, hasKey e.1 ms = true) :
    (putStrings entries ms).map (·.1) = ms.map (·.1) := by
  induction entries generalizing ms with
  | nil => rfl
  | cons e entries ih =>
    rw [putStrings_cons, ih _ fun e' he' => ?_, keys_put, if_pos (h e List.mem_cons_self)]
    rw [hasKey_put, h e' (List.mem_cons_of_mem _ he'), Bool.or_true]

theorem keys_refreshed (entries : List (String × String)) (doc : Document) :
    (doc.refreshed entries).map (·.1) = doc.members.map (·.1) :=
  keys_putStrings _ _ fun _ he => (List.mem_filter.1 he).2

theorem hasKey_eq_keys {α : Type} (key : String) (ms : List (String × α)) :
    hasKey key ms = (ms.map (·.1)).contains key := by
  rw [Bool.eq_iff_iff]
  simp [hasKey]

theorem hasKey_setExtensions (key : String) (entries : List (String × String)) (doc : Document) :
    hasKey key (doc.setExtensions entries).members =
      (hasKey key doc.members || hasKey key entries) := by
  rw [members_setExtensions, hasKey_append, hasKey_eq_keys key (doc.refreshed entries),
    keys_refreshed, ← hasKey_eq_keys, Bool.or_comm]
  cases found : hasKey key doc.members with
  | true => rfl
  | false =>
    rw [hasKey_eq_keys, keys_fresh, ← hasKey_eq_keys, Bool.eq_iff_iff]
    simp only [hasKey, List.any_filter, List.any_eq_true, Bool.and_eq_true, beq_iff_eq,
      Bool.false_or]
    constructor
    · rintro ⟨e, he, _, same⟩
      exact ⟨e, he, same⟩
    · rintro ⟨e, he, same⟩
      refine ⟨e, he, ?_, same⟩
      rw [same]
      simpa [hasKey] using found

theorem distinct_setExtensions {entries : List (String × String)}
    (fresh : (entries.map (·.1)).Nodup) {doc : Document} (h : Distinct doc.members) :
    Distinct (doc.setExtensions entries).members := by
  rw [Distinct, members_setExtensions, List.map_append, keys_fresh, keys_refreshed,
    List.nodup_append]
  refine ⟨fresh.sublist (List.filter_sublist.map _), h, fun key new other old same => ?_⟩
  subst same
  obtain ⟨e, he, rfl⟩ := List.mem_map.1 new
  have absent := (List.mem_filter.1 he).2
  rw [hasKey_eq_keys, List.contains_eq_mem, decide_eq_true old] at absent
  cases absent

theorem filter_putStrings {p : String → Bool} (entries : List (String × String))
    (ms : List (String × Json)) (h : ∀ e ∈ entries, p e.1 = false) :
    (putStrings entries ms).filter (fun m => p m.1) = ms.filter fun m => p m.1 := by
  induction entries generalizing ms with
  | nil => rfl
  | cons e entries ih =>
    rw [putStrings_cons, ih _ fun e' he' => h e' (List.mem_cons_of_mem _ he'),
      filter_put (h e List.mem_cons_self)]

/-- Members with other keys stay. -/
theorem filter_setExtensions {p : String → Bool} {entries : List (String × String)}
    (h : ∀ e ∈ entries, p e.1 = false) (doc : Document) :
    (doc.setExtensions entries).members.filter (fun m => p m.1) =
      doc.members.filter fun m => p m.1 := by
  have new : (doc.fresh entries).filter (fun m => p m.1) = [] := by
    simp only [fresh, List.filter_eq_nil_iff, List.mem_map, List.mem_filter]
    rintro _ ⟨e, ⟨he, -⟩, rfl⟩
    simp [h e he]
  rw [members_setExtensions, List.filter_append, new, List.nil_append]
  exact filter_putStrings _ _ fun e he => h e (List.mem_filter.1 he).1

theorem lookup_putStrings_of_ne {key : String} (entries : List (String × String))
    (ms : List (String × Json)) (h : ∀ e ∈ entries, key ≠ e.1) :
    (putStrings entries ms).lookup key = ms.lookup key := by
  induction entries generalizing ms with
  | nil => rfl
  | cons e entries ih =>
    rw [putStrings_cons, ih _ fun e' he' => h e' (List.mem_cons_of_mem _ he'),
      lookup_put_of_ne (h e List.mem_cons_self)]

theorem lookup_putStrings {key value : String} {entries : List (String × String)}
    (h : (key, value) ∈ entries) (distinct : (entries.map (·.1)).Nodup)
    (ms : List (String × Json)) :
    (putStrings entries ms).lookup key = some (.string value) := by
  obtain ⟨before, after, rfl⟩ := List.append_of_mem h
  rw [List.map_append, List.map_cons, List.nodup_append, List.nodup_cons] at distinct
  rw [putStrings, List.foldl_append, List.foldl_cons]
  refine (lookup_putStrings_of_ne after _ ?_).trans (lookup_put_self key _ _)
  exact fun e he same => distinct.2.1.1 (List.mem_map.2 ⟨e, he, same.symm⟩)

theorem lookup_setExtensions {entries : List (String × String)} {key value : String}
    (h : (key, value) ∈ entries) (distinct : (entries.map (·.1)).Nodup) (doc : Document) :
    (doc.setExtensions entries).members.lookup key = some (.string value) := by
  rw [members_setExtensions, List.lookup_append]
  cases found : hasKey key doc.members with
  | false =>
    have new : (doc.fresh entries).lookup key = some (.string value) := by
      refine lookup_of_mem (List.mem_map.2 ⟨(key, value), List.mem_filter.2 ⟨h, ?_⟩, rfl⟩) ?_
      · simp [found]
      · rw [keys_fresh]
        exact distinct.sublist (List.filter_sublist.map _)
    rw [new, Option.some_or]
  | true =>
    have new : (doc.fresh entries).lookup key = none := by
      simp only [fresh, List.lookup_eq_none_iff, List.mem_map, List.mem_filter]
      rintro _ ⟨e, ⟨-, absent⟩, rfl⟩
      rw [bne_iff_ne]
      rintro rfl
      simp [found] at absent
    rw [new, Option.none_or]
    have kept : (key, value) ∈ entries.filter fun e => hasKey e.1 doc.members :=
      List.mem_filter.2 ⟨h, found⟩
    refine lookup_putStrings kept ?_ doc.members
    exact distinct.sublist (List.filter_sublist.map _)

theorem lookup_setExtensions_of_ne {entries : List (String × String)} {key : String}
    (h : ∀ e ∈ entries, key ≠ e.1) (doc : Document) :
    (doc.setExtensions entries).members.lookup key = doc.members.lookup key := by
  have new : (doc.fresh entries).lookup key = none := by
    simp only [fresh, List.lookup_eq_none_iff, List.mem_map, List.mem_filter]
    rintro _ ⟨e, ⟨he, -⟩, rfl⟩
    exact bne_iff_ne.2 (h e he)
  rw [members_setExtensions, List.lookup_append, new, Option.none_or]
  exact lookup_putStrings_of_ne _ _ fun e he => h e (List.mem_filter.1 he).1

theorem members_setExtensions_of_hasKey {entries : List (String × String)} {doc : Document}
    (h : ∀ e ∈ entries, hasKey e.1 doc.members = true) :
    (doc.setExtensions entries).members = putStrings entries doc.members := by
  have none : entries.filter (fun e => !hasKey e.1 doc.members) = [] := by
    rw [List.filter_eq_nil_iff]
    exact fun e he => by simp [h e he]
  rw [members_setExtensions, fresh, none, refreshed, List.filter_eq_self.2 h]
  rfl

theorem putStrings_eq_self {entries : List (String × String)} {ms : List (String × Json)}
    (h : ∀ e ∈ entries, ms.lookup e.1 = some (.string e.2)) : putStrings entries ms = ms := by
  induction entries with
  | nil => rfl
  | cons e entries ih =>
    rw [putStrings_cons, put_eq_self (h e List.mem_cons_self)]
    exact ih fun e' he' => h e' (List.mem_cons_of_mem _ he')

/-- Setting what is there changes nothing. -/
theorem setExtensions_eq_self {entries : List (String × String)} {doc : Document}
    (h : ∀ e ∈ entries, doc.members.lookup e.1 = some (.string e.2)) :
    doc.setExtensions entries = doc := by
  have members : (doc.setExtensions entries).members = doc.members := by
    rw [members_setExtensions_of_hasKey fun e he => hasKey_of_lookup (h e he)]
    exact putStrings_eq_self h
  exact congrArg Document.mk members

end Document

end OpenApiModels.Spec
