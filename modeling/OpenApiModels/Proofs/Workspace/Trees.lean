import Mathlib.Data.List.Induction
import OpenApiModels.Proofs.Workspace.Paths
import OpenApiModels.Proofs.Workspace.Rewriting
import OpenApiModels.Proofs.Workspace.Walks

/-!
# Trees of files

In a tree every directory that leads to an entry is there. So each file that a walk meets is found
under the path that the walk gives it (`IsTree.locate?_join_path`), and different files have
different paths (`Location.path_injective`).
-/

namespace OpenApiModels

/-- A text that a file or a directory can have as its name. -/
structure IsEntryName (name : String) : Prop where
  nonempty : name ≠ ""
  ne_self : name ≠ "."
  ne_up : name ≠ ".."
  noSlash : '/' ∉ name.toList
  noNull : '\x00' ∉ name.toList
  short : name.utf8ByteSize ≤ Workspace.nameLimit

instance (name : String) : Decidable (IsEntryName name) :=
  decidable_of_iff (name ≠ "" ∧ name ≠ "." ∧ name ≠ ".." ∧ '/' ∉ name.toList ∧
      '\x00' ∉ name.toList ∧ name.utf8ByteSize ≤ Workspace.nameLimit)
    ⟨fun ⟨a, b, c, d, e, f⟩ => ⟨a, b, c, d, e, f⟩, fun ⟨a, b, c, d, e, f⟩ => ⟨a, b, c, d, e, f⟩⟩

namespace Location

/-- Names of entries. -/
def Named (loc : Location) : Prop :=
  ∀ name ∈ loc, IsEntryName name

instance (loc : Location) : Decidable loc.Named :=
  inferInstanceAs (Decidable (∀ name ∈ loc, IsEntryName name))

variable {loc other : Location}

theorem parts_path (named : loc.Named) (some : loc ≠ []) : Path.parts (path loc) = loc :=
  Path.parts_intercalate some fun name mem => (named name mem).noSlash

theorem path_eq_empty_iff (named : loc.Named) : path loc = "" ↔ loc = [] := by
  refine ⟨fun empty => ?_, fun none => by rw [none]; rfl⟩
  by_contra some
  have whole := parts_path named some
  rw [empty, show Path.parts "" = [""] from rfl] at whole
  exact (named "" (by rw [← whole]; exact List.mem_cons_self)).nonempty rfl

theorem path_injective (named : loc.Named) (named' : other.Named) (same : path loc = path other) :
    loc = other := by
  by_cases none : loc = []
  · rw [none] at same ⊢
    exact ((path_eq_empty_iff named').1 same.symm).symm
  · have some : other ≠ [] := fun other_none =>
      none ((path_eq_empty_iff named).1 (by rw [same, other_none]; rfl))
    rw [← parts_path named none, same, parts_path named' some]

theorem isAbsolute_path (named : loc.Named) : Path.isAbsolute (path loc) = false := by
  cases loc with
  | nil => rfl
  | cons name loc =>
    have isName := named name List.mem_cons_self
    obtain ⟨c, cs, chars⟩ :=
      List.exists_cons_of_ne_nil (mt String.toList_eq_nil_iff.1 isName.nonempty)
    have start : (path (name :: loc)).toList.head? = some c := by
      cases loc with
      | nil => simp [path, chars]
      | cons next loc => simp [path, String.intercalate_cons_cons, chars]
    have noSlash := isName.noSlash
    rw [chars] at noSlash
    rw [Path.isAbsolute, start]
    simpa using fun h : c = '/' => noSlash (by rw [h]; exact List.mem_cons_self)

theorem mem_path {c : Char} (h : c ∈ (path loc).toList) :
    c = '/' ∨ ∃ name ∈ loc, c ∈ name.toList := by
  induction loc with
  | nil => cases h
  | cons name loc ih =>
    cases loc with
    | nil => exact .inr ⟨name, List.mem_cons_self, by simpa [path] using h⟩
    | cons next loc =>
      simp only [path, String.intercalate_cons_cons, String.toList_append, List.mem_append] at h ih
      rcases h with (here | slash) | later
      · exact .inr ⟨name, List.mem_cons_self, here⟩
      · exact .inl (List.mem_singleton.1 slash)
      · refine (ih later).imp_right ?_
        rintro ⟨other, mem, inside⟩
        exact ⟨other, List.mem_cons_of_mem _ mem, inside⟩

theorem noNull_path (named : loc.Named) : '\x00' ∉ (path loc).toList := by
  intro mem
  rcases mem_path mem with slash | ⟨name, inside, null⟩
  · exact absurd slash (by decide)
  · exact (named name inside).noNull null

end Location

namespace Workspace

-- Locations are ordered by the core library, whatever else is imported.
attribute [local instance (high)] List.instLE

/-- The entries are those of a file tree. -/
structure IsTree (w : Workspace) : Prop where
  distinct : (w.entries.map (·.1)).Nodup
  ne_nil : ∀ e ∈ w.entries, e.1 ≠ []
  named : ∀ e ∈ w.entries, Location.Named e.1
  within : ∀ e ∈ w.entries, w.isDirectoryAt e.1.dropLast = true

instance (w : Workspace) : Decidable w.IsTree :=
  decidable_of_iff ((w.entries.map (·.1)).Nodup ∧ (∀ e ∈ w.entries, e.1 ≠ []) ∧
      (∀ e ∈ w.entries, Location.Named e.1) ∧ ∀ e ∈ w.entries, w.isDirectoryAt e.1.dropLast = true)
    ⟨fun ⟨a, b, c, d⟩ => ⟨a, b, c, d⟩, fun ⟨a, b, c, d⟩ => ⟨a, b, c, d⟩⟩

variable {w : Workspace} {here loc root rel : Location} {f : File}

namespace IsTree

variable (tree : w.IsTree)

include tree

theorem find?_of_mem {e : Entry} (mem : (loc, e) ∈ w.entries) : w.find? loc = some e := by
  rw [find?, if_neg (tree.ne_nil _ mem)]
  exact Keyed.lookup_of_mem mem tree.distinct

/-- What leads to an entry is a directory. -/
theorem isDirectoryAt_above {a b : Location} (found : (w.find? (a ++ b)).isSome = true)
    (below : b ≠ []) : w.isDirectoryAt a = true := by
  induction b using List.reverseRec with
  | nil => exact absurd rfl below
  | append_singleton b name ih =>
    obtain ⟨e, found⟩ := Option.isSome_iff_exists.1 found
    have some : a ++ (b ++ [name]) ≠ [] := by simp
    have above := tree.within _ (mem_of_find? found some)
    rw [← List.append_assoc, List.dropLast_concat] at above
    by_cases last : b = []
    · rwa [last, List.append_nil] at above
    · have there : w.find? (a ++ b) = Option.some .directory := by
        simpa [isDirectoryAt] using above
      exact ih (by rw [there]; rfl) last

/-- The names that lead to an entry are followed there. -/
theorem follow_names (found : (w.find? (here ++ rel)).isSome = true) (named : rel.Named) :
    w.follow here rel = some (here ++ rel) := by
  induction rel generalizing here with
  | nil => rw [follow, List.append_nil]
  | cons name rel ih =>
    have isName := named name List.mem_cons_self
    have directory := tree.isDirectoryAt_above found (List.cons_ne_nil _ _)
    rw [follow, directory]
    have later := @ih (here ++ [name]) (by rwa [List.append_assoc, List.singleton_append])
      fun other mem => named other (List.mem_cons_of_mem _ mem)
    rw [List.append_assoc, List.singleton_append] at later
    simp [isName.nonempty, isName.ne_self, isName.ne_up, Nat.not_lt.2 isName.short, later]

/-- The path of an entry below a directory leads to it. -/
theorem locate?_join_path {directory : String} (located : w.locate? directory = some root)
    (found : (w.find? (root ++ rel)).isSome = true) (named : rel.Named) (below : rel ≠ []) :
    w.locate? (Path.join directory (Location.path rel)) = some (root ++ rel) := by
  rw [locate?_join located (Location.isAbsolute_path named) (Location.noNull_path named),
    Location.parts_path named below, tree.follow_names found named]

theorem named_of_find? (found : (w.find? loc).isSome = true) : loc.Named := by
  obtain ⟨e, found⟩ := Option.isSome_iff_exists.1 found
  by_cases none : loc = []
  · rw [none]
    exact fun name mem => nomatch mem
  · exact tree.named _ (mem_of_find? found none)

end IsTree

end Workspace

end OpenApiModels
