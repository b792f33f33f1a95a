import OpenApiModels.Proofs.Retyping.Replaced

/-!
# New names of a run

The names in use grow with every file, so that a new name that a transform gives to a declaration
is given in one file only (`new_names_apart`). The renames of all files are followed by name alone,
and so give it to a declaration of the same old name in another file too (`items_share_name`).
-/

namespace OpenApiModels.Retyping

open Text TypeScript

/-- New names, given at the places of files, belong to one file and to one old name each, and no
file that can be read declares them. -/
structure NewNamesApart (files : List TreeFile) (given : Nat → Rename → Prop) : Prop where
  file : ∀ {i j : Nat} {r r' : Rename}, given i r → given j r' → r.new = r'.new → i = j
  old : ∀ {i j : Nat} {r r' : Rename}, given i r → given j r' → r.old ≠ r'.old → r.new ≠ r'.new
  free : ∀ {i : Nat} {r : Rename}, given i r → ∀ f ∈ files, ∀ cs names, f.text? = some cs →
    declaredNames cs = .ok names → r.new ∉ names

/-- A transform gives a declaration that other files can import a new name. -/
def Grants (transforms : List Transform) (files : List TreeFile) (i : Nat)
    (rename : Rename) : Prop :=
  ∃ d c, Replaces transforms files i d c ∧ d.exported = true ∧ c.rename = some rename

/-- The name of a declaration behind a run: as the transforms over its file leave it, with the
renames of all files followed. -/
def lastName (transforms : List Transform) (files : List TreeFile)
    (done : List (String × List Char)) (path : String) (stored : List Char) (name : String) :
    String :=
  renamed (transformAll transforms files).value.renames
    (nameAfter (contextAt transforms files done path) transforms stored name)

/-- A declaration that other files can import has a new name behind a run. -/
inductive EndsAs (transforms : List Transform) (files : List TreeFile) (i : Nat)
    (rename : Rename) : Prop where
  | intro {done later : List (String × List Char)} {path : String} {stored : List Char}
      {decls : List EnumDecl} {d : EnumDecl} {f : FileState}
      (split : decoded files = done ++ (path, stored) :: later) (place : done.length = i)
      (scanned : scanEnums stored = .ok decls) (mem : d ∈ decls) (exported : d.exported = true)
      (old : d.name = rename.old) (result : (filesAfter transforms files)[i]? = some f)
      (found : f.failed = false)
      (new : lastName transforms files done path stored d.name = rename.new)
      (ne : rename.new ≠ rename.old)

variable {transforms : List Transform} {files : List TreeFile}

theorem Replaces.exported_eq {i : Nat} {d : EnumDecl} {c : Candidate}
    (h : Replaces transforms files i d c) : c.exported = d.exported := by
  obtain ⟨-, -, -, -, -, -, -, planned, -⟩ := h
  rw [Transform.value_plan] at planned
  obtain ⟨new, -, rfl⟩ := Option.map_eq_some_iff.1 planned
  rfl

theorem not_mem_of_treeNames {name : String} (free : name ∉ treeNames files) {f : TreeFile}
    (hf : f ∈ files) {cs : List Char} {names : List String} (text : f.text? = some cs)
    (declared : declaredNames cs = .ok names) : name ∉ names := by
  refine fun mem => free (List.mem_flatMap.2 ⟨f, hf, ?_⟩)
  rw [text, Option.map_some, declared]
  exact mem

theorem Grants.dropsSuffix {i : Nat} {rename : Rename}
    (h : Grants transforms files i rename) : DropsSuffix rename := by
  obtain ⟨d, c, ⟨-, -, inFile⟩, -, isRename⟩ := h
  exact (inFile.dropsSuffix isRename).1

theorem Grants.not_mem_treeNames {i : Nat} {rename : Rename}
    (h : Grants transforms files i rename) : rename.new ∉ treeNames files := by
  obtain ⟨d, c, ⟨-, -, inFile⟩, -, isRename⟩ := h
  refine fun declared => (inFile.dropsSuffix isRename).2.2 ?_
  exact (startOf transforms files).treeNames_subset_over transforms _ declared

/-- The new names of a file are in use for every later one. -/
theorem Grants.new_ne {i j : Nat} {r r' : Rename} (h : Grants transforms files i r)
    (h' : Grants transforms files j r') (before : i < j) : r.new ≠ r'.new := by
  obtain ⟨d, c, replaces, exported, isRename⟩ := h
  obtain ⟨d', c', ⟨split', rfl, inFile'⟩, -, isRename'⟩ := h'
  have exported : c.exported = true := replaces.exported_eq.trans exported
  obtain ⟨split, rfl, inFile⟩ := replaces
  rename_i later _ _ done' later' path' _
  intro same
  refine (inFile'.dropsSuffix isRename').2.2 ?_
  rw [← same]
  rcases List.append_eq_append_iff.1 (split.symm.trans split') with ⟨further, rfl, rest⟩ |
    ⟨_, rfl, -⟩
  · cases further with
    | nil => simp at before
    | cons next further =>
      obtain ⟨rfl, -⟩ := List.cons.inj rest
      exact inFile.new_mem_treeNames isRename exported
  · rw [List.length_append] at before
    omega

/-- A new name that a transform gives to a declaration is given in one file only. -/
theorem namesApart_grants (transforms : List Transform) (files : List TreeFile) :
    NewNamesApart files (Grants transforms files) where
  file {i j _ _} h h' same := by
    rcases Nat.lt_trichotomy i j with before | here | behind
    · exact absurd same (h.new_ne h' before)
    · exact here
    · exact absurd same.symm (h'.new_ne h behind)
  old h h' differ same := by
    refine differ ?_
    rw [h.dropsSuffix.old, h'.dropsSuffix.old, same]
  free h _ hf _ _ text declared := not_mem_of_treeNames h.not_mem_treeNames hf text declared

theorem new_names_apart (transforms : List Transform) (files : List TreeFile) :
    NewNamesApart files (Grants transforms files) ∧
      ((∀ i rename, EndsAs transforms files i rename → Grants transforms files i rename) →
        NewNamesApart files (EndsAs transforms files)) := by
  have granted := namesApart_grants transforms files
  refine ⟨granted, fun own => ⟨fun h h' same => ?_, fun h h' differ => ?_, fun h => ?_⟩⟩
  · exact granted.file (own _ _ h) (own _ _ h') same
  · exact granted.old (own _ _ h) (own _ _ h') differ
  · exact granted.free (own _ _ h)

section Example

def itemText : List Char := "export enum ItemEnum \x7b A = \"a\" \x7d\n".toList

def kindEnumText : List Char := "export enum KindEnum \x7b B = \"b\" \x7d\n".toList

/-- Two files that each declare an enum. -/
def kindFiles : List TreeFile :=
  [⟨"A.ts", some itemText⟩, ⟨"B.ts", some kindEnumText⟩]

/-- A declaration that the first transform replaces. -/
theorem grants_first {t : Transform} {rest : List Transform} (done : List (String × List Char))
    {later : List (String × List Char)} {path : String} {stored : List Char} {rename : Rename}
    (split : decoded files = done ++ (path, stored) :: later)
    (facts : (∃ s ∈ (Source.ofText? stored).toOption, ∃ decls ∈ (enumDecls [] s.tokens).toOption,
      ∃ d ∈ decls, d.exported = true ∧
        (t.plan s.words (contextAt (t :: rest) files done path) d).value.bind (·.rename) =
          some rename) ∧
      (combine (contextAt (t :: rest) files done path) stored (t :: rest)
        ⟨none, []⟩).value.toOption.isSome = true) :
    Grants (t :: rest) files done.length rename := by
  obtain ⟨⟨s, read, decls, scanned, d, mem, exported, planned⟩, finished⟩ := facts
  obtain ⟨after, finished⟩ := Option.isSome_iff_exists.1 finished
  obtain ⟨c, planned, isRename⟩ := Option.bind_eq_some_iff.1 planned
  exact ⟨d, c, .intro split rfl (.intro (List.nil_append _).symm rfl (mem_toOption.1 read)
    (mem_toOption.1 scanned) mem planned (mem_toOption.1 finished)), exported, isRename⟩

/-- The last names of the declarations in the file behind some others. -/
def lastNames (transforms : List Transform) (files : List TreeFile)
    (done : List (String × List Char)) (path : String) (stored : List Char) : List Rename :=
  ((scanEnums stored).toOption.getD []).map fun d =>
    ⟨d.name, lastName transforms files done path stored d.name⟩

theorem EndsAs.mem_lastNames {i : Nat} {rename : Rename} (h : EndsAs transforms files i rename) :
    ∃ done path stored later, decoded files = done ++ (path, stored) :: later ∧ done.length = i ∧
      rename ∈ lastNames transforms files done path stored := by
  obtain ⟨split, place, scanned, mem, -, old, -, -, new, -⟩ := h
  rename_i decls d f
  refine ⟨_, _, _, _, split, place, List.mem_map.2 ⟨d, ?_, ?_⟩⟩
  · rw [scanned]
    exact mem
  · rw [new, old]

theorem split_pair {α : Type} {x y z : α} {done later : List α}
    (h : [x, y] = done ++ z :: later) : done = [] ∧ z = x ∨ done = [x] ∧ z = y := by
  rcases List.append_eq_cons_iff.1 h.symm with ⟨rfl, first⟩ | ⟨done, rfl, rest⟩
  · exact .inl ⟨rfl, (List.cons.inj first).1⟩
  rcases List.append_eq_cons_iff.1 rest.symm with ⟨rfl, second⟩ | ⟨done, rfl, rest⟩
  · exact .inr ⟨rfl, (List.cons.inj second).1⟩
  · simp at rest

theorem kinds_renamed {i : Nat} {rename : Rename}
    (h : EndsAs (defaultTransforms 3 .auto) kindFiles i rename) :
    i = 0 ∧ rename = ⟨"ItemEnum", "Item"⟩ ∨ i = 1 ∧ rename = ⟨"KindEnum", "Kind"⟩ := by
  obtain ⟨done, path, stored, later, split, rfl, mem⟩ := h.mem_lastNames
  have all : decoded kindFiles = [("A.ts", itemText), ("B.ts", kindEnumText)] := rfl
  obtain ⟨first, second⟩ : lastNames (defaultTransforms 3 .auto) kindFiles [] "A.ts" itemText =
      [⟨"ItemEnum", "Item"⟩] ∧ lastNames (defaultTransforms 3 .auto) kindFiles
        [("A.ts", itemText)] "B.ts" kindEnumText = [⟨"KindEnum", "Kind"⟩] := by decide +kernel
  rw [all] at split
  rcases split_pair split with ⟨rfl, here⟩ | ⟨rfl, here⟩
  · obtain ⟨rfl, rfl⟩ := Prod.mk.inj here
    rw [first, List.mem_singleton] at mem
    exact .inl ⟨rfl, mem⟩
  · obtain ⟨rfl, rfl⟩ := Prod.mk.inj here
    rw [second, List.mem_singleton] at mem
    exact .inr ⟨rfl, mem⟩

theorem new_names_apart_kinds :
    NewNamesApart kindFiles (EndsAs (defaultTransforms 3 .auto) kindFiles) := by
  refine (new_names_apart (defaultTransforms 3 .auto) kindFiles).2 fun i rename h => ?_
  rcases kinds_renamed h with ⟨rfl, rfl⟩ | ⟨rfl, rfl⟩
  · exact grants_first [] rfl (by decide +kernel)
  · exact grants_first [("A.ts", itemText)] rfl (by decide +kernel)

end Example

/-! ### A name that two files share -/

/-- A declaration that ends a run under a new name. -/
theorem endsAs_of_facts (done : List (String × List Char)) {later : List (String × List Char)}
    {path : String} {stored : List Char} {rename : Rename}
    (split : decoded files = done ++ (path, stored) :: later)
    (facts : (∃ decls ∈ (scanEnums stored).toOption, ∃ d ∈ decls, d.exported = true ∧
        d.name = rename.old) ∧
      (filesAfter transforms files)[done.length]?.map (·.failed) = some false ∧
      lastName transforms files done path stored rename.old = rename.new)
    (ne : rename.new ≠ rename.old) : EndsAs transforms files done.length rename := by
  obtain ⟨⟨decls, scanned, d, mem, exported, old⟩, found, new⟩ := facts
  obtain ⟨f, result, found⟩ := Option.map_eq_some_iff.1 found
  exact .intro split rfl (mem_toOption.1 scanned) mem exported old result found (by rw [old, new])
    ne

theorem items_share_name : ¬ ∀ (transforms : List Transform) (files : List TreeFile),
    NewNamesApart files (EndsAs transforms files) := by
  intro apart
  have first : EndsAs (defaultTransforms 3 .auto) itemTree 0 ⟨"ItemEnum", "Item"⟩ :=
    endsAs_of_facts [] rfl (by decide +kernel) (by decide)
  have second : EndsAs (defaultTransforms 3 .auto) itemTree 1 ⟨"ItemEnum", "Item"⟩ :=
    endsAs_of_facts [("A.ts", itemText)] rfl (by decide +kernel) (by decide)
  exact absurd ((apart _ _).file first second rfl) (by decide)

end OpenApiModels.Retyping
