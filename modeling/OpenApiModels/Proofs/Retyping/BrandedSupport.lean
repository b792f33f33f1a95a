import OpenApiModels.Proofs.Retyping.Replaced
import OpenApiModels.Proofs.Retyping.WriteReport
import OpenApiModels.Proofs.Workspace.RelativeImports

/-!
# The support file of branded types

A run needs the support file exactly if some declaration is replaced by a branded string
(`support_ne_nil_iff`). Then the file is there behind the run, and the imports of the files that
need it lead to it (`support_agrees`).
-/

namespace OpenApiModels.Retyping

open Workspace Postprocess TypeScript

variable {w w' : Workspace} {root : String} {place : Location} {transforms : List Transform}
  {tree : List TreeFile} {file : FileContext} {cs stored : List Char}

/-- The import of the support file leads to it from every file below the root. -/
theorem resolve?_importPath {rel : Location} (named : rel.Named) (below : rel ≠ [])
    (directories : ∀ a b, rel = a ++ b → b ≠ [] → w.isDirectoryAt (place ++ a) = true) :
    w.resolve? (place ++ rel) (importPath (Location.path rel)) = some (supportPlace place) := by
  have directory : w.isDirectoryAt place = true := by
    have first := directories [] rel rfl below
    rwa [List.append_nil] at first
  have last : rel = rel.dropLast ++ [rel.getLast below] := (List.dropLast_concat_getLast below).symm
  have support := follow_brandedFile directory
  have isName : "branded" ∉ ["", ".", ".."] := by decide
  rw [resolve?, List.dropLast_append_of_ne_nil below, importPath, Path.depth_path named]
  split
  · rename_i top
    have none : rel.dropLast = [] := List.eq_nil_of_length_eq_zero top
    have isParts : Path.parts (Path.moduleFile ("./" ++ "branded")) =
        "." :: Path.parts brandedFile := by
      decide
    rw [none, List.append_nil, isParts, follow, directory]
    simpa using support
  · have split : Path.parts (String.join (List.replicate rel.dropLast.length "../") ++ "branded") =
        List.replicate rel.dropLast.length ".." ++ ["branded"] := Path.parts_up _ _
    have joined : String.join (List.replicate rel.dropLast.length "../") ++ "branded" ++ ".ts" =
        String.join (List.replicate rel.dropLast.length "../") ++ brandedFile := by
      rw [String.append_assoc]
      rfl
    have up : w.follow (place ++ rel.dropLast) (List.replicate rel.dropLast.length "..") =
        some place := follow_up rel.dropLast fun a b split =>
      directories a (b ++ [rel.getLast below]) (by rw [← List.append_assoc, ← split, ← last])
        (List.append_ne_nil_of_right_ne_nil _ (List.cons_ne_nil _ _))
    rw [Path.moduleFile_of_parts split isName, joined, Path.parts_up, follow_append, up]
    exact support

/-! ### Which files need the support file -/

/-- A transform plans a branded string in a text. -/
def Brands (transform : Transform) (file : FileContext) (cs : List Char) : Prop :=
  ∃ s decls, Source.ofText? cs = .ok s ∧ enumDecls [] s.tokens = .ok decls ∧
    ∃ d ∈ decls, ∃ c, (transform.plan s.words file d).value = some c ∧ c.branded = true

variable {transform : Transform} {r : Retyped}

theorem not_brands_of_none (apply : (transform.apply file cs).value = .ok none) :
    ¬ Brands transform file cs := by
  rintro ⟨s, decls, read, scanned, d, mem, c, planned, -⟩
  obtain ⟨cut, -, retyped⟩ := exists_retyped_of_plan read scanned mem planned
  rw [apply] at retyped
  cases retyped

theorem Retyped.support_ne_nil_iff (apply : (transform.apply file cs).value = .ok (some r)) :
    r.support ≠ [] ↔ Brands transform file cs := by
  obtain ⟨cut⟩ := exists_cut apply
  obtain rfl := eq_retyped_of_apply cut apply
  have isAny : (cut.retyped (transform.choose cut.source.words file) file.path).support ≠ [] ↔
      (cut.ordered (transform.choose cut.source.words file)).any (·.branded) = true := by
    unfold Cut.retyped
    dsimp only
    split <;> simp_all
  rw [isAny, List.any_eq_true]
  constructor
  · rintro ⟨c, ordered, isBranded⟩
    obtain ⟨p, mem, planned⟩ := List.mem_filterMap.1 (List.mem_reverse.1 ordered)
    refine ⟨cut.source, _, cut.read, cut.scanned, p.2.decl, List.mem_map_of_mem mem, c, ?_,
      isBranded⟩
    rw [Transform.value_plan]
    exact planned
  · rintro ⟨s, decls, read, scanned, d, mem, c, planned, isBranded⟩
    exact ⟨c, cut.mem_ordered read scanned mem planned, isBranded⟩

def Combined.support (combined : Combined) : List SupportFile :=
  (combined.retyped.map (·.support)).getD []

/-- Transforms that are applied one after another need the support file if one of them plans a
branded string. -/
theorem combine_support {before after : Combined}
    (h : (combine file stored transforms before).value = .ok after) :
    after.support ≠ [] ↔ before.support ≠ [] ∨ ∃ first t rest middle,
      transforms = first ++ t :: rest ∧ (combine file stored first before).value = .ok middle ∧
        Brands t file (middle.text stored) := by
  induction transforms generalizing before with
  | nil =>
    cases h
    simp
  | cons t ts ih =>
    -- the transforms before the planning one are none, or start with this one
    have cases_first (next : Combined)
        (onward : ∀ first, (combine file stored (t :: first) before).value =
          (combine file stored first next).value) :
        (∃ first u rest middle, t :: ts = first ++ u :: rest ∧
          (combine file stored first before).value = .ok middle ∧
            Brands u file (middle.text stored)) ↔
        Brands t file (before.text stored) ∨ ∃ first u rest middle, ts = first ++ u :: rest ∧
          (combine file stored first next).value = .ok middle ∧
            Brands u file (middle.text stored) := by
      constructor
      · rintro ⟨_ | ⟨v, first⟩, u, rest, middle, order, reached, brands⟩
        · cases order
          cases reached
          exact .inl brands
        · obtain ⟨rfl, later⟩ := List.cons.inj order
          rw [onward] at reached
          exact .inr ⟨first, u, rest, middle, later, reached, brands⟩
      · rintro (brands | ⟨first, u, rest, middle, rfl, reached, brands⟩)
        · exact ⟨[], t, ts, before, rfl, rfl, brands⟩
        · exact ⟨t :: first, u, rest, middle, rfl, (onward first).trans reached, brands⟩
    rw [combine, Logged.value_bind] at h
    split at h
    · cases h
    · rename_i apply
      rw [cases_first ⟨before.retyped, before.fired ++ [false]⟩ fun first => by
        rw [combine, Logged.value_bind, apply], ← or_assoc, ih h]
      have none : ¬ Brands t file (before.text stored) := not_brands_of_none apply
      rw [or_iff_left none]
      rfl
    · rename_i r apply
      rw [cases_first _ fun first => by rw [combine, Logged.value_bind, apply], ← or_assoc, ih h]
      have brands : r.support ≠ [] ↔ Brands t file (before.text stored) :=
        Retyped.support_ne_nil_iff apply
      have grown : (before.retyped.getD ⟨stored, [], []⟩).support ++ r.support ≠ [] ↔
          before.support ≠ [] ∨ r.support ≠ [] := by
        rw [Ne, List.append_eq_nil_iff, not_and_or]
        cases before with
        | mk retyped fired => cases retyped <;> rfl
      rw [← brands, ← grown]
      rfl

/-- A declaration of a file is replaced by a branded string. -/
def BrandsIn (transforms : List Transform) (file : FileContext) (stored : List Char) : Prop :=
  ∃ d c, ReplacesIn transforms file stored d c ∧ c.branded = true

theorem brandsIn_iff {after : Combined}
    (finished : (combine file stored transforms ⟨none, []⟩).value = .ok after) :
    BrandsIn transforms file stored ↔ after.support ≠ [] := by
  have start : (⟨none, []⟩ : Combined).support = [] := rfl
  rw [combine_support finished, start, or_iff_right (not_not.2 rfl)]
  constructor
  · rintro ⟨d, c, ⟨order, reached, read, scanned, mem, planned, -⟩, isBranded⟩
    exact ⟨_, _, _, _, order, reached, _, _, read, scanned, d, mem, c, planned, isBranded⟩
  · rintro ⟨_, _, _, _, order, reached, _, _, read, scanned, d, mem, c, planned, isBranded⟩
    exact ⟨d, c, ⟨order, reached, read, scanned, mem, planned, finished⟩, isBranded⟩

/-- A file with a branded string is among those that a run changes, with the support it needs. -/
theorem brandsIn_iff_transformFile : BrandsIn transforms file stored ↔ ∃ found,
    (transformFile transforms file stored).value = .ok (some found) ∧ found.1.support ≠ [] := by
  have support {found : Retyped × List Bool} {after : Combined}
      (isRetyped : after.retyped = some found.1) : after.support = found.1.support := by
    rw [Combined.support, isRetyped]
    rfl
  constructor
  · rintro ⟨d, c, replaces, isBranded⟩
    obtain ⟨text, _, passes⟩ := replaces.exists_passes
    have spec := transformFile_spec transforms file stored
    split at spec
    · obtain ⟨_, unchanged⟩ := spec
      exact absurd rfl (unchanged.text_ne replaces.fires)
    · rename_i r fired result
      obtain ⟨after, finished, isRetyped⟩ := exists_combined_of_transformFile result
      refine ⟨(r, fired), result, ?_⟩
      rw [← support isRetyped, ← brandsIn_iff finished]
      exact ⟨d, c, replaces, isBranded⟩
    · exact absurd spec passes.not_stops
  · rintro ⟨found, result, some⟩
    obtain ⟨after, finished, isRetyped⟩ := exists_combined_of_transformFile result
    rw [brandsIn_iff finished, support isRetyped]
    exact some

/-! ### All files -/

theorem eraseDups_ne_nil_iff {α : Type} [BEq α] {xs : List α} : xs.eraseDups ≠ [] ↔ xs ≠ [] := by
  cases xs with
  | nil => rfl
  | cons x xs => simp [List.eraseDups_cons]

theorem Progress.step_support (p : Progress) (path : String) :
    (p.step transforms path stored).value.support ≠ [] ↔
      p.support ≠ [] ∨ BrandsIn transforms ⟨path, p.treeNames⟩ stored := by
  rw [Progress.value_step, brandsIn_iff_transformFile]
  rcases (transformFile transforms ⟨path, p.treeNames⟩ stored).value with e | found
  · simp
  · cases found with
    | none => simp
    | some found =>
      dsimp only
      rw [eraseDups_ne_nil_iff, Ne, List.append_eq_nil_iff, not_and_or]
      simp

theorem Progress.over_support (transforms : List Transform) (files : List (String × List Char))
    (p : Progress) : (p.over transforms files).support ≠ [] ↔
      p.support ≠ [] ∨ ∃ done path stored later, files = done ++ (path, stored) :: later ∧
        BrandsIn transforms ⟨path, (p.over transforms done).treeNames⟩ stored := by
  induction files generalizing p with
  | nil => simp [Progress.over]
  | cons file files ih =>
    have onward : p.over transforms (file :: files) =
        (p.step transforms file.1 file.2).value.over transforms files := rfl
    rw [onward, ih, p.step_support, or_assoc]
    refine or_congr_right ⟨?_, ?_⟩
    · rintro (here | ⟨done, path, stored, later, rfl, brands⟩)
      · exact ⟨[], file.1, file.2, files, rfl, here⟩
      · exact ⟨file :: done, path, stored, later, rfl, brands⟩
    · rintro ⟨_ | ⟨first, done⟩, path, stored, later, split, brands⟩
      · cases split
        exact .inl brands
      · obtain ⟨rfl, rest⟩ := List.cons.inj split
        exact .inr ⟨done, path, stored, later, rest, brands⟩

/-- A file, by its place among those that can be decoded, gets a branded string. -/
def Receives (transforms : List Transform) (tree : List TreeFile) (i : Nat) : Prop :=
  ∃ d c, Replaces transforms tree i d c ∧ c.branded = true

/-- A run needs the support file exactly if some file gets a branded string. -/
theorem support_ne_nil_iff (transforms : List Transform) (tree : List TreeFile) :
    (run transforms tree).value.support ≠ [] ↔ ∃ i, Receives transforms tree i := by
  change (transformAll transforms tree).value.support ≠ [] ↔ _
  have start : (startOf transforms tree).support = [] := rfl
  rw [transformAll_eq, Progress.over_support, start, or_iff_right (not_not.2 rfl)]
  constructor
  · rintro ⟨done, path, stored, later, split, d, c, replaces, isBranded⟩
    exact ⟨done.length, d, c, ⟨split, rfl, replaces⟩, isBranded⟩
  · rintro ⟨i, d, c, ⟨split, -, replaces⟩, isBranded⟩
    exact ⟨_, _, _, _, split, d, c, replaces, isBranded⟩

/-- A file with a declaration that is replaced is changed. -/
theorem Replaces.changed_ne_nil {i : Nat} {d : EnumDecl} {c : Candidate}
    (h : Replaces transforms tree i d c) : (run transforms tree).value.changed ≠ [] := by
  obtain ⟨split, rfl, replaces⟩ := h
  rename_i done later path stored
  obtain ⟨f, result⟩ : ∃ f, (filesAfter transforms tree)[done.length]? = some f := by
    refine List.getElem?_eq_some_iff.2 ⟨?_, rfl⟩ |> fun h => ⟨_, h⟩
    have lengths := congrArg List.length (map_filesAfter transforms tree)
    rw [List.length_map, split, List.length_append, List.length_cons] at lengths
    omega
  obtain ⟨text, _, passes⟩ := replaces.exists_passes
  obtain ⟨f₀, _, visit, followed⟩ := visit_at split result
  obtain ⟨rfl, passes'⟩ := visit.of_fires passes replaces.fires
  have differs := followed.text_ne (transformAll_visits transforms tree).safe passes' replaces.fires
  have own : f.stored = stored := by cases followed <;> rfl
  rw [changed_run]
  refine List.ne_nil_of_mem
    (List.mem_map_of_mem (List.mem_filter.2 ⟨List.mem_of_getElem? result, ?_⟩))
  simpa [own] using differs

/-! ### Behind a run -/

variable {report : PostprocessReport} {extensions : List String}

/-- The import statement for a module. -/
def importOf (specifier : String) : List Char :=
  ("import type \x7b Branded \x7d from \"" ++ specifier ++ "\";").toList

theorem brandedImport_eq_importOf (path : String) :
    brandedImport path = importOf (importPath path) := by
  rw [brandedImport_eq, importOf]
  simp

/-- The support file and the files that get branded strings agree behind a run. -/
structure SupportAgrees (transforms : List Transform) (tree : List TreeFile) (root : String)
    (place : Location) (w w' : Workspace) (report : PostprocessReport) : Prop where
  /-- The support file is there if any file gets a branded string. -/
  needed : (∃ i, Receives transforms tree i) →
    w'.readText (Path.join root brandedFile) = .ok brandedSupport
  /-- The import of a file that gets one leads to the support file. -/
  imported : ∀ i path stored, Receives transforms tree i →
    (decoded tree)[i]? = some (path, stored) → ∃ loc specifier,
      w'.locate? (fullPath root path) = some loc ∧ brandedImport path = importOf specifier ∧
        w'.resolve? loc specifier = some (supportPlace place) ∧
        w'.locate? (Path.join root brandedFile) = some (supportPlace place)
  /-- Without such a file nothing but the changed files is written, each with its own text, and no
  file is made. -/
  unneeded : (∀ i, ¬ Receives transforms tree i) → report.support = [] ∧
    w' = w.setTexts (writtenTexts w root (run transforms tree).value.changed) ∧
    (∀ loc, (w'.find? loc).isSome = (w.find? loc).isSome) ∧
    (brandedFile ∉ report.changed → w'.readText (Path.join root brandedFile) =
      w.readText (Path.join root brandedFile))

theorem support_agrees {host : Script.Host} {options : PostprocessOptions}
    (isTree : w.IsTree) (unformatted : options.formatter = [])
    (ok : ((postprocess host root transforms options).outcome w).value = (.ok report, w')) :
    ∃ place tree, w.locate? root = some place ∧ treeFiles? options.extensions root w = some tree ∧
      SupportAgrees transforms tree root place w w' report := by
  obtain ⟨place, tree, rooted, listed, finishes⟩ := finishes_of_postprocess unformatted ok
  have written {i : Nat} (receives : Receives transforms tree i) :
      SupportWritten (w.setTexts (writtenTexts w root (run transforms tree).value.changed)) w' root
        place report.support := by
    have some := (support_ne_nil_iff transforms tree).2 ⟨i, receives⟩
    obtain ⟨d, c, replaces, -⟩ := receives
    exact finishes.supported replaces.changed_ne_nil some
  have alike (path : String) : w'.locate? path = w.locate? path := by
    simp only [locate?, follow_congr finishes.isDirectoryAt_eq]
  have supportPath {i : Nat} (receives : Receives transforms tree i) :
      w'.locate? (Path.join root brandedFile) = some (supportPlace place) := by
    rw [alike, ← locate?_setTexts finishes.free]
    exact (written receives).located
  refine ⟨place, tree, rooted, listed, ?_, ?_, ?_⟩
  · rintro ⟨i, receives⟩
    rw [readText_iff (supportPath receives), (written receives).written,
      contentAt?_setText_self (supportPlace_ne_nil place)]
  · intro i path stored receives at_place
    obtain ⟨file, isFile, text⟩ := List.mem_filterMap.1 (List.mem_of_getElem? at_place)
    obtain ⟨_, -, same⟩ := Option.map_eq_some_iff.1 text
    obtain ⟨rfl, -⟩ := Prod.mk.inj same
    obtain ⟨rel, f, stands, -⟩ := exists_stands isTree rooted listed isFile
    have support := supportPath receives
    obtain ⟨directory, -⟩ := eq_supportPlace_of_locate? ((alike root).trans rooted) support
    have below : rel ≠ [] := by
      rintro rfl
      have found := stands.found
      rw [List.append_nil] at found
      rw [finishes.isDirectoryAt_eq, HasFile.not_isDirectoryAt ⟨f, found⟩] at directory
      cases directory
    refine ⟨place ++ rel, importPath file.path, (alike _).trans stands.located,
      brandedImport_eq_importOf _, ?_, support⟩
    rw [stands.path]
    refine resolve?_importPath stands.named below fun a b split some => ?_
    rw [finishes.isDirectoryAt_eq]
    refine isTree.isDirectoryAt_above (b := b) ?_ some
    rw [List.append_assoc, ← split, stands.found]
    rfl
  · intro none
    have unsupported : (run transforms tree).value.support = [] :=
      not_not.1 fun some => (not_exists.2 none) ((support_ne_nil_iff transforms tree).1 some)
    obtain ⟨unreported, rfl⟩ := finishes.plain (.inr unsupported)
    refine ⟨unreported, rfl, fun loc => isSome_find?_setTexts (fun t isText => ?_) loc,
      fun unchanged => readText_setTexts finishes.free fun loc located t isText same =>
        unchanged ?_⟩
    · obtain ⟨f, found, -⟩ := Finishes.contentAt?_written isTree rooted listed isText
      exact ⟨f, found⟩
    · obtain ⟨-, rfl⟩ := eq_supportPlace_of_locate? rooted located
      obtain ⟨c, isChanged, located', -⟩ := mem_writtenTexts.1 isText
      obtain ⟨file, -, rel, f, stands, path, -⟩ :=
        exists_stands_of_changed isTree rooted listed isChanged
      rw [← path, stands.located, Option.some.injEq, ← same] at located'
      rw [finishes.changed, show brandedFile = c.1 by
        rw [← path, stands.path, List.append_cancel_left located']; rfl]
      exact List.mem_map_of_mem isChanged

theorem support_agrees_mixed : ∃ report w' place,
    ((postprocess ⟨true, []⟩ "out" (defaultTransforms 1 .branded) {}).outcome
      mixedDirectory).value = (.ok report, w') ∧ report.support = ["branded.ts"] ∧
    SupportAgrees (defaultTransforms 1 .branded) mixedTree "out" place mixedDirectory w' report := by
  obtain ⟨report, w', ok, -, support⟩ := postprocess_mixedDirectory
  obtain ⟨place, tree, -, listed, agrees⟩ := support_agrees isTree_mixedDirectory rfl ok
  obtain rfl := Option.some.inj (listed.symm.trans treeFiles?_mixedDirectory)
  exact ⟨report, w', place, ok, support, agrees⟩

end OpenApiModels.Retyping
