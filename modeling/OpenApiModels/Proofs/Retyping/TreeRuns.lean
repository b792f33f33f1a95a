import OpenApiModels.Proofs.Retyping.Postprocessing
import OpenApiModels.Proofs.Workspace.Trees

/-!
# Runs over a tree of files

What a finished run over the files of a tree has written: the new texts of the changed files, each
in its place, and the support file where a retyped file needs it (`finishes_of_postprocess`).
-/

namespace OpenApiModels

namespace Retyping

open Workspace Postprocess TypeScript

variable {w w' w₁ : Workspace} {root : String} {place loc : Location}
  {changed : List (String × List Char)} {transforms : List Transform} {tree : List TreeFile}

/-! ### What is written -/

/-- The new texts of changed files by their places. -/
def writtenTexts (w : Workspace) (root : String) (changed : List (String × List Char)) :
    List (Location × String) :=
  changed.filterMap fun c =>
    (w.locate? (fullPath root c.1)).map fun loc => (loc, String.ofList c.2)

theorem writtenTexts_congr {a b : Workspace} (h : ∀ loc, a.isDirectoryAt loc = b.isDirectoryAt loc)
    (root : String) (changed : List (String × List Char)) :
    writtenTexts a root changed = writtenTexts b root changed := by
  simp only [writtenTexts, locate?, follow_congr h]

theorem value_writeChanged (ok : ((writeChanged root changed).outcome w).value = (.ok (), w₁)) :
    (∀ t ∈ writtenTexts w root changed, w.isDirectoryAt t.1 = false) ∧
      w₁ = w.setTexts (writtenTexts w root changed) := by
  induction changed generalizing w with
  | nil =>
    cases ok
    exact ⟨fun _ none => (List.not_mem_nil none).elim, rfl⟩
  | cons c changed ih =>
    have first : writeChanged root (c :: changed) =
        (Action.writeText (fullPath root c.1) (String.ofList c.2) fun e =>
          .unwritable (fullPath root c.1) e.message) >>= fun _ => writeChanged root changed := rfl
    rw [first] at ok
    obtain ⟨⟨⟩, mid, written, rest⟩ := Action.exists_of_bind ok
    obtain ⟨loc, located, free, rfl⟩ := exists_place_of_write (Action.write_of_outcome written)
    have same := isDirectoryAt_setText free (String.ofList c.2)
    have texts' := writtenTexts_congr same root changed
    obtain ⟨later, isWritten⟩ := ih rest
    rw [texts'] at later isWritten
    have texts : writtenTexts w root (c :: changed) =
        (loc, String.ofList c.2) :: writtenTexts w root changed := by
      rw [writtenTexts, List.filterMap_cons, located]
      rfl
    rw [texts]
    refine ⟨List.forall_mem_cons.2 ⟨free, fun t ht => ?_⟩, isWritten⟩
    exact (same t.1).symm.trans (later t ht)

/-- What a finished run over the files of a tree has written and reports. -/
structure Finishes (transforms : List Transform) (tree : List TreeFile) (root : String)
    (place : Location) (w w' : Workspace) (report : PostprocessReport) : Prop where
  changed : report.changed = (run transforms tree).value.changed.map (·.1)
  hits : report.hits = (run transforms tree).value.hits
  failed : report.failed = (run transforms tree).value.failed
  free : ∀ t ∈ writtenTexts w root (run transforms tree).value.changed,
    w.isDirectoryAt t.1 = false
  /-- Without support file only the changed files are written. -/
  plain : (run transforms tree).value.changed = [] ∨ (run transforms tree).value.support = [] →
    report.support = [] ∧ w' = w.setTexts (writtenTexts w root (run transforms tree).value.changed)
  supported : (run transforms tree).value.changed ≠ [] →
    (run transforms tree).value.support ≠ [] →
    SupportWritten (w.setTexts (writtenTexts w root (run transforms tree).value.changed)) w' root
      place report.support

theorem finishes_of_postprocess {host : Script.Host} {options : PostprocessOptions}
    {report : PostprocessReport} (unformatted : options.formatter = [])
    (ok : ((postprocess host root transforms options).outcome w).value = (.ok report, w')) :
    ∃ place tree, w.locate? root = some place ∧ treeFiles? options.extensions root w = some tree ∧
      Finishes transforms tree root place w w' report := by
  unfold postprocess at ok
  obtain ⟨listed, _, looked, ok⟩ := Action.exists_of_bind ok
  obtain ⟨rfl, rfl⟩ := Action.eq_of_look looked
  cases isTree : treeFiles? options.extensions root w with
  | none =>
    rw [isTree] at ok
    cases ok
  | some tree =>
    rw [isTree] at ok
    dsimp only at ok
    obtain ⟨place, rooted, -⟩ := Option.bind_eq_some_iff.1 isTree
    obtain ⟨found, mid, logged, ok⟩ := Action.exists_of_bind ok
    rw [Action.value_outcome_logged] at logged
    obtain ⟨isFound, rfl⟩ := Prod.mk.inj logged
    obtain rfl := Except.ok.inj isFound
    obtain ⟨⟨⟩, w₁, written, ok⟩ := Action.exists_of_bind ok
    obtain ⟨free, rfl⟩ := value_writeChanged written
    refine ⟨place, tree, rooted, rfl, ?_⟩
    by_cases nothing : (run transforms tree).value.changed = []
    · rw [if_pos (List.isEmpty_iff.2 nothing)] at ok
      cases ok
      exact ⟨rfl, rfl, rfl, free, fun _ => ⟨rfl, rfl⟩, fun some => absurd nothing some⟩
    · rw [if_neg (mt List.isEmpty_iff.1 nothing)] at ok
      obtain ⟨support, w₂, supported, ok⟩ := Action.exists_of_bind ok
      rw [unformatted] at ok
      cases ok
      refine ⟨rfl, rfl, rfl, free, fun none => ?_, fun _ some => ?_⟩
      · rw [none.resolve_left nothing] at supported
        cases supported
        exact ⟨rfl, rfl⟩
      · rw [(atMostBranded_run transforms tree).resolve_left some, List.mapM_cons] at supported
        obtain ⟨paths, w₃, first, supported⟩ := Action.exists_of_bind supported
        cases supported
        have rooted' := (locate?_setTexts free root).trans rooted
        change SupportWritten _ _ _ _ [paths].flatten
        rw [List.flatten_singleton]
        exact supportWritten_of_outcome rooted' first

/-! ### The files of a tree -/

/-- A file of a tree that stands in the workspace below the place of the tree. -/
structure Stands (w : Workspace) (root : String) (place : Location) (file : TreeFile)
    (rel : Location) (f : File) : Prop where
  found : w.find? (place ++ rel) = some (.file f)
  named : rel.Named
  path : file.path = Location.path rel
  text : file.text? = f.content.text?.map String.toList
  located : w.locate? (fullPath root file.path) = some (place ++ rel)

theorem treeFiles?_eq_filter {extensions : List String} (rooted : w.locate? root = some place)
    (listed : treeFiles? extensions root w = some tree) :
    tree = ((w.filesBelow place).map fun e =>
        (⟨Location.path e.1, e.2.content.text?.map String.toList⟩ : TreeFile)).filter fun f =>
      (Path.extension? (fullPath root f.path)).any fun ext => extensions.contains ext := by
  rw [treeFiles?, rooted, Option.bind_eq_bind, Option.bind_some] at listed
  obtain ⟨_, -, listed⟩ := Option.bind_eq_some_iff.1 listed
  exact (Option.some.inj listed).symm

section Tree

variable {extensions : List String} (isTree : w.IsTree) (rooted : w.locate? root = some place)
  (listed : treeFiles? extensions root w = some tree)

include isTree rooted

/-- Every file below the place of a tree is found under its path. -/
theorem stands_of_mem {rel : Location} {f : File} (mem : (rel, f) ∈ w.filesBelow place) :
    Stands w root place ⟨Location.path rel, f.content.text?.map String.toList⟩ rel f := by
  have found := isTree.find?_of_mem (mem_filesBelow.1 mem)
  have whole : Location.Named (place ++ rel) := isTree.named_of_find? (by rw [found]; rfl)
  have named : rel.Named := fun name inside => whole name (List.mem_append_right _ inside)
  refine ⟨found, named, rfl, rfl, ?_⟩
  by_cases none : rel = []
  · subst none
    rw [List.append_nil]
    exact rooted
  · have path : Location.path rel ≠ "" := mt (Location.path_eq_empty_iff named).1 none
    rw [fullPath, if_neg (by simpa using path)]
    exact isTree.locate?_join_path rooted (by rw [found]; rfl) named none

include listed

theorem exists_stands {file : TreeFile} (mem : file ∈ tree) :
    ∃ rel f, Stands w root place file rel f ∧
      ∃ ext ∈ extensions, Path.extension? (fullPath root file.path) = some ext := by
  rw [treeFiles?_eq_filter rooted listed] at mem
  obtain ⟨mem, kept⟩ := List.mem_filter.1 mem
  obtain ⟨⟨rel, f⟩, below, rfl⟩ := List.mem_map.1 mem
  obtain ⟨ext, isExt, known⟩ := (Option.any_eq_true ..).1 kept
  exact ⟨rel, f, stands_of_mem isTree rooted below, ext, by simpa using known, isExt⟩

theorem nodup_paths : (tree.map (·.path)).Nodup := by
  have below : (w.filesBelow place).Pairwise fun a b => Location.path a.1 ≠ Location.path b.1 := by
    have places : (w.filesBelow place).Pairwise fun a b => a.1 ≠ b.1 := by
      rw [filesBelow_eq, (List.mergeSort_perm _ _).pairwise_iff fun h => h.symm,
        List.pairwise_filterMap]
      refine (List.pairwise_map.1 isTree.distinct).imp fun {a b} differ x hx y hy same => differ ?_
      rw [fileBelow?_eq_some_iff] at hx hy
      rw [hx, hy, same]
    refine places.imp_of_mem fun ha hb differ same => differ ?_
    exact Location.path_injective (stands_of_mem isTree rooted ha).named
      (stands_of_mem isTree rooted hb).named same
  rw [treeFiles?_eq_filter rooted listed, List.Nodup, List.pairwise_map]
  refine List.Pairwise.filter _ (List.pairwise_map.2 ?_)
  exact below

end Tree

/-! ### The changed files -/

/-- A visit leaves a file on which nothing is left to do. -/
theorem Visit.current_of_idle {file : FileContext} {stored : List Char} {f : FileState}
    {renames : List Rename} (visit : Visit transforms file stored f renames)
    (idle : Idle transforms stored) : f.current = stored := by
  cases visit with
  | same | failed => rfl
  | retyped passes => exact (passes.of_idle idle).1

/-- A changed file has another text than it had, and it was not the support file. -/
theorem exists_of_mem_changed {c : String × List Char}
    (mem : c ∈ (run transforms tree).value.changed) :
    ∃ file ∈ tree, ∃ stored, file.path = c.1 ∧ file.text? = some stored ∧ c.2 ≠ stored ∧
      stored ≠ brandedSupport.toList := by
  rw [changed_run] at mem
  obtain ⟨f', kept, rfl⟩ := List.mem_map.1 mem
  obtain ⟨mem, changed⟩ := List.mem_filter.1 kept
  have changed : f'.current ≠ f'.stored := by simpa using changed
  have isDecoded : (f'.path, f'.stored) ∈ decoded tree := by
    rw [← map_filesAfter transforms tree]
    exact List.mem_map_of_mem mem
  obtain ⟨file, isFile, text⟩ := List.mem_filterMap.1 isDecoded
  obtain ⟨cs, text, same⟩ := Option.map_eq_some_iff.1 text
  obtain ⟨path, rfl⟩ := Prod.mk.inj same
  refine ⟨file, isFile, f'.stored, path, text, changed, fun support => changed ?_⟩
  have visits := transformAll_visits transforms tree
  obtain ⟨f, hf, followed⟩ := mem_filesAfter mem
  obtain ⟨context, renames, visit⟩ := visits.exists_visit f hf
  have stored : f'.stored = f.stored := by cases followed <;> rfl
  have untouched : f.current = f.stored := by
    refine visit.current_of_idle ?_
    rw [← stored, support]
    exact idle_brandedSupport transforms
  have keeps : KeepsNames f.current := by
    rw [untouched, ← stored, support]
    exact keepsNames_brandedSupport
  have drops : ∀ r ∈ (transformAll transforms tree).value.renames, DropsSuffix r :=
    fun r hr => (visits.safe r hr).toDropsSuffix
  obtain ⟨current, -⟩ := current_followed drops keeps followed
  rw [current, untouched, stored]

section Places

variable {extensions : List String} (isTree : w.IsTree) (rooted : w.locate? root = some place)
  (listed : treeFiles? extensions root w = some tree)

theorem mem_writtenTexts {t : Location × String} : t ∈ writtenTexts w root changed ↔
    ∃ c ∈ changed, w.locate? (fullPath root c.1) = some t.1 ∧ t.2 = String.ofList c.2 := by
  simp only [writtenTexts, List.mem_filterMap, Option.map_eq_some_iff]
  refine exists_congr fun c => and_congr_right fun _ => ⟨?_, ?_⟩
  · rintro ⟨loc, located, rfl⟩
    exact ⟨located, rfl⟩
  · rintro ⟨located, text⟩
    exact ⟨t.1, located, by rw [← text]⟩

include isTree rooted listed

/-- A changed file stands in the workspace with another text than it gets, which is not that of the
support file. -/
theorem exists_stands_of_changed {c : String × List Char}
    (mem : c ∈ (run transforms tree).value.changed) :
    ∃ file ∈ tree, ∃ rel f, Stands w root place file rel f ∧ file.path = c.1 ∧
      f.content ≠ .text (String.ofList c.2) ∧ f.content ≠ .text brandedSupport := by
  obtain ⟨file, isFile, stored, path, text, differs, notSupport⟩ := exists_of_mem_changed mem
  obtain ⟨rel, f, stands, -⟩ := exists_stands isTree rooted listed isFile
  have holds {t : String} (same : f.content = .text t) : stored = t.toList := by
    have isText := stands.text
    rw [text, same] at isText
    exact Option.some.inj isText
  refine ⟨file, isFile, rel, f, stands, path, fun same => differs ?_, fun same => notSupport ?_⟩
  · rw [holds same, String.toList_ofList]
  · exact holds same

theorem nodup_writtenTexts :
    ((writtenTexts w root (run transforms tree).value.changed).map (·.1)).Nodup := by
  have distinct := (nodup_paths isTree rooted listed).sublist
    (paths_changed_sublist transforms tree)
  rw [List.Nodup, List.pairwise_map, writtenTexts, List.pairwise_filterMap]
  refine (List.pairwise_map.1 distinct).imp_of_mem fun {c c'} mem mem' differ t ht t' ht' same =>
    differ ?_
  obtain ⟨loc, located, rfl⟩ := Option.map_eq_some_iff.1 ht
  obtain ⟨loc', located', rfl⟩ := Option.map_eq_some_iff.1 ht'
  obtain ⟨_, -, rel, _, stands, path, -⟩ := exists_stands_of_changed isTree rooted listed mem
  obtain ⟨_, -, rel', _, stands', path', -⟩ := exists_stands_of_changed isTree rooted listed mem'
  obtain rfl : loc = loc' := same
  rw [← path, stands.located] at located
  rw [← path', stands'.located] at located'
  have sameRel : rel = rel' :=
    List.append_cancel_left ((Option.some.inj located).trans (Option.some.inj located').symm)
  rw [← path, ← path', stands.path, stands'.path, sameRel]

end Places

section Example

/-- A directory with a file that becomes a branded string, one that is not UTF-8, and one with a
declaration that is not closed. -/
def mixedDirectory : Workspace :=
  ⟨[(["out"], .directory),
    (["out", "a.ts"], .file ⟨.text "export enum Kind \x7b A = \"a\" \x7d\n", false⟩),
    (["out", "b.ts"], .file ⟨.bytes [255], false⟩),
    (["out", "c.ts"], .file ⟨.text "enum Open \x7b\n", false⟩)]⟩

def mixedTree : List TreeFile :=
  [⟨"a.ts", some "export enum Kind \x7b A = \"a\" \x7d\n".toList⟩, ⟨"b.ts", none⟩,
    ⟨"c.ts", some "enum Open \x7b\n".toList⟩]

theorem isTree_mixedDirectory : mixedDirectory.IsTree := by decide +kernel

theorem treeFiles?_mixedDirectory :
    treeFiles? ["ts"] "out" mixedDirectory = some mixedTree := by
  have located : mixedDirectory.locate? "out" = some ["out"] := by decide +kernel
  have below : mixedDirectory.filesBelow ["out"] =
      [(["a.ts"], ⟨.text "export enum Kind \x7b A = \"a\" \x7d\n", false⟩),
        (["b.ts"], ⟨.bytes [255], false⟩), (["c.ts"], ⟨.text "enum Open \x7b\n", false⟩)] :=
    List.mergeSort_of_pairwise (by decide)
  rw [treeFiles?, located]
  change some (((mixedDirectory.filesBelow ["out"]).map _).filter _) = some mixedTree
  rw [below]
  refine congrArg some (List.filter_eq_self.2 fun f hf => ?_)
  revert f
  decide +kernel

theorem postprocess_mixedDirectory : ∃ report w',
    ((postprocess ⟨true, []⟩ "out" (defaultTransforms 1 .branded) {}).outcome
      mixedDirectory).value = (.ok report, w') ∧
    report.failed = ["b.ts", "c.ts"] ∧ report.support = ["branded.ts"] := by
  have facts : ((postprocess ⟨true, []⟩ "out" (defaultTransforms 1 .branded) {}).outcome
      mixedDirectory).value.1.toOption.map (fun r => (r.failed, r.support)) =
        some (["b.ts", "c.ts"], ["branded.ts"]) := by
    unfold postprocess
    rw [Action.value_outcome_bind (congrArg Logged.value (Action.outcome_look _ _)),
      treeFiles?_mixedDirectory]
    decide +kernel
  obtain ⟨report, result, facts⟩ := Option.map_eq_some_iff.1 facts
  obtain ⟨failed, support⟩ := Prod.mk.inj facts
  exact ⟨report, _, Prod.ext (mem_toOption.1 result) rfl, failed, support⟩

end Example

end Retyping

end OpenApiModels
