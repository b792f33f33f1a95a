import OpenApiModels.Proofs.Retyping.TreeRuns

/-!
# What a run writes and reports

A file has other contents behind a run exactly if the report lists it as changed or as a support
file (`Finishes.contentAt?_ne_iff`). A file that fails is left as it is, and leaves no trace in what
becomes of the others (`Progress.over_kept`). All of it is put together in `writes_reported`.
-/

namespace OpenApiModels.Retyping

open Workspace Postprocess TypeScript

variable {transforms : List Transform} {tree : List TreeFile} {stored : List Char}

/-! ### Files that fail -/

/-- A file adds itself to a run, and nothing else if a transform fails on it. What it adds depends
on the files before it only through what these have added. -/
theorem Progress.step_files (transforms : List Transform) (p : Progress) (path : String)
    (stored : List Char) : ∃ f : FileState, f.path = path ∧ f.stored = stored ∧
      (f.failed = true →
        (p.step transforms path stored).value = { p with files := p.files ++ [f] }) ∧
      ∀ fs : List FileState, ({ p with files := fs }.step transforms path stored).value =
        { (p.step transforms path stored).value with files := fs ++ [f] } := by
  simp only [Progress.value_step]
  rcases (transformFile transforms ⟨path, p.treeNames⟩ stored).value with e | found
  · exact ⟨⟨path, stored, stored, true⟩, rfl, rfl, fun _ => rfl, fun _ => rfl⟩
  · cases found with
    | none =>
      exact ⟨⟨path, stored, stored, false⟩, rfl, rfl, (fun found => nomatch found), fun _ => rfl⟩
    | some found =>
      exact ⟨⟨path, stored, found.1.text, false⟩, rfl, rfl, (fun found => nomatch found),
        fun _ => rfl⟩

/-- What a run finds is what it finds without the files that fail, whose names it knows anyway. -/
theorem Progress.over_kept (transforms : List Transform) (files : List (String × List Char))
    (p : Progress) (fs : List FileState) : ∃ new, (p.over transforms files).files = p.files ++ new ∧
      ({ p with files := fs } : Progress).over transforms
          ((new.filter fun f => !f.failed).map fun f => (f.path, f.stored)) =
        { p.over transforms files with files := fs ++ new.filter fun f => !f.failed } := by
  induction files generalizing p fs with
  | nil => exact ⟨[], (List.append_nil _).symm, by rw [List.filter_nil, List.append_nil]; rfl⟩
  | cons file files ih =>
    obtain ⟨f, rfl_path, rfl_stored, failing, steps⟩ := p.step_files transforms file.1 file.2
    have own : (p.step transforms file.1 file.2).value.files = p.files ++ [f] :=
      congrArg Progress.files (steps p.files)
    have onward : p.over transforms (file :: files) =
        (p.step transforms file.1 file.2).value.over transforms files := rfl
    cases failed : f.failed with
    | true =>
      have same := failing failed
      obtain ⟨new, isFiles, kept⟩ := ih (p.step transforms file.1 file.2).value fs
      refine ⟨f :: new, ?_, ?_⟩
      · rw [onward, isFiles, own, List.append_assoc]
        rfl
      · rw [List.filter_cons_of_neg (by simp [failed]), onward, ← kept, same]
    | false =>
      obtain ⟨new, isFiles, kept⟩ := ih (p.step transforms file.1 file.2).value (fs ++ [f])
      refine ⟨f :: new, ?_, ?_⟩
      · rw [onward, isFiles, own, List.append_assoc]
        rfl
      · rw [List.filter_cons_of_pos (by simp [failed]), List.map_cons, rfl_path, rfl_stored,
          onward, List.append_cons, ← kept, ← steps]
        rfl

/-- A run over a tree that leaves out the files that some transform fails on, although it knows the
names that they declare. -/
def withoutFailed (transforms : List Transform) (tree : List TreeFile) : Progress :=
  (startOf transforms tree).over transforms
    (((transformAll transforms tree).value.files.filter fun f => !f.failed).map fun f =>
      (f.path, f.stored))

theorem withoutFailed_eq (transforms : List Transform) (tree : List TreeFile) :
    withoutFailed transforms tree = { (transformAll transforms tree).value with
      files := (transformAll transforms tree).value.files.filter fun f => !f.failed } := by
  obtain ⟨new, isFiles, kept⟩ :=
    (startOf transforms tree).over_kept transforms (decoded tree) []
  rw [← transformAll_eq] at isFiles kept
  have isNew : (transformAll transforms tree).value.files = new := isFiles
  rw [withoutFailed, isNew]
  exact kept

theorem Visit.current_of_failed {file : FileContext} {f : FileState} {renames : List Rename}
    (visit : Visit transforms file stored f renames) (failed : f.failed = true) :
    f.current = stored := by
  cases visit with
  | same | failed => rfl
  | retyped => cases failed

/-- A file that fails keeps its text. -/
theorem current_of_failed {f : FileState} (mem : f ∈ (transformAll transforms tree).value.files)
    (failed : f.failed = true) : f.current = f.stored := by
  obtain ⟨_, _, visit⟩ := (transformAll_visits transforms tree).exists_visit f mem
  exact visit.current_of_failed failed

theorem behind_of_failed {renames : List Rename} {f : FileState} (failed : f.failed = true) :
    f.behind renames = f := by
  unfold FileState.behind FileState.follow
  rw [if_pos failed]
  split <;> rfl

theorem changedFiles_filter {renames : List Rename} {fs : List FileState}
    (kept : ∀ f ∈ fs, f.failed = true → f.current = f.stored) :
    changedFiles ((fs.filter fun f => !f.failed).map (FileState.behind renames)) =
      changedFiles (fs.map (FileState.behind renames)) := by
  induction fs with
  | nil => rfl
  | cons f fs ih =>
    have later := ih fun g hg => kept g (List.mem_cons_of_mem _ hg)
    have split (gs : List FileState) : changedFiles ((f :: gs).map (FileState.behind renames)) =
        changedFiles [f.behind renames] ++ changedFiles (gs.map (FileState.behind renames)) :=
      changedFiles_append [f.behind renames] _
    cases failed : f.failed with
    | true =>
      have same := kept f List.mem_cons_self failed
      have none : changedFiles [f.behind renames] = [] := by
        rw [behind_of_failed failed]
        simp [changedFiles, same]
      rw [List.filter_cons_of_neg (by simp [failed]), later, split, none, List.nil_append]
    | false => rw [List.filter_cons_of_pos (by simp [failed]), split, later, split]

/-- The files that fail take no part in what becomes of the others. -/
theorem changed_withoutFailed (transforms : List Transform) (tree : List TreeFile) :
    (run transforms tree).value.changed =
      changedFiles (withoutFailed transforms tree).follow.value := by
  rw [changed_eq, Progress.value_follow, withoutFailed_eq]
  exact (changedFiles_filter fun f mem failed => current_of_failed mem failed).symm

/-- A file that fails is not among the changed ones. -/
theorem not_mem_changed_of_failed (distinct : (tree.map (·.path)).Nodup) {path : String}
    (failed : path ∈ (run transforms tree).value.failed) :
    path ∉ (run transforms tree).value.changed.map (·.1) := by
  intro changed
  obtain ⟨c, mem, rfl⟩ := List.mem_map.1 changed
  rcases List.mem_append.1 (show c.1 ∈ ((tree.filter fun f => f.text?.isNone).map (·.path)) ++
    ((transformAll transforms tree).value.files.filter (·.failed)).map (·.path) from failed) with
    undecodable | failing
  · obtain ⟨file, isFile, _, path, text, -⟩ := exists_of_mem_changed mem
    obtain ⟨other, isOther, path'⟩ := List.mem_map.1 undecodable
    obtain ⟨isOther, none⟩ := List.mem_filter.1 isOther
    obtain rfl := List.inj_on_of_nodup_map distinct isFile isOther (path.trans path'.symm)
    rw [text] at none
    cases none
  · obtain ⟨f, inFailing, path⟩ := List.mem_map.1 failing
    obtain ⟨isFile, fails⟩ := List.mem_filter.1 inFailing
    rw [changed_eq] at mem
    obtain ⟨f', kept, rfl⟩ := List.mem_map.1 mem
    obtain ⟨isAfter, differs⟩ := List.mem_filter.1 kept
    obtain ⟨g, isFile', rfl⟩ := List.mem_map.1 isAfter
    have paths : ((transformAll transforms tree).value.files.map (·.path)).Nodup := by
      have all := (transformAll_visits transforms tree).map_eq
      have sub := paths_decoded_sublist tree
      rw [← all, List.map_map] at sub
      exact distinct.sublist sub
    have same : f = g := by
      refine List.inj_on_of_nodup_map paths isFile isFile' (path.trans ?_)
      rw [FileState.behind_eq]
    subst same
    rw [behind_of_failed fails, current_of_failed isFile fails] at differs
    simp at differs

/-! ### Contents behind a run -/

variable {w w' : Workspace} {root : String} {place loc : Location} {report : PostprocessReport}
  {extensions : List String}

namespace Finishes

variable (h : Finishes transforms tree root place w w' report)

include h

/-- Nothing but the changed files and the support file is written. -/
theorem find?_of_ne (others : ∀ t ∈ writtenTexts w root (run transforms tree).value.changed,
    loc ≠ t.1) (ne : loc ≠ supportPlace place) : w'.find? loc = w.find? loc := by
  by_cases plain : (run transforms tree).value.changed = [] ∨
      (run transforms tree).value.support = []
  · rw [(h.plain plain).2, find?_setTexts_of_ne others]
  · rw [not_or] at plain
    rw [(h.supported plain.1 plain.2).written, find?_setText_of_ne ne, find?_setTexts_of_ne others]

/-- Directories stay directories, and no others are made. -/
theorem isDirectoryAt_eq (loc : Location) : w'.isDirectoryAt loc = w.isDirectoryAt loc := by
  by_cases plain : (run transforms tree).value.changed = [] ∨
      (run transforms tree).value.support = []
  · rw [(h.plain plain).2, isDirectoryAt_setTexts h.free]
  · rw [not_or] at plain
    have supported := h.supported plain.1 plain.2
    rw [supported.written, isDirectoryAt_setText supported.free, isDirectoryAt_setTexts h.free]

theorem mem_changed_iff : (∃ path ∈ report.changed, w.locate? (fullPath root path) = some loc) ↔
    loc ∈ (writtenTexts w root (run transforms tree).value.changed).map (·.1) := by
  rw [h.changed]
  constructor
  · rintro ⟨path, isChanged, located⟩
    obtain ⟨c, mem, rfl⟩ := List.mem_map.1 isChanged
    exact List.mem_map.2 ⟨(loc, String.ofList c.2), mem_writtenTexts.2 ⟨c, mem, located, rfl⟩, rfl⟩
  · intro isPlace
    obtain ⟨t, isText, rfl⟩ := List.mem_map.1 isPlace
    obtain ⟨c, mem, located, -⟩ := mem_writtenTexts.1 isText
    exact ⟨c.1, List.mem_map_of_mem mem, located⟩

variable (isTree : w.IsTree) (rooted : w.locate? root = some place)
  (listed : treeFiles? extensions root w = some tree)

include isTree rooted listed

omit h in
/-- What a changed file gets differs from what it had, which was not the support file. -/
theorem contentAt?_written {t : Location × String}
    (mem : t ∈ writtenTexts w root (run transforms tree).value.changed) :
    ∃ f, w.find? t.1 = some (.file f) ∧ f.content ≠ .text t.2 ∧
      f.content ≠ .text brandedSupport := by
  obtain ⟨c, mem, located, text⟩ := mem_writtenTexts.1 mem
  obtain ⟨file, -, rel, f, stands, path, differs, notSupport⟩ :=
    exists_stands_of_changed isTree rooted listed mem
  rw [← path, stands.located] at located
  rw [← Option.some.inj located, text]
  exact ⟨f, stands.found, differs, notSupport⟩

/-- The changed files alone differ where they are written. -/
theorem contentAt?_setTexts_ne_iff :
    (w.setTexts (writtenTexts w root (run transforms tree).value.changed)).contentAt? loc ≠
      w.contentAt? loc ↔
    loc ∈ (writtenTexts w root (run transforms tree).value.changed).map (·.1) := by
  constructor
  · intro differ
    by_contra other
    refine differ (contentAt?_congr (find?_setTexts_of_ne (fun t ht same => other ?_) w))
    exact List.mem_map.2 ⟨t, ht, same.symm⟩
  · intro isPlace
    obtain ⟨t, mem, rfl⟩ := List.mem_map.1 isPlace
    obtain ⟨f, found, differs, -⟩ := contentAt?_written isTree rooted listed mem
    rw [contentAt?_setTexts_of_mem (nodup_writtenTexts isTree rooted listed)
      (fun t ht => ne_nil_of_free (h.free t ht)) mem, contentAt?_of_find? found]
    exact fun same => differs (Option.some.inj same).symm

/-- A file has other contents behind a run exactly if the report lists it. -/
theorem contentAt?_ne_iff : w'.contentAt? loc ≠ w.contentAt? loc ↔
    ∃ path ∈ report.changed ++ report.support, w.locate? (fullPath root path) = some loc := by
  have changes : (w.setTexts (writtenTexts w root (run transforms tree).value.changed)).contentAt?
      loc ≠ w.contentAt? loc ↔
        loc ∈ (writtenTexts w root (run transforms tree).value.changed).map (·.1) :=
    h.contentAt?_setTexts_ne_iff isTree rooted listed
  simp only [List.mem_append, or_and_right, exists_or, h.mem_changed_iff]
  by_cases plain : (run transforms tree).value.changed = [] ∨
      (run transforms tree).value.support = []
  · obtain ⟨none, written⟩ := h.plain plain
    rw [written, changes, none]
    simp
  rw [not_or] at plain
  obtain ⟨located, free, written, reported⟩ := h.supported plain.1 plain.2
  have place' : w.locate? (fullPath root brandedFile) = some (supportPlace place) := by
    rw [locate?_setTexts h.free] at located
    exact located
  have listed_support : (∃ path ∈ report.support, w.locate? (fullPath root path) = some loc) ↔
      loc = supportPlace place ∧
        (w.setTexts (writtenTexts w root (run transforms tree).value.changed)).contentAt?
          (supportPlace place) ≠ some (.text brandedSupport) := by
    rw [reported, ite_cond_congr (propext (readText_iff located))]
    split
    · rename_i holds
      simp [holds]
    · rename_i holds
      simp only [List.mem_singleton, exists_eq_left, place', Option.some.injEq]
      exact ⟨fun same => ⟨same.symm, holds⟩, fun same => same.1.symm⟩
  rw [listed_support, written]
  by_cases here : loc = supportPlace place
  · subst here
    rw [contentAt?_setText_self (supportPlace_ne_nil place)]
    by_cases mem : supportPlace place ∈
        (writtenTexts w root (run transforms tree).value.changed).map (·.1)
    · obtain ⟨t, isText, at_place⟩ := List.mem_map.1 mem
      obtain ⟨f, found, -, notSupport⟩ := contentAt?_written isTree rooted listed isText
      rw [at_place] at found
      rw [contentAt?_of_find? found]
      exact iff_of_true (fun same => notSupport (Option.some.inj same).symm) (.inl mem)
    · have same := not_not.1 (mt changes.1 mem)
      rw [same]
      simp [mem, eq_comm]
  · rw [contentAt?_congr (find?_setText_of_ne here _), changes]
    simp [here]

/-- A file that fails is left as it is, unless it stands in the place of the support file. -/
theorem find?_of_failed {path : String} (failed : path ∈ report.failed) (ne : path ≠ brandedFile) :
    ∃ loc f, w.locate? (fullPath root path) = some loc ∧ w.find? loc = some (.file f) ∧
      w'.find? loc = some (.file f) := by
  rw [h.failed] at failed
  obtain ⟨file, isFile, rfl⟩ : ∃ file ∈ tree, file.path = path := by
    rcases List.mem_append.1 (show path ∈ ((tree.filter fun f => f.text?.isNone).map (·.path)) ++
      ((transformAll transforms tree).value.files.filter (·.failed)).map (·.path) from failed) with
      undecodable | failing
    · obtain ⟨file, kept, path⟩ := List.mem_map.1 undecodable
      exact ⟨file, (List.mem_filter.1 kept).1, path⟩
    · obtain ⟨f, kept, rfl⟩ := List.mem_map.1 failing
      refine List.mem_map.1 ((paths_decoded_sublist tree).subset ?_)
      rw [← (transformAll_visits transforms tree).map_eq, List.map_map]
      exact List.mem_map_of_mem (List.mem_filter.1 kept).1
  obtain ⟨rel, f, stands, -⟩ := exists_stands isTree rooted listed isFile
  refine ⟨place ++ rel, f, stands.located, stands.found, (h.find?_of_ne ?_ ?_).trans stands.found⟩
  · intro t isText same
    refine not_mem_changed_of_failed (nodup_paths isTree rooted listed) failed ?_
    obtain ⟨c, isChanged, located, -⟩ := mem_writtenTexts.1 isText
    obtain ⟨other, -, rel', _, stands', path', -⟩ :=
      exists_stands_of_changed isTree rooted listed isChanged
    rw [← path', stands'.located, Option.some.injEq, ← same] at located
    obtain rfl := List.append_cancel_left located
    rw [stands.path, ← stands'.path, path']
    exact List.mem_map_of_mem isChanged
  · intro same
    refine ne ?_
    rw [stands.path, List.append_cancel_left same]
    rfl

/-- Apart from the support file, no file is written that has another extension. -/
theorem find?_of_extension (ne : loc ≠ supportPlace place)
    (other : ∀ rel, loc = place ++ rel → ∀ ext ∈ extensions,
      Path.extension? (fullPath root (Location.path rel)) ≠ some ext) :
    w'.find? loc = w.find? loc := by
  refine h.find?_of_ne (fun t isText same => ?_) ne
  obtain ⟨c, isChanged, located, -⟩ := mem_writtenTexts.1 isText
  obtain ⟨file, isFile, -, -, -, path, -⟩ :=
    exists_stands_of_changed isTree rooted listed isChanged
  obtain ⟨rel, f, stands, ext, isExtension, extension⟩ := exists_stands isTree rooted listed isFile
  rw [← path, stands.located, Option.some.injEq, ← same] at located
  rw [stands.path] at extension
  exact other rel located.symm ext isExtension extension

/-- Apart from the support file, nothing is made and nothing is removed. -/
theorem isSome_find? (ne : loc ≠ supportPlace place) :
    (w'.find? loc).isSome = (w.find? loc).isSome := by
  have files : ∀ t ∈ writtenTexts w root (run transforms tree).value.changed, w.HasFile t.1 := by
    intro t isText
    obtain ⟨f, found, -⟩ := contentAt?_written isTree rooted listed isText
    exact ⟨f, found⟩
  rw [← isSome_find?_setTexts files loc]
  by_cases plain : (run transforms tree).value.changed = [] ∨
      (run transforms tree).value.support = []
  · rw [(h.plain plain).2]
  · rw [not_or] at plain
    rw [(h.supported plain.1 plain.2).written, find?_setText_of_ne ne]

end Finishes

/-! ### The whole report -/

/-- What a run writes is what it reports, and files that fail take no part in it. -/
structure WritesReported (transforms : List Transform) (tree : List TreeFile)
    (extensions : List String) (root : String) (place : Location) (w w' : Workspace)
    (report : PostprocessReport) : Prop where
  /-- Exactly the listed files have other contents than before. -/
  listed : ∀ loc, w'.contentAt? loc ≠ w.contentAt? loc ↔
    ∃ path ∈ report.changed ++ report.support, w.locate? (fullPath root path) = some loc
  /-- The files that are not UTF-8 and those that a transform fails on. -/
  failed : report.failed = (tree.filter fun f => f.text?.isNone).map (·.path) ++
    ((transformAll transforms tree).value.files.filter (·.failed)).map (·.path)
  untouched : ∀ path ∈ report.failed, path ≠ brandedFile →
    ∃ loc f, w.locate? (fullPath root path) = some loc ∧ w.find? loc = some (.file f) ∧
      w'.find? loc = some (.file f)
  /-- Renames, support files, hits and all other files are those of the run without the files that
  fail. -/
  leftOut : withoutFailed transforms tree = { (transformAll transforms tree).value with
    files := (transformAll transforms tree).value.files.filter fun f => !f.failed }
  hits : report.hits = (withoutFailed transforms tree).hits
  changed : (run transforms tree).value.changed =
    changedFiles (withoutFailed transforms tree).follow.value
  changedPaths : report.changed =
    (changedFiles (withoutFailed transforms tree).follow.value).map (·.1)
  support : (withoutFailed transforms tree).support = [] → report.support = []
  extension : ∀ loc, loc ≠ supportPlace place → (∀ rel, loc = place ++ rel → ∀ ext ∈ extensions,
    Path.extension? (fullPath root (Location.path rel)) ≠ some ext) → w'.find? loc = w.find? loc
  entries : ∀ loc, loc ≠ supportPlace place →
    (w'.find? loc).isSome = (w.find? loc).isSome ∧ w'.isDirectoryAt loc = w.isDirectoryAt loc

theorem writes_reported {host : Script.Host} {options : PostprocessOptions}
    (isTree : w.IsTree) (unformatted : options.formatter = [])
    (ok : ((postprocess host root transforms options).outcome w).value = (.ok report, w')) :
    ∃ place tree, w.locate? root = some place ∧ treeFiles? options.extensions root w = some tree ∧
      WritesReported transforms tree options.extensions root place w w' report := by
  obtain ⟨place, tree, rooted, listed, finishes⟩ := finishes_of_postprocess unformatted ok
  refine ⟨place, tree, rooted, listed, ?_⟩
  have leftOut := withoutFailed_eq transforms tree
  have changed := changed_withoutFailed transforms tree
  exact
    { listed := fun loc => finishes.contentAt?_ne_iff isTree rooted listed
      failed := finishes.failed
      untouched := fun path => finishes.find?_of_failed isTree rooted listed
      leftOut
      hits := by rw [finishes.hits, leftOut]; rfl
      changed
      changedPaths := by rw [finishes.changed, changed]
      support := fun none => (finishes.plain (.inr (by rw [leftOut] at none; exact none))).1
      extension := fun loc => finishes.find?_of_extension isTree rooted listed
      entries := fun loc ne =>
        ⟨finishes.isSome_find? isTree rooted listed ne, finishes.isDirectoryAt_eq loc⟩ }

theorem writes_reported_mixed : ∃ report w' place,
    ((postprocess ⟨true, []⟩ "out" (defaultTransforms 1 .branded) {}).outcome
      mixedDirectory).value = (.ok report, w') ∧
    report.failed = ["b.ts", "c.ts"] ∧ report.support = ["branded.ts"] ∧
    WritesReported (defaultTransforms 1 .branded) mixedTree ["ts"] "out" place mixedDirectory w'
      report := by
  obtain ⟨report, w', ok, failed, support⟩ := postprocess_mixedDirectory
  obtain ⟨place, tree, -, listed, written⟩ := writes_reported isTree_mixedDirectory rfl ok
  obtain rfl := Option.some.inj (listed.symm.trans treeFiles?_mixedDirectory)
  exact ⟨report, w', place, ok, failed, support, written⟩

end OpenApiModels.Retyping
