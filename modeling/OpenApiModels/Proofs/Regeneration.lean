import OpenApiModels.Proofs.Retyping.Postprocessing
import OpenApiModels.Proofs.Spec.ContentChecksum

/-!
# Generating again

Models are generated into a directory without files and postprocessed there. Both once more lead to
the same workspace (`regenerated`): the files of the models are written over, and the support file,
which the second run finds in the tree, takes no name from an enum.
-/

namespace OpenApiModels

open Generation Postprocess Retyping Workspace

-- Locations are ordered by the core library, whatever else is imported.
attribute [local instance (high)] List.instLE

variable {w : Workspace} {root loc : Location} {f : File} {texts : List (Location × String)}

/-! ### Entries -/

theorem mem_entries_setTexts {e : Location × Entry} (h : e ∈ (w.setTexts texts).entries) :
    e ∈ w.entries ∨ e.1 ∈ texts.map (·.1) := by
  induction texts generalizing w with
  | nil => exact .inl h
  | cons t texts ih =>
    rcases ih h with before | later
    · rcases Keyed.eq_or_mem_of_mem_put before with rfl | old
      · exact .inr List.mem_cons_self
      · exact .inl old
    · exact .inr (List.mem_cons_of_mem _ later)

theorem nodup_setTexts (h : (w.entries.map (·.1)).Nodup) :
    ((w.setTexts texts).entries.map (·.1)).Nodup := by
  induction texts generalizing w with
  | nil => exact h
  | cons t texts ih => exact ih (Keyed.nodup_keys_put h)

/-! ### The generated directory -/

/-- A directory that has the files of the models and no others. -/
structure Generated (w : Workspace) (output : String) (root : Location)
    (files : List (String × String)) : Prop where
  output : IsOutput w output root
  models : w.isDirectoryAt (directoryOf root) = true
  names : ∀ f ∈ files, IsFileName f.1
  fits : ∀ f ∈ files, Fits w root f.1
  written : w.setTexts (textsOf root files) = w
  only : ∀ rel f, (rel, f) ∈ w.filesBelow root → ∃ g ∈ files, rel = ["models", g.1 ++ ".ts"]
  distinct : (w.entries.map (·.1)).Nodup

variable {output : String} {files : List (String × String)} {w₁ : Workspace}

theorem ne_nil_of_mem_textsOf : ∀ t ∈ textsOf root files, t.1 ≠ [] := by
  intro t ht
  obtain ⟨g, -, rfl⟩ := List.mem_map.1 ht
  exact placeOf_ne_nil root g.1

theorem generated_of_written (h : IsOutput w output root) (empty : w.filesBelow root = [])
    (distinct : (w.entries.map (·.1)).Nodup) (names : ∀ f ∈ files, IsFileName f.1)
    (fits : ∀ f ∈ files, Fits (withDirectory root w) root f.1)
    (isWritten : w₁ = (withDirectory root w).setTexts (textsOf root files)) :
    Generated w₁ output root files := by
  have taken : ∀ t ∈ textsOf root files, (withDirectory root w).isDirectoryAt t.1 = false := by
    intro t ht
    obtain ⟨g, hg, rfl⟩ := List.mem_map.1 ht
    exact (fits g hg).free
  have same := isDirectoryAt_setTexts taken
  have models := find?_withDirectory_self root w
  have distinct' : ((withDirectory root w).entries.map (·.1)).Nodup := by
    unfold withDirectory
    split
    · exact distinct
    · exact Keyed.nodup_keys_put distinct
  subst isWritten
  refine ⟨h.withDirectory.setTexts taken, (same _).trans models, names, fun g hg => ?_,
    setTexts_again ne_nil_of_mem_textsOf _, fun rel f hf => ?_, nodup_setTexts distinct'⟩
  · refine ⟨fun file => ?_, (fits g hg).short, (same _).trans (fits g hg).free⟩
    have directory := (same (directoryOf root)).trans models
    rw [file.not_isDirectoryAt] at directory
    cases directory
  · rcases mem_entries_setTexts (mem_filesBelow.1 hf) with before | new
    · have old : (root ++ rel, Entry.file f) ∈ w.entries := by
        unfold withDirectory at before
        split at before
        · exact before
        · rcases Keyed.eq_or_mem_of_mem_put before with same | old
          · cases (Prod.mk.inj same).2
          · exact old
      rw [← mem_filesBelow, empty] at old
      cases old
    · obtain ⟨t, ht, place⟩ := List.mem_map.1 new
      obtain ⟨g, hg, rfl⟩ := List.mem_map.1 ht
      exact ⟨g, hg, List.append_cancel_left place.symm⟩

/-- A file outside of the directory is found as before. -/
theorem kept_of_written (fits : ∀ f ∈ files, Fits (withDirectory root w) root f.1)
    (isWritten : w₁ = (withDirectory root w).setTexts (textsOf root files)) {path : String}
    (located : w.locate? path = some loc) (found : w.find? loc = some (.file f))
    (outside : ∀ rel, loc ≠ root ++ rel) :
    w₁.locate? path = some loc ∧ w₁.find? loc = some (.file f) := by
  have taken : ∀ t ∈ textsOf root files, (withDirectory root w).isDirectoryAt t.1 = false := by
    intro t ht
    obtain ⟨g, hg, rfl⟩ := List.mem_map.1 ht
    exact (fits g hg).free
  have others : ∀ t ∈ textsOf root files, loc ≠ t.1 := by
    intro t ht
    obtain ⟨g, -, rfl⟩ := List.mem_map.1 ht
    exact outside _
  subst isWritten
  refine ⟨?_, ?_⟩
  · rw [locate?_setTexts taken]
    exact locate?_mono (fun _ => isDirectoryAt_withDirectory) located
  · rw [find?_setTexts_of_ne others, find?_withDirectory_of_ne (outside _)]
    exact found

/-! ### Its tree -/

def treeFileOf (e : Location × File) : TreeFile :=
  ⟨Location.path e.1, e.2.content.text?.map String.toList⟩

def isScript (output : String) (file : TreeFile) : Bool :=
  (Path.extension? (fullPath output file.path)).any fun ext => ["ts"].contains ext

variable {tree : List TreeFile} {transforms : List Transform}

theorem treeFiles?_eq (h : IsOutput w output root) :
    treeFiles? ["ts"] output w =
      some (((w.filesBelow root).map treeFileOf).filter (isScript output)) := by
  have directory : w.find? root = some .directory := by
    simpa [isDirectoryAt] using h.directory
  rw [treeFiles?, h.located, Option.bind_eq_bind, Option.bind_some, directory]
  rfl

theorem Generated.path_of_mem_tree (h : Generated w output root files)
    (listed : treeFiles? ["ts"] output w = some tree) :
    ∀ file ∈ tree, ∃ g ∈ files, file.path = modelPath g.1 := by
  rw [treeFiles?_eq h.output] at listed
  obtain rfl := Option.some.inj listed
  intro file hfile
  obtain ⟨⟨rel, f⟩, below, rfl⟩ := List.mem_map.1 (List.mem_filter.1 hfile).1
  obtain ⟨g, hg, rfl⟩ := h.only rel f below
  exact ⟨g, hg, path_place g.1⟩

theorem Generated.inModels (h : Generated w output root files)
    (listed : treeFiles? ["ts"] output w = some tree) (transforms : List Transform) :
    InModels w root (run transforms tree).value.changed := by
  intro c hc
  obtain ⟨file, hfile, path⟩ := path_of_mem_changed hc
  obtain ⟨g, hg, isPath⟩ := h.path_of_mem_tree listed file hfile
  exact ⟨g.1, h.names g hg, path.symm.trans isPath, h.fits g hg⟩

theorem Generated.mem_changedTexts (h : Generated w output root files)
    (listed : treeFiles? ["ts"] output w = some tree) (transforms : List Transform) :
    ∀ t ∈ changedTexts root (run transforms tree).value.changed,
      t.1 ∈ (textsOf root files).map (·.1) := by
  intro t ht
  obtain ⟨c, hc, rfl⟩ := List.mem_map.1 ht
  obtain ⟨file, hfile, path⟩ := path_of_mem_changed hc
  obtain ⟨g, hg, isPath⟩ := h.path_of_mem_tree listed file hfile
  refine List.mem_map.2 ⟨_, List.mem_map_of_mem hg, ?_⟩
  rw [← path, isPath, (h.names g hg).parts_modelPath]
  rfl

theorem supportPlace_ne_placeOf (name : String) : supportPlace root ≠ placeOf root name := by
  intro same
  have lengths := congrArg List.length (List.append_cancel_left same)
  simp at lengths

theorem Generated.not_hasFile_support (h : Generated w output root files) :
    ¬ w.HasFile (supportPlace root) := by
  rintro ⟨f, found⟩
  have listed := mem_filesBelow.2 (mem_of_find? found (ne_nil_of_find? found))
  obtain ⟨g, -, same⟩ := h.only [brandedFile] f listed
  have lengths := congrArg List.length same
  simp at lengths

theorem isScript_support (named : output ≠ "") (text? : Option (List Char)) :
    isScript output ⟨brandedFile, text?⟩ = true := by
  have isPath : fullPath output brandedFile = Path.join output brandedFile := if_neg (by decide)
  have relative : Path.isAbsolute brandedFile = false := by decide
  have last : (Path.components (Path.join output brandedFile)).getLast? = some brandedFile := by
    have isPart : Path.parts brandedFile = [brandedFile] := by decide
    have kept : [brandedFile].filter (fun p => p != "" && p != ".") = [brandedFile] := by decide
    unfold Path.components
    rw [Path.parts_join named relative, isPart, List.filter_append, kept]
    dsimp only
    split
    · simp
    · split <;> simp
  rw [isScript, isPath, Path.extension?, last]
  decide

/-- The support file is met in between the files of the models. -/
theorem Generated.filesBelow_support (h : Generated w output root files)
    (new : w.find? (supportPlace root) = none) :
    ∃ before after, w.filesBelow root = before ++ after ∧
      (w.setText (supportPlace root) brandedSupport).filesBelow root =
        before ++ ([brandedFile], ⟨.text brandedSupport, false⟩) :: after ∧
      ∀ e ∈ before, ¬ [brandedFile] ≤ e.1 := by
  have absent : supportPlace root ∉ w.entries.map (·.1) := by
    intro mem
    obtain ⟨e, he, same⟩ := List.mem_map.1 mem
    rw [find?, if_neg (supportPlace_ne_nil root), List.lookup_eq_none_iff] at new
    simpa [same] using new e he
  have added : w.setText (supportPlace root) brandedSupport =
      ⟨w.entries ++ [(supportPlace root, .file ⟨.text brandedSupport, false⟩)]⟩ := by
    have noKey : Keyed.hasKey (supportPlace root) w.entries = false := by
      rw [Keyed.hasKey_eq_false_iff]
      exact fun e he same => absent (same ▸ List.mem_map_of_mem he)
    rw [setText, fileAt?, new, put, Keyed.put_of_not_hasKey noKey]
    rfl
  rw [added]
  exact filesBelow_append h.distinct absent _

theorem isDirectoryAt_of_new (new : w.find? loc = none) : w.isDirectoryAt loc = false := by
  rw [isDirectoryAt, new]
  rfl

theorem Generated.listed_support (h : Generated w output root files)
    (new : w.find? (supportPlace root) = none)
    (listed : treeFiles? ["ts"] output w = some tree) :
    ∃ before after, tree = before ++ after ∧
      treeFiles? ["ts"] output (w.setText (supportPlace root) brandedSupport) =
        some (before ++ ⟨brandedFile, some brandedSupport.toList⟩ :: after) := by
  obtain ⟨before, after, below, below', -⟩ := h.filesBelow_support new
  rw [treeFiles?_eq h.output, below] at listed
  obtain rfl := Option.some.inj listed
  have script : isScript output (treeFileOf ([brandedFile], ⟨.text brandedSupport, false⟩)) :=
    isScript_support (usable_of_locate? h.output.located).named _
  refine ⟨(before.map treeFileOf).filter (isScript output),
    (after.map treeFileOf).filter (isScript output), ?_, ?_⟩
  · rw [List.map_append, List.filter_append]
  · rw [treeFiles?_eq (h.output.setText (isDirectoryAt_of_new new)), below', List.map_append,
      List.filter_append, List.map_cons, List.filter_cons_of_pos script]
    rfl

/-! ### Both once more -/

theorem Generated.hasFile (h : Generated w output root files) :
    ∀ t ∈ textsOf root files, w.HasFile t.1 := by
  intro t ht
  rw [← h.written]
  exact hasFile_setTexts ne_nil_of_mem_textsOf t ht

/-- The models are written over, and the support file is left. -/
theorem Generated.setTexts_afterRun (h : Generated w output root files)
    (listed : treeFiles? ["ts"] output w = some tree) :
    (afterRun transforms tree root w).setTexts (textsOf root files) =
      if (run transforms tree).value.changed = [] ∨ (run transforms tree).value.support = [] then w
      else w.setText (supportPlace root) brandedSupport := by
  have back := setTexts_setTexts (h.mem_changedTexts listed transforms) h.hasFile
  unfold afterRun
  dsimp only
  split
  · rw [back, h.written]
  · have others : ∀ t ∈ textsOf root files, t.1 ≠ supportPlace root := by
      intro t ht
      obtain ⟨g, -, rfl⟩ := List.mem_map.1 ht
      exact (supportPlace_ne_placeOf g.1).symm
    rw [setTexts_comm others fun t ht => (h.hasFile t ht).setTexts _, back, h.written]

theorem Generated.isDirectoryAt_afterRun (h : Generated w output root files)
    (listed : treeFiles? ["ts"] output w = some tree) (fits : SupportFits w root transforms tree)
    (loc : Location) :
    (afterRun transforms tree root w).isDirectoryAt loc = w.isDirectoryAt loc := by
  have same := isDirectoryAt_setTexts (free_of_mem_changedTexts (h.inModels listed transforms))
  unfold afterRun
  dsimp only
  split
  · exact same loc
  · rename_i needed
    obtain ⟨changed, support⟩ := not_or.1 needed
    have free := (same (supportPlace root)).trans (fits changed support)
    exact (isDirectoryAt_setText free _ loc).trans (same loc)

/-- A file outside of the directory is found behind a run as before. -/
theorem Generated.readText_afterRun (h : Generated w output root files)
    (listed : treeFiles? ["ts"] output w = some tree) (fits : SupportFits w root transforms tree)
    {input text : String} (located : w.locate? input = some loc)
    (found : w.find? loc = some (.file f)) (content : f.content = .text text)
    (outside : ∀ rel, loc ≠ root ++ rel) :
    (afterRun transforms tree root w).readText input = .ok text := by
  have same := h.isDirectoryAt_afterRun listed fits
  have located' : (afterRun transforms tree root w).locate? input = some loc := by
    rw [locate?, follow_congr same]
    exact located
  have others : ∀ t ∈ changedTexts root (run transforms tree).value.changed, loc ≠ t.1 := by
    intro t ht
    obtain ⟨c, -, rfl⟩ := List.mem_map.1 ht
    exact outside _
  refine readText_of_find? located' ?_ content
  rw [find?_afterRun_of_ne (outside _), find?_setTexts_of_ne others, found]

/-- The second run comes to the same texts, and leaves the support file as it is. -/
theorem Generated.postprocess_again (h : Generated w output root files)
    (listed : treeFiles? ["ts"] output w = some tree) (host : Script.Host)
    (new : w.find? (supportPlace root) = none)
    (changed : (run transforms tree).value.changed ≠ [])
    (support : (run transforms tree).value.support ≠ [])
    (apart : RunStaysApart (treeNames [⟨brandedFile, some brandedSupport.toList⟩])
      transforms tree) :
    ∃ report, ((postprocess host output transforms {}).outcome
        (w.setText (supportPlace root) brandedSupport)).value =
      (.ok report, afterRun transforms tree root w) := by
  have free := isDirectoryAt_of_new new
  have same := isDirectoryAt_setText free brandedSupport
  obtain ⟨before, after, rfl, listed'⟩ := h.listed_support new listed
  obtain ⟨changes, supports⟩ :=
    run_beside (idle_brandedSupport transforms) keepsNames_brandedSupport apart
  have inside := h.inModels listed transforms
  have inside' : InModels (w.setText (supportPlace root) brandedSupport) root (run transforms
      (before ++ ⟨brandedFile, some brandedSupport.toList⟩ :: after)).value.changed := by
    rw [changes]
    intro c hc
    obtain ⟨name, isName, isPath, fits⟩ := inside c hc
    exact ⟨name, isName, isPath, fits.of_directories ((same _).trans h.models) (same _)⟩
  obtain ⟨report, ran⟩ := value_postprocess host (h.output.setText free)
    ((same _).trans h.models) inside' listed' fun _ _ => (same _).trans free
  refine ⟨report, ran.trans ?_⟩
  have needed : ¬ ((run transforms (before ++ after)).value.changed = [] ∨
      (run transforms (before ++ after)).value.support = []) := not_or.2 ⟨changed, support⟩
  have places := place_of_mem_changedTexts inside
  have files : ∀ t ∈ changedTexts root (run transforms (before ++ after)).value.changed,
      w.HasFile t.1 := by
    intro t ht
    obtain ⟨u, hu, same⟩ := List.mem_map.1 (h.mem_changedTexts listed transforms t ht)
    exact same ▸ h.hasFile u hu
  have others : ∀ t ∈ changedTexts root (run transforms (before ++ after)).value.changed,
      t.1 ≠ supportPlace root := by
    intro t ht
    obtain ⟨name, isPlace, -⟩ := places t ht
    rw [isPlace]
    exact (supportPlace_ne_placeOf name).symm
  unfold afterRun
  dsimp only
  rw [changes, supports, if_neg needed, if_neg needed, setTexts_comm others files,
    setText_setText (supportPlace_ne_nil root)]

variable {adapter : Adapter} {input : String} {comments : Bool} {w₂ : Workspace}
  {paths : List String} {report : PostprocessReport} {host : Script.Host}

/-- The files of the models are generated again, whatever a run made of them. -/
theorem generate_again (isOutput : IsOutput w output root) (empty : w.filesBelow root = [])
    (distinct : (w.entries.map (·.1)).Nodup)
    (generates : ((generate adapter input output (standard comments)).outcome w).value =
      (.ok paths, w₁))
    (listed : treeFiles? ["ts"] output w₁ = some tree)
    (processes : ((postprocess host output transforms {}).outcome w₁).value = (.ok report, w₂)) :
    ∃ files, Generated w₁ output root files ∧ SupportFits w₁ root transforms tree ∧
      w₂ = afterRun transforms tree root w₁ ∧
      ((generate adapter input output (standard comments)).outcome w₂).value =
        (.ok paths,
          if (run transforms tree).value.changed = [] ∨ (run transforms tree).value.support = []
          then w₁ else w₁.setText (supportPlace root) brandedSupport) := by
  obtain ⟨text, doc, m, read, parsed, isModel, writes⟩ := exists_of_generate generates
  have names := fun f (hf : f ∈ named adapter.dialect comments m) => isFileName_of_named hf
  obtain ⟨fits, rfl, isWritten⟩ :=
    written_of_ok isOutput (named_ne_nil adapter.dialect comments m) names writes
  have first := generated_of_written isOutput empty distinct names fits isWritten
  have inside := first.inModels listed transforms
  have supportFits :=
    supportFits_of_postprocess first.output first.models inside listed processes
  obtain ⟨report', ran⟩ :=
    value_postprocess host first.output first.models inside listed supportFits
  obtain rfl : w₂ = afterRun transforms tree root w₁ :=
    congrArg Prod.snd (processes.symm.trans ran)
  have same := first.isDirectoryAt_afterRun listed supportFits
  have models := (same (directoryOf root)).trans first.models
  obtain ⟨loc, f, reads, found, content⟩ := readText_eq_ok read
  have outside : ∀ rel, loc ≠ root ++ rel := by
    rintro rel rfl
    have below := mem_filesBelow.2 (mem_of_find? found (ne_nil_of_find? found))
    rw [empty] at below
    cases below
  obtain ⟨reads₁, found₁⟩ := kept_of_written fits isWritten reads found outside
  have read₂ := first.readText_afterRun listed supportFits reads₁ found₁ content outside
  have writes₂ := outcome_writeAll (first.output.congr same) models names
    fun g hg => (first.fits g hg).of_directories models (same _)
  refine ⟨_, first, supportFits, rfl, ?_⟩
  rw [value_generate read₂ parsed isModel, writes₂, first.setTexts_afterRun listed]
  rfl

/-- Generating and postprocessing again leads to where the first time did, unless a run that needs
the support file gives an enum a name that this file declares. -/
theorem regenerated (isOutput : IsOutput w output root) (empty : w.filesBelow root = [])
    (distinct : (w.entries.map (·.1)).Nodup)
    (generates : ((generate adapter input output (standard comments)).outcome w).value =
      (.ok paths, w₁))
    (listed : treeFiles? ["ts"] output w₁ = some tree)
    (apart : (run transforms tree).value.support ≠ [] →
      RunStaysApart (treeNames [⟨brandedFile, some brandedSupport.toList⟩]) transforms tree)
    (processes : ((postprocess host output transforms {}).outcome w₁).value = (.ok report, w₂)) :
    ∃ w₃ report', ((generate adapter input output (standard comments)).outcome w₂).value =
        (.ok paths, w₃) ∧
      ((postprocess host output transforms {}).outcome w₃).value = (.ok report', w₂) := by
  obtain ⟨files, first, supportFits, rfl, generates'⟩ :=
    generate_again isOutput empty distinct generates listed processes
  by_cases needed : (run transforms tree).value.changed = [] ∨
      (run transforms tree).value.support = []
  · rw [if_pos needed] at generates'
    exact ⟨w₁, report, generates', processes⟩
  · rw [if_neg needed] at generates'
    obtain ⟨changed, support⟩ := not_or.1 needed
    have new : w₁.find? (supportPlace root) = none := by
      have noDirectory := supportFits changed support
      have noFile := first.not_hasFile_support
      cases there : w₁.find? (supportPlace root) with
      | none => rfl
      | some e =>
        cases e with
        | directory => simp [Workspace.isDirectoryAt, there] at noDirectory
        | file f => exact absurd ⟨f, there⟩ noFile
    obtain ⟨again, ran⟩ := first.postprocess_again listed host new changed support (apart support)
    exact ⟨_, again, generates', ran⟩

section Example

/-- A spec whose schemas are enums with one value each. -/
def enumDocument (enums : List (String × String)) : Spec.Document :=
  ⟨[("openapi", .string "3.0.3"),
    ("info", .object [("title", .string "T"), ("version", .string "1")]),
    ("components", .object [("schemas", .object (enums.map fun e =>
      (e.1, .object [("type", .string "string"), ("enum", .array [.string e.2])])))])]⟩

def enumModel (enums : List (String × String)) : Model where
  info := ⟨"T", "1", none⟩
  components := enums.map fun e =>
    (e.1, .inline { types := [.string], enumValues := [.string e.2] } [] none none [] [] [])
  definitions := []

/-- The spec beside an empty directory. -/
def enumDirectory (enums : List (String × String)) : Workspace :=
  ⟨[(["openapi.json"], .file ⟨.text (enumDocument enums).text, false⟩), (["out"], .directory)]⟩

/-- What is generated there. -/
def generatedDirectory (enums files : List (String × String)) : Workspace :=
  (withDirectory ["out"] (enumDirectory enums)).setTexts (textsOf ["out"] files)

variable {enums files : List (String × String)}

theorem parse_enumDocument (distinct : (enums.map (·.1)).Nodup) :
    Spec.Document.parse "openapi.json" (enumDocument enums).text = .ok (enumDocument enums) := by
  have root : ["openapi", "info", "components"].Nodup := by decide
  have info : ["title", "version"].Nodup := by decide
  have keywords : ["type", "enum"].Nodup := by decide
  refine Spec.Document.parse_text _ ⟨by decide, root, trivial, ⟨by decide, info, trivial,
    trivial, trivial⟩, ⟨by decide, List.nodup_singleton _, ⟨by decide, ?_, ?_⟩, trivial⟩, trivial⟩
  · rw [List.map_map]
    exact distinct
  · rw [Json.readableMembers_iff]
    intro e he
    obtain ⟨_, -, rfl⟩ := List.mem_map.1 he
    exact ⟨by decide, keywords, trivial, ⟨by decide, trivial, trivial⟩, trivial⟩

theorem isOutput_enumDirectory : IsOutput (enumDirectory enums) "out" ["out"] :=
  ⟨rfl, rfl⟩

theorem filesBelow_enumDirectory : (enumDirectory enums).filesBelow ["out"] = [] :=
  List.mergeSort_of_pairwise List.Pairwise.nil

theorem nodup_enumDirectory : ((enumDirectory enums).entries.map (·.1)).Nodup := by
  have keys : [["openapi.json"], ["out"]].Nodup := by decide
  exact keys

theorem fits_enumDirectory {name : String} (short : (name ++ ".ts").utf8ByteSize ≤ nameLimit) :
    Fits (enumDirectory enums) ["out"] name := by
  refine ⟨?_, short, rfl⟩
  rintro ⟨f, found⟩
  cases found

theorem generate_enumDirectory (distinct : (enums.map (·.1)).Nodup)
    (isModel : Model.ofJson? (enumDocument enums).toJson = some (enumModel enums))
    (isNamed : named .openapi30 true (enumModel enums) = files)
    (short : ∀ f ∈ files, (f.1 ++ ".ts").utf8ByteSize ≤ nameLimit) :
    ((generate .openapi30 "openapi.json" "out" (standard true)).outcome (enumDirectory enums)).value
      = (.ok (files.map fun f => Path.join "out" (modelPath f.1)),
        generatedDirectory enums files) := by
  subst isNamed
  have isOutput : IsOutput (enumDirectory enums) "out" ["out"] := isOutput_enumDirectory
  have names := fun f (hf : f ∈ named .openapi30 true (enumModel enums)) => isFileName_of_named hf
  have fits : ∀ f ∈ named .openapi30 true (enumModel enums),
      Fits (enumDirectory enums) ["out"] f.1 := fun f hf => fits_enumDirectory (short f hf)
  have writes := outcome_writeAll isOutput.withDirectory (find?_withDirectory_self _ _) names
    fun f hf => fits_withDirectory (fits f hf)
  rw [value_generate rfl (parse_enumDocument distinct) isModel]
  obtain ⟨f, rest, isFiles⟩ :=
    List.exists_cons_of_ne_nil (named_ne_nil .openapi30 true (enumModel enums))
  have first : f ∈ named .openapi30 true (enumModel enums) := by simp [isFiles]
  have start := outcome_writeAll_withDirectory isOutput (names f first) (fits f first) rest
  rw [← isFiles] at start
  exact congrArg Logged.value (start.trans writes)

theorem generated_enumDirectory (isNamed : named .openapi30 true (enumModel enums) = files)
    (short : ∀ f ∈ files, (f.1 ++ ".ts").utf8ByteSize ≤ nameLimit) :
    Generated (generatedDirectory enums files) "out" ["out"] files := by
  have names : ∀ f ∈ files, IsFileName f.1 := fun f hf => isFileName_of_named (isNamed ▸ hf)
  exact generated_of_written isOutput_enumDirectory filesBelow_enumDirectory nodup_enumDirectory
    names (fun f hf => fits_withDirectory (fits_enumDirectory (short f hf))) rfl

/-- The files of models, as a walk shows them. -/
def shown (files : List (String × String)) : List (Location × File) :=
  files.map fun f => (["models", f.1 ++ ".ts"], ⟨.text f.2, false⟩)

/-- The files of a directory whose models stand in the order of their names. -/
def treeOf (files : List (String × String)) : List TreeFile :=
  (shown files).map treeFileOf

theorem treeFiles?_of_below {below : List (Location × File)} (h : IsOutput w output root)
    (isBelow : w.filesBelow root = below)
    (scripts : ∀ e ∈ below, isScript output (treeFileOf e) = true) :
    treeFiles? ["ts"] output w = some (below.map treeFileOf) := by
  rw [treeFiles?_eq h, isBelow]
  refine congrArg some (List.filter_eq_self.2 fun f hf => ?_)
  obtain ⟨e, he, rfl⟩ := List.mem_map.1 hf
  exact scripts e he

theorem new_enumDirectory :
    (generatedDirectory enums files).find? (supportPlace ["out"]) = none := by
  have others : ∀ t ∈ textsOf ["out"] files, supportPlace ["out"] ≠ t.1 := by
    intro t ht
    obtain ⟨f, -, rfl⟩ := List.mem_map.1 ht
    exact supportPlace_ne_placeOf f.1
  rw [generatedDirectory, find?_setTexts_of_ne others, find?_withDirectory_of_ne (by decide)]
  rfl

theorem postprocess_enumDirectory
    (first : Generated (generatedDirectory enums files) "out" ["out"] files)
    (listed : treeFiles? ["ts"] "out" (generatedDirectory enums files) = some (treeOf files)) :
    ∃ report, ((postprocess ⟨true, []⟩ "out" (defaultTransforms 1 .branded) {}).outcome
        (generatedDirectory enums files)).value = (.ok report,
          afterRun (defaultTransforms 1 .branded) (treeOf files) ["out"]
            (generatedDirectory enums files)) :=
  value_postprocess _ first.output first.models (first.inModels listed _) listed
    fun _ _ => isDirectoryAt_of_new new_enumDirectory

def kindEnums : List (String × String) :=
  [("Kind", "a")]

def kindFiles : List (String × String) :=
  [("Kind", "// Generated by specgen from T 1. Do not edit.\n\n" ++
      "export enum Kind \x7b\n    A = \"a\",\n\x7d\n"),
    ("index", "// Generated by specgen. Do not edit.\nexport * from \"./Kind\";\n")]

theorem regenerated_kind : ∃ paths w₂ w₃ report report',
    ((generate .openapi30 "openapi.json" "out" (standard true)).outcome
        (enumDirectory kindEnums)).value = (.ok paths, generatedDirectory kindEnums kindFiles) ∧
      ((postprocess ⟨true, []⟩ "out" (defaultTransforms 1 .branded) {}).outcome
        (generatedDirectory kindEnums kindFiles)).value = (.ok report, w₂) ∧
      (run (defaultTransforms 1 .branded) (treeOf kindFiles)).value.support = [branded] ∧
      ((generate .openapi30 "openapi.json" "out" (standard true)).outcome w₂).value =
        (.ok paths, w₃) ∧
      ((postprocess ⟨true, []⟩ "out" (defaultTransforms 1 .branded) {}).outcome w₃).value =
        (.ok report', w₂) := by
  have isNamed : named .openapi30 true (enumModel kindEnums) = kindFiles := by decide +kernel
  have short : ∀ f ∈ kindFiles, (f.1 ++ ".ts").utf8ByteSize ≤ nameLimit := by decide
  have generates := generate_enumDirectory (by decide) rfl isNamed short
  have first := generated_enumDirectory isNamed short
  have below : (generatedDirectory kindEnums kindFiles).filesBelow ["out"] = shown kindFiles :=
    List.mergeSort_of_pairwise (by decide)
  have listed : treeFiles? ["ts"] "out" (generatedDirectory kindEnums kindFiles) =
      some (treeOf kindFiles) := treeFiles?_of_below first.output below (by decide +kernel)
  obtain ⟨report, processes⟩ := postprocess_enumDirectory first listed
  have apart : RunStaysApart (treeNames [⟨brandedFile, some brandedSupport.toList⟩])
      (defaultTransforms 1 .branded) (treeOf kindFiles) := by decide +kernel
  have support : (run (defaultTransforms 1 .branded) (treeOf kindFiles)).value.support =
      [branded] := by decide +kernel
  obtain ⟨w₃, report', generates', processes'⟩ := regenerated isOutput_enumDirectory
    filesBelow_enumDirectory nodup_enumDirectory generates listed (fun _ => apart) processes
  exact ⟨_, _, w₃, report, report', generates, processes, support, generates', processes'⟩

def brandedEnums : List (String × String) :=
  [("BrandedEnum", "a"), ("Kind", "b")]

def brandedFiles : List (String × String) :=
  [("BrandedEnum", "// Generated by specgen from T 1. Do not edit.\n\n" ++
      "export enum BrandedEnum \x7b\n    A = \"a\",\n\x7d\n"),
    ("Kind", "// Generated by specgen from T 1. Do not edit.\n\n" ++
      "export enum Kind \x7b\n    B = \"b\",\n\x7d\n"),
    ("index", "// Generated by specgen. Do not edit.\nexport * from \"./BrandedEnum\";\n" ++
      "export * from \"./Kind\";\n")]

/-- The texts of a run that gives the first enum this name. -/
def brandedTexts (name : String) : List (String × String) :=
  [("models/BrandedEnum.ts", "// Generated by specgen from T 1. Do not edit.\n\n" ++
      "export type " ++ name ++ " = \"a\";\n"),
    ("models/Kind.ts", "// Generated by specgen from T 1. Do not edit.\n" ++
      "import type \x7b Branded \x7d from \"../branded\";\n\n" ++
      "export type Kind = Branded<string, \"Kind\">;\n")]

def textsOfRun (files : List (Location × File)) : List (String × String) :=
  (run (defaultTransforms 1 .branded) (files.map treeFileOf)).value.changed.map fun c =>
    (c.1, String.ofList c.2)

def brandedEntry : Location × File :=
  ([brandedFile], ⟨.text brandedSupport, false⟩)

theorem treeFileOf_text (l : Location) {s : String} {cs : List Char} (h : s.toList = cs) :
    treeFileOf (l, ⟨.text s, false⟩) = ⟨Location.path l, some cs⟩ := by
  rw [← h]
  rfl

/-- What runs make of the files, without and with the support file among them. -/
theorem textsOfRun_branded : textsOfRun (shown brandedFiles) = brandedTexts "Branded" ∧
    (run (defaultTransforms 1 .branded) (treeOf brandedFiles)).value.support = [branded] ∧
    textsOfRun (brandedEntry :: shown brandedFiles) = brandedTexts "BrandedEnum" := by
  -- the characters of a literal are told at once, those of joined texts are not
  have two {s t : String} {a b : List Char} (hs : s = String.ofList a) (ht : t = String.ofList b) :
      (s ++ t).toList = a ++ b :=
    toList_append_of (hs ▸ String.toList_ofList) (ht ▸ String.toList_ofList)
  have files : treeOf brandedFiles = [_, _, _] :=
    congrArg₂ List.cons (treeFileOf_text _ (two rfl rfl))
      (congrArg₂ List.cons (treeFileOf_text _ (two rfl rfl))
        (congrArg (List.cons · []) (treeFileOf_text _ (two rfl rfl))))
  have entry : treeFileOf brandedEntry = _ :=
    treeFileOf_text _ (toList_append_of (toList_append_of (toList_append_of (two rfl rfl)
      (String.toList_ofList ..)) (String.toList_ofList ..)) (String.toList_ofList ..))
  rw [textsOfRun, textsOfRun, List.map_cons, ← treeOf, files, entry]
  decide +kernel

theorem changedTexts_run {below : List (Location × File)} {texts : List (String × String)}
    (h : textsOfRun below = texts) :
    changedTexts root (run (defaultTransforms 1 .branded) (below.map treeFileOf)).value.changed =
      texts.map fun t => (root ++ Path.parts t.1, t.2) := by
  rw [← h, textsOfRun, List.map_map]
  rfl

/-- The first run calls an enum `Branded`. The second one meets this name in the support file. -/
theorem branded_taken : ∃ paths w₂ w₃ w₄ report report',
    ((generate .openapi30 "openapi.json" "out" (standard true)).outcome
        (enumDirectory brandedEnums)).value =
          (.ok paths, generatedDirectory brandedEnums brandedFiles) ∧
      ((postprocess ⟨true, []⟩ "out" (defaultTransforms 1 .branded) {}).outcome
        (generatedDirectory brandedEnums brandedFiles)).value = (.ok report, w₂) ∧
      ((generate .openapi30 "openapi.json" "out" (standard true)).outcome w₂).value =
        (.ok paths, w₃) ∧
      ((postprocess ⟨true, []⟩ "out" (defaultTransforms 1 .branded) {}).outcome w₃).value =
        (.ok report', w₄) ∧
      w₄ ≠ w₂ := by
  have isNamed : named .openapi30 true (enumModel brandedEnums) = brandedFiles := by
    decide +kernel
  have short : ∀ f ∈ brandedFiles, (f.1 ++ ".ts").utf8ByteSize ≤ nameLimit := by decide
  have generates := generate_enumDirectory (by decide) rfl isNamed short
  have first := generated_enumDirectory isNamed short
  have below : (generatedDirectory brandedEnums brandedFiles).filesBelow ["out"] =
      shown brandedFiles := List.mergeSort_of_pairwise (by decide)
  have listed : treeFiles? ["ts"] "out" (generatedDirectory brandedEnums brandedFiles) =
      some (treeOf brandedFiles) := treeFiles?_of_below first.output below (by decide +kernel)
  obtain ⟨report, processes⟩ := postprocess_enumDirectory first listed
  obtain ⟨-, -, -, -, generates'⟩ := generate_again isOutput_enumDirectory
    filesBelow_enumDirectory nodup_enumDirectory generates listed processes
  have needed : ¬ ((run (defaultTransforms 1 .branded) (treeOf brandedFiles)).value.changed = [] ∨
      (run (defaultTransforms 1 .branded) (treeOf brandedFiles)).value.support = []) := by
    rw [textsOfRun_branded.2.1, not_or]
    refine ⟨fun none => ?_, List.cons_ne_nil _ _⟩
    have texts := textsOfRun_branded.1
    rw [textsOfRun, ← treeOf, none] at texts
    cases texts
  rw [if_neg needed] at generates'
  have new : (generatedDirectory brandedEnums brandedFiles).find? (supportPlace ["out"]) = none :=
    new_enumDirectory
  have same := isDirectoryAt_setText (isDirectoryAt_of_new new) brandedSupport
  have output : IsOutput ((generatedDirectory brandedEnums brandedFiles).setText
      (supportPlace ["out"]) brandedSupport) "out" ["out"] :=
    first.output.setText (isDirectoryAt_of_new new)
  -- `branded.ts` is the first file that the second run comes to
  obtain ⟨before, after, below₁, below₃, smaller⟩ := first.filesBelow_support new
  rw [below] at below₁
  have start : before = [] := by
    cases before with
    | nil => rfl
    | cons e before =>
      have isFirst := (List.cons.inj below₁).1
      exact absurd (isFirst ▸ by decide) (smaller e List.mem_cons_self)
  subst start
  obtain rfl : after = shown brandedFiles := below₁.symm
  have listed₃ : treeFiles? ["ts"] "out" ((generatedDirectory brandedEnums brandedFiles).setText
      (supportPlace ["out"]) brandedSupport) =
      some ((brandedEntry :: shown brandedFiles).map treeFileOf) :=
    treeFiles?_of_below output below₃ (by decide +kernel)
  have inside : InModels ((generatedDirectory brandedEnums brandedFiles).setText
      (supportPlace ["out"]) brandedSupport) ["out"] (run (defaultTransforms 1 .branded)
        ((brandedEntry :: shown brandedFiles).map treeFileOf)).value.changed := by
    intro c hc
    have text : (c.1, String.ofList c.2) ∈ brandedTexts "BrandedEnum" := by
      rw [← textsOfRun_branded.2.2]
      exact List.mem_map_of_mem (f := fun c => (c.1, String.ofList c.2)) hc
    have paths : ∀ t ∈ brandedTexts "BrandedEnum", ∃ f ∈ brandedFiles, t.1 = modelPath f.1 := by
      decide
    obtain ⟨f, hf, isPath⟩ := paths _ text
    exact ⟨f.1, first.names f hf, isPath, (first.fits f hf).of_directories
      ((same _).trans first.models) (same _)⟩
  obtain ⟨report', processes'⟩ := value_postprocess ⟨true, []⟩ output
    ((same _).trans first.models) inside listed₃
    fun _ _ => (same _).trans (isDirectoryAt_of_new new)
  refine ⟨_, _, _, _, report, report', generates, processes, generates', processes', ?_⟩
  intro again
  have found := congrArg (find? · ["out", "models", "BrandedEnum.ts"]) again
  rw [find?_afterRun_of_ne (by decide), find?_afterRun_of_ne (by decide), treeOf,
    changedTexts_run textsOfRun_branded.1, changedTexts_run textsOfRun_branded.2.2] at found
  revert found
  decide +kernel

end Example

end OpenApiModels
