import OpenApiModels.Proofs.ModelFile.Emitted
import OpenApiModels.Proofs.Logged
import OpenApiModels.Proofs.Spec.Restamping
import OpenApiModels.Proofs.TypeScript.NameCharacters
import OpenApiModels.Proofs.Workspace.Paths
import OpenApiModels.Proofs.Workspace.Rewriting

/-!
# Where model files are written

The files of a model stand in one directory below that of the output, whatever the names of the
schemas are (`isFileName_of_named`). Written there once, they can always be written again
(`outcome_writeAll`).
-/

namespace OpenApiModels.Generation

open TypeScript

/-! ### Places -/

/-- A name without slashes, points and other marks before the digits. -/
def IsFileName (name : String) : Prop :=
  ∀ c ∈ name.toList, '0' ≤ c

instance (name : String) : Decidable (IsFileName name) :=
  inferInstanceAs (Decidable (∀ c ∈ name.toList, '0' ≤ c))

def directoryOf (root : Location) : Location :=
  root ++ ["models"]

/-- Where the file of a model stands. -/
def placeOf (root : Location) (name : String) : Location :=
  root ++ ["models", name ++ ".ts"]

variable {name : String} {root : Location}

theorem IsFileName.not_mem (h : IsFileName name) {c : Char} (mark : ¬ '0' ≤ c) :
    c ∉ name.toList :=
  fun mem => mark (h c mem)

theorem path_place (name : String) : Location.path ["models", name ++ ".ts"] = modelPath name := by
  simp [Location.path, modelPath, String.intercalate_cons_cons, String.append_assoc]

theorem IsFileName.parts_modelPath (h : IsFileName name) :
    Path.parts (modelPath name) = ["models", name ++ ".ts"] := by
  rw [← path_place]
  refine Path.parts_intercalate (List.cons_ne_nil _ _) fun part hpart => ?_
  rcases List.mem_cons.1 hpart with rfl | hpart
  · decide
  · rw [List.mem_singleton.1 hpart]
    simp [h.not_mem (c := '/') (by decide)]

theorem IsFileName.null_not_mem (h : IsFileName name) : '\x00' ∉ (modelPath name).toList := by
  simp [modelPath, h.not_mem (c := '\x00') (by decide)]

theorem isAbsolute_modelPath (name : String) : Path.isAbsolute (modelPath name) = false := by
  simp [Path.isAbsolute, modelPath]

theorem placeOf_ne_directoryOf : placeOf root name ≠ directoryOf root := by
  simp [placeOf, directoryOf]

/-- The names and texts of the files of a model, with those of the index. -/
def named (dialect : Dialect) (comments : Bool) (m : Model) : List (String × String) :=
  (ModelFile.ofModel dialect m).map (fun f =>
      (f.name, String.ofList (f.text (layoutOf m.info comments)))) ++
    [("index", String.ofList (ModelFile.indexText ((ModelFile.ofModel dialect m).map (·.name))))]

def rendered (f : String × String) : Rendered :=
  ⟨modelPath f.1, f.2⟩

theorem emitted_eq (dialect : Dialect) (comments : Bool) (m : Model) :
    emitted dialect comments m = (named dialect comments m).map rendered := by
  rw [emitted, named, List.map_append, List.map_map]
  rfl

theorem named_ne_nil (dialect : Dialect) (comments : Bool) (m : Model) :
    named dialect comments m ≠ [] :=
  List.append_ne_nil_of_right_ne_nil _ (List.cons_ne_nil _ _)

/-- No name of a schema leads out of the directory of the models. -/
theorem isFileName_of_mem_ofModel {dialect : Dialect} {m : Model} {f : ModelFile}
    (hf : f ∈ ModelFile.ofModel dialect m) : IsFileName f.name := by
  obtain ⟨s, -, type⟩ := (ModelFile.mem_names_iff dialect m f.name).1 (List.mem_map_of_mem hf)
  intro c hc
  rw [← type] at hc
  exact (inName_of_mem_typeName hc).zero_le

theorem isFileName_of_named {dialect : Dialect} {comments : Bool} {m : Model}
    {f : String × String} (h : f ∈ named dialect comments m) : IsFileName f.1 := by
  rcases List.mem_append.1 h with model | index
  · obtain ⟨g, hg, rfl⟩ := List.mem_map.1 model
    exact isFileName_of_mem_ofModel hg
  · rw [List.mem_singleton.1 index]
    have fixed : IsFileName "index" := List.all_iff_forall_prop.1 (by decide)
    exact fixed

/-! ### One file -/

/-- The path leads to a directory. -/
structure IsOutput (w : Workspace) (output : String) (root : Location) : Prop where
  located : w.locate? output = some root
  directory : w.isDirectoryAt root = true

def withDirectory (root : Location) (w : Workspace) : Workspace :=
  if w.isDirectoryAt (directoryOf root) then w else w.put (directoryOf root) .directory

/-- Nothing keeps a file of this name from being written. -/
structure Fits (w : Workspace) (root : Location) (name : String) : Prop where
  directory : ¬ w.HasFile (directoryOf root)
  short : (name ++ ".ts").utf8ByteSize ≤ Workspace.nameLimit
  free : w.isDirectoryAt (placeOf root name) = false

variable {w w' : Workspace} {output text : String}

theorem directoryOf_ne_nil (root : Location) : directoryOf root ≠ [] :=
  List.append_ne_nil_of_right_ne_nil _ (List.cons_ne_nil _ _)

theorem placeOf_ne_nil (root : Location) (name : String) : placeOf root name ≠ [] :=
  List.append_ne_nil_of_right_ne_nil _ (List.cons_ne_nil _ _)

theorem find?_withDirectory_self (root : Location) (w : Workspace) :
    (withDirectory root w).isDirectoryAt (directoryOf root) = true := by
  unfold withDirectory
  split
  · assumption
  · rw [Workspace.isDirectoryAt, Workspace.find?_put_self (directoryOf_ne_nil root)]
    rfl

theorem find?_withDirectory_of_ne {loc : Location} (ne : loc ≠ directoryOf root) (w : Workspace) :
    (withDirectory root w).find? loc = w.find? loc := by
  unfold withDirectory
  split
  · rfl
  · exact Workspace.find?_put_of_ne ne _ w

theorem makeModels (h : IsOutput w output root) (isName : IsFileName name) :
    w.makeDirectories (parent (Path.join output (modelPath name))) =
      match w.find? (directoryOf root) with
      | some (.file _) => .error .notFound
      | _ => .ok (withDirectory root w) := by
  have inside : (Path.parts (modelPath name)).dropLast = ["models"] := by
    rw [isName.parts_modelPath]
    rfl
  rw [Workspace.makeDirectories_parent_join h.located h.directory (isAbsolute_modelPath name)
    isName.null_not_mem (by rw [inside]; exact List.cons_ne_nil _ _), inside]
  have place : root ++ ["models"] = directoryOf root := rfl
  rw [Workspace.makeAlong, if_neg (by decide), if_neg (by decide), if_neg (by decide), place]
  cases found : w.find? (directoryOf root) with
  | none => simp [withDirectory, Workspace.isDirectoryAt, Workspace.makeAlong, found]
  | some e =>
    cases e with
    | directory => simp [withDirectory, Workspace.isDirectoryAt, Workspace.makeAlong, found]
    | file f => rfl

theorem isDirectoryAt_withDirectory {loc : Location} (h : w.isDirectoryAt loc = true) :
    (withDirectory root w).isDirectoryAt loc = true := by
  by_cases same : loc = directoryOf root
  · rw [same]
    exact find?_withDirectory_self root w
  · rw [Workspace.isDirectoryAt, find?_withDirectory_of_ne same]
    exact h

theorem IsOutput.withDirectory (h : IsOutput w output root) :
    IsOutput (withDirectory root w) output root where
  located := Workspace.locate?_mono (fun _ => isDirectoryAt_withDirectory) h.located
  directory := isDirectoryAt_withDirectory h.directory

theorem follow_place (h : w.isDirectoryAt root = true)
    (models : w.isDirectoryAt (directoryOf root) = true) :
    w.follow root ["models", name ++ ".ts"] =
      if Workspace.nameLimit < (name ++ ".ts").utf8ByteSize then none
      else some (placeOf root name) := by
  have isPlace : root ++ ["models"] ++ [name ++ ".ts"] = placeOf root name := by simp [placeOf]
  have long (short : String) (h : short.length < 3) : name ++ ".ts" ≠ short := by
    rintro rfl
    rw [String.length_append] at h
    have : ".ts".length = 3 := rfl
    omega
  have empty := long "" (by decide)
  have point := long "." (by decide)
  have points := long ".." (by decide)
  rw [Workspace.follow, if_neg (by simp [h]), if_neg (by decide), if_neg (by decide),
    if_neg (by decide), Workspace.follow, if_neg (by simpa [directoryOf] using models),
    if_neg (by simp [empty, point]), if_neg (by simpa using points), isPlace]
  rfl

theorem locate?_modelPath (h : IsOutput w output root) (isName : IsFileName name) :
    (Generation.withDirectory root w).locate? (Path.join output (modelPath name)) =
      if Workspace.nameLimit < (name ++ ".ts").utf8ByteSize then none
      else some (placeOf root name) := by
  have further := h.withDirectory
  rw [Workspace.locate?_join further.located (isAbsolute_modelPath name) isName.null_not_mem,
    isName.parts_modelPath]
  exact follow_place further.directory (find?_withDirectory_self root w)

theorem outcome_writeRendered (h : IsOutput w output root) (isName : IsFileName name)
    (fits : Fits w root name) (text : String) :
    (writeRendered output ⟨modelPath name, text⟩).outcome w =
      pure (.ok (Path.join output (modelPath name)),
        (withDirectory root w).setText (placeOf root name) text) := by
  have directories : w.makeDirectories (parent (Path.join output (modelPath name))) =
      .ok (withDirectory root w) := by
    rw [makeModels h isName]
    split
    · rename_i f found
      exact absurd ⟨f, found⟩ fits.directory
    · rfl
  have located := locate?_modelPath h isName
  rw [if_neg (by have := fits.short; omega)] at located
  have free : (withDirectory root w).isDirectoryAt (placeOf root name) = false := by
    rw [Workspace.isDirectoryAt, find?_withDirectory_of_ne placeOf_ne_directoryOf]
    exact fits.free
  have made (onError : FileError → GenerationError) :
      (Action.makeDirectories (parent (Path.join output (modelPath name))) onError).outcome w =
        pure (.ok (), withDirectory root w) :=
    Action.outcome_update directories onError
  unfold writeRendered
  dsimp only
  rw [Action.outcome_bind (made _),
    Action.outcome_bind (Action.outcome_writeText (Workspace.write_eq located free text) _)]
  rfl

theorem fits_of_writeRendered (h : IsOutput w output root) (isName : IsFileName name)
    {path : String}
    (ok : ((writeRendered output ⟨modelPath name, text⟩).outcome w).value = (.ok path, w')) :
    Fits w root name := by
  unfold writeRendered at ok
  obtain ⟨_, mid, directories, ok⟩ := Action.exists_of_bind ok
  obtain ⟨_, _, written, -⟩ := Action.exists_of_bind ok
  have noFile : ¬ w.HasFile (directoryOf root) := by
    rintro ⟨f, found⟩
    have fails := makeModels h isName
    rw [found] at fails
    rw [Action.makeDirectories, Action.outcome_update_error fails] at directories
    cases directories
  have isMid : mid = withDirectory root w := by
    have works := makeModels h isName
    split at works
    · rename_i f found
      exact absurd ⟨f, found⟩ noFile
    · rw [Action.makeDirectories, Action.outcome_update works] at directories
      cases directories
      rfl
  subst isMid
  have located := locate?_modelPath h isName
  have short : ¬ Workspace.nameLimit < (name ++ ".ts").utf8ByteSize := by
    intro long
    rw [if_pos long] at located
    have fails : (withDirectory root w).write (Path.join output (modelPath name)) (.text text) =
        .error .notFound := by rw [Workspace.write, located]
    rw [Action.outcome_writeText_error fails] at written
    cases written
  rw [if_neg short] at located
  refine ⟨noFile, by omega, ?_⟩
  rw [Bool.eq_false_iff]
  intro directory
  have found : (withDirectory root w).find? (placeOf root name) = some .directory := by
    rw [find?_withDirectory_of_ne placeOf_ne_directoryOf]
    simpa [Workspace.isDirectoryAt] using directory
  have fails : (withDirectory root w).write (Path.join output (modelPath name)) (.text text) =
      .error .isDirectory := by simp only [Workspace.write, located, found]
  rw [Action.outcome_writeText_error fails] at written
  cases written

/-! ### All files -/

/-- The files by their places. -/
def textsOf (root : Location) (files : List (String × String)) : List (Location × String) :=
  files.map fun f => (placeOf root f.1, f.2)

variable {files : List (String × String)}

theorem withDirectory_of_directory (models : w.isDirectoryAt (directoryOf root) = true) :
    withDirectory root w = w :=
  if_pos models

theorem IsOutput.congr {a b : Workspace} (h : IsOutput a output root)
    (same : ∀ loc, b.isDirectoryAt loc = a.isDirectoryAt loc) : IsOutput b output root where
  located := by
    rw [Workspace.locate?, Workspace.follow_congr same]
    exact h.located
  directory := (same root).trans h.directory

theorem IsOutput.setText (h : IsOutput w output root) {loc : Location}
    (free : w.isDirectoryAt loc = false) : IsOutput (w.setText loc text) output root :=
  h.congr (Workspace.isDirectoryAt_setText free text)

theorem IsOutput.setTexts (h : IsOutput w output root) {texts : List (Location × String)}
    (free : ∀ t ∈ texts, w.isDirectoryAt t.1 = false) : IsOutput (w.setTexts texts) output root :=
  h.congr (Workspace.isDirectoryAt_setTexts free)

theorem Fits.of_directories {a b : Workspace} (h : Fits a root name)
    (models : b.isDirectoryAt (directoryOf root) = true)
    (same : b.isDirectoryAt (placeOf root name) = a.isDirectoryAt (placeOf root name)) :
    Fits b root name where
  directory := by
    intro file
    rw [file.not_isDirectoryAt] at models
    cases models
  short := h.short
  free := same.trans h.free

theorem fits_withDirectory (h : Fits w root name) : Fits (withDirectory root w) root name := by
  refine h.of_directories (find?_withDirectory_self root w) ?_
  rw [Workspace.isDirectoryAt, find?_withDirectory_of_ne placeOf_ne_directoryOf,
    Workspace.isDirectoryAt]

theorem fits_setText {loc : Location} (free : w.isDirectoryAt loc = false)
    (models : w.isDirectoryAt (directoryOf root) = true) :
    Fits (w.setText loc text) root name ↔ Fits w root name := by
  have same := Workspace.isDirectoryAt_setText free text
  exact ⟨fun h => h.of_directories models (same _).symm,
    fun h => h.of_directories ((same _).trans models) (same _)⟩

/-- Where all files fit, all of them are written. -/
theorem outcome_writeAll (h : IsOutput w output root)
    (models : w.isDirectoryAt (directoryOf root) = true) (names : ∀ f ∈ files, IsFileName f.1)
    (fits : ∀ f ∈ files, Fits w root f.1) :
    ((files.map rendered).mapM (writeRendered output)).outcome w =
      pure (.ok (files.map fun f => Path.join output (modelPath f.1)),
        w.setTexts (textsOf root files)) := by
  induction files generalizing w with
  | nil => rfl
  | cons f files ih =>
    have here := fits f List.mem_cons_self
    have written := outcome_writeRendered h (names f List.mem_cons_self) here f.2
    rw [withDirectory_of_directory models] at written
    have models' := (Workspace.isDirectoryAt_setText here.free f.2 _).trans models
    have rest := ih (h.setText here.free) models'
      (fun g hg => names g (List.mem_cons_of_mem _ hg))
      fun g hg => (fits_setText here.free models).2 (fits g (List.mem_cons_of_mem _ hg))
    rw [List.map_cons, List.mapM_cons, rendered, Action.outcome_bind written,
      Action.outcome_bind rest]
    rfl

theorem fits_of_writeAll (h : IsOutput w output root)
    (models : w.isDirectoryAt (directoryOf root) = true) (names : ∀ f ∈ files, IsFileName f.1)
    {paths : List String}
    (ok : (((files.map rendered).mapM (writeRendered output)).outcome w).value = (.ok paths, w')) :
    ∀ f ∈ files, Fits w root f.1 := by
  induction files generalizing w w' paths with
  | nil => exact fun f hf => nomatch hf
  | cons f files ih =>
    rw [List.map_cons, List.mapM_cons] at ok
    obtain ⟨_, mid, first, ok⟩ := Action.exists_of_bind ok
    obtain ⟨_, last, rest, -⟩ := Action.exists_of_bind ok
    have here := fits_of_writeRendered h (names f List.mem_cons_self) first
    rw [rendered, outcome_writeRendered h (names f List.mem_cons_self) here,
      withDirectory_of_directory models] at first
    cases first
    have models' := (Workspace.isDirectoryAt_setText here.free f.2 _).trans models
    intro g hg
    rcases List.mem_cons.1 hg with rfl | hg
    · exact here
    · exact (fits_setText here.free models).1 (ih (h.setText here.free) models'
        (fun g hg => names g (List.mem_cons_of_mem _ hg)) rest g hg)

/-- The first file brings the directory of the models. -/
theorem outcome_writeAll_withDirectory (h : IsOutput w output root) {f : String × String}
    (isName : IsFileName f.1) (fits : Fits w root f.1) (files : List (String × String)) :
    (((f :: files).map rendered).mapM (writeRendered output)).outcome w =
      (((f :: files).map rendered).mapM (writeRendered output)).outcome (withDirectory root w) := by
  have models := find?_withDirectory_self root w
  rw [List.map_cons, List.mapM_cons, rendered,
    Action.outcome_bind (outcome_writeRendered h isName fits _),
    Action.outcome_bind (outcome_writeRendered h.withDirectory isName (fits_withDirectory fits) _),
    withDirectory_of_directory models]

/-- What was written into a directory, which may have had none for the models. -/
theorem written_of_ok (h : IsOutput w output root) (some : files ≠ [])
    (names : ∀ f ∈ files, IsFileName f.1) {paths : List String}
    (ok : (((files.map rendered).mapM (writeRendered output)).outcome w).value = (.ok paths, w')) :
    (∀ f ∈ files, Fits (withDirectory root w) root f.1) ∧
      paths = (files.map fun f => Path.join output (modelPath f.1)) ∧
      w' = (withDirectory root w).setTexts (textsOf root files) := by
  have models := find?_withDirectory_self root w
  have same : ((files.map rendered).mapM (writeRendered output)).outcome w =
      ((files.map rendered).mapM (writeRendered output)).outcome (withDirectory root w) := by
    obtain ⟨f, rest, rfl⟩ := List.exists_cons_of_ne_nil some
    have isName := names f List.mem_cons_self
    have first := ok
    rw [List.map_cons, List.mapM_cons] at first
    obtain ⟨_, _, first, -⟩ := Action.exists_of_bind first
    exact outcome_writeAll_withDirectory h isName (fits_of_writeRendered h isName first) rest
  rw [same] at ok
  have fits := fits_of_writeAll h.withDirectory models names ok
  rw [outcome_writeAll h.withDirectory models names fits] at ok
  cases ok
  exact ⟨fits, rfl, rfl⟩

/-! ### Generation -/

variable {adapter : Adapter} {input : String} {comments : Bool}

/-- What a generation reads and writes. -/
theorem exists_of_generate {paths : List String}
    (ok : ((generate adapter input output (standard comments)).outcome w).value =
      (.ok paths, w')) :
    ∃ text doc m, w.readText input = .ok text ∧ Spec.Document.parse input text = .ok doc ∧
      Model.ofJson? doc.toJson = some m ∧
      ((((named adapter.dialect comments m).map rendered).mapM
        (writeRendered output)).outcome w).value = (.ok paths, w') := by
  unfold generate at ok
  obtain ⟨⟨text, doc⟩, mid, spec, written⟩ := Action.exists_of_bind ok
  clear ok
  have readFile := Action.value_of_mapError spec
  unfold Spec.readFile at readFile
  obtain ⟨stored, same, readText, parsed⟩ := Action.exists_of_bind readFile
  obtain ⟨read, rfl⟩ := Action.readText_of_outcome readText
  obtain ⟨document, last, parse, pair⟩ := Action.exists_of_bind parsed
  cases pair
  have isDocument : Spec.Document.parse input text = .ok doc := congrArg Prod.fst parse
  obtain rfl : same = mid := congrArg Prod.snd parse
  dsimp only at written
  split at written
  · cases written
  · rename_i m isModel
    refine ⟨text, doc, m, read, isDocument, isModel, ?_⟩
    rw [← emitted_eq, ← written]
    exact (Action.value_outcome_bind (value_render adapter comments m same)).symm

theorem value_generate {doc : Spec.Document} {m : Model} (read : w.readText input = .ok text)
    (parsed : Spec.Document.parse input text = .ok doc)
    (isModel : Model.ofJson? doc.toJson = some m) :
    ((generate adapter input output (standard comments)).outcome w).value =
      ((((named adapter.dialect comments m).map rendered).mapM
        (writeRendered output)).outcome w).value := by
  have spec : ((Spec.readFile input).mapError GenerationError.spec).outcome w =
      pure (.ok (text, doc), w) := by
    rw [Action.outcome_mapError (Spec.outcome_readFile read parsed)]
    rfl
  unfold generate
  rw [Action.outcome_bind spec]
  dsimp only
  rw [isModel]
  dsimp only
  rw [Action.value_outcome_bind (value_render adapter comments m w), emitted_eq]

end OpenApiModels.Generation
