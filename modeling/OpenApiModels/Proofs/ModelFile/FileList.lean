import OpenApiModels.Proofs.ModelFile.Written
import OpenApiModels.Proofs.Retyping.TypeTokens
import OpenApiModels.Proofs.TypeScript.BareTokens
import OpenApiModels.Proofs.TypeScript.Identifiers
import OpenApiModels.Proofs.TypeScript.LiteralUnits
import OpenApiModels.Proofs.Workspace.RelativeImports

/-!
# The list of files

A spec has a file for each type name among its schemas, in the order in which the names come up, and
then the index, which exports them in that order, as long as none of the names is empty
(`files_listed`). The statement for an empty name leads back to the index (`index_exports_itself`).
-/

namespace OpenApiModels

open TypeScript

/-! ### Type names -/

namespace Model

/-- The names of the schemas: those of the components, then those that only definitions have. -/
def schemaNames (m : Model) : List String :=
  m.components.map (·.1) ++
    (m.definitions.map (·.1)).filter fun name => !(m.components.map (·.1)).contains name

/-- The type names of the schemas, each where it comes up first. -/
def typeNames (m : Model) : List String :=
  (m.schemaNames.map typeName).eraseDups

theorem map_fst_schemas (m : Model) : m.schemas.map (·.1) = m.schemaNames := by
  have same (name : String) :
      Keyed.hasKey name m.components = (m.components.map (·.1)).contains name := by
    rw [Bool.eq_iff_iff]
    simp [Keyed.hasKey]
  rw [schemas, schemaNames, List.map_append, List.filter_map]
  simp only [same, Function.comp_def]

theorem mem_typeNames {m : Model} {type : String} :
    type ∈ m.typeNames ↔ ∃ name ∈ m.schemaNames, typeName name = type := by
  rw [typeNames, List.mem_eraseDups, List.mem_map]

theorem inName_of_mem_typeNames (m : Model) :
    ∀ type ∈ m.typeNames, ∀ c ∈ type.toList, Text.InName c := by
  intro type mem c hc
  obtain ⟨name, -, rfl⟩ := mem_typeNames.1 mem
  exact inName_of_mem_typeName hc

/-- All types have names if the names of all schemas have letters or digits. -/
theorem empty_not_mem_typeNames_iff {m : Model} : "" ∉ m.typeNames ↔
    ∀ name ∈ m.schemaNames, name.toList.any Text.isAlphanumeric = true := by
  simp only [mem_typeNames, typeName_eq_empty_iff, not_exists, not_and, Bool.not_eq_false]

end Model

namespace ModelFile

/-- Going through the schemas leaves out the names seen before and all repetitions. -/
theorem map_fst_leaders (seen : List String) (schemas : List (String × Schema)) :
    (leaders seen schemas).map (·.1) =
      ((schemas.map fun s => typeName s.1).filter fun type => !seen.contains type).eraseDups := by
  induction schemas generalizing seen with
  | nil => rfl
  | cons first rest ih =>
    obtain ⟨name, s⟩ := first
    cases repeats : seen.contains (typeName name) with
    | true =>
      have dropped : ¬ (!seen.contains (typeName name)) = true := by rw [repeats]; decide
      rw [leaders, if_pos repeats, ih, List.map_cons,
        List.filter_cons_of_neg (p := fun type => !seen.contains type) dropped]
    | false =>
      have kept : (!seen.contains (typeName name)) = true := by rw [repeats]; rfl
      rw [leaders, if_neg (by rw [repeats]; decide), List.map_cons, ih, List.map_cons,
        List.filter_cons_of_pos (p := fun type => !seen.contains type) kept, List.eraseDups_cons,
        List.filter_filter]
      refine congrArg (fun types => typeName name :: List.eraseDups types) ?_
      refine List.filter_congr fun type _ => ?_
      rw [List.contains_cons, Bool.not_or]

theorem names_eq_typeNames (dialect : Dialect) (m : Model) :
    (ofModel dialect m).map (·.name) = m.typeNames := by
  rw [names_ofModel, map_fst_leaders, Model.typeNames, ← Model.map_fst_schemas, List.map_map]
  exact congrArg List.eraseDups (List.filter_eq_self.2 fun _ _ => rfl)

end ModelFile

/-! ### Paths -/

/-- One name in a directory, whichever way slashes go. -/
structure Path.IsComponent (part : String) : Prop where
  nonempty : part ≠ ""
  notHere : part ≠ "."
  notUp : part ≠ ".."
  noSlash : '/' ∉ part.toList
  noBackslash : '\\' ∉ part.toList
  noNull : '\x00' ∉ part.toList

namespace Generation

theorem isComponent_of_inName {name : String} (h : ∀ c ∈ name.toList, Text.InName c) :
    Path.IsComponent (name ++ ".ts") := by
  have absent {mark : Char} (notName : ¬ Text.InName mark) (notSuffix : mark ∉ ".ts".toList) :
      mark ∉ (name ++ ".ts").toList := by
    rw [String.toList_append, List.mem_append]
    rintro (inside | suffix)
    · exact notName (h mark inside)
    · exact notSuffix suffix
  have isStep := Path.fileName_not_mem name
  simp only [List.mem_cons, List.not_mem_nil, or_false, not_or] at isStep
  exact ⟨isStep.1, isStep.2.1, isStep.2.2, absent (by decide) (by decide),
    absent (by decide) (by decide), absent (by decide) (by decide)⟩

theorem modelPath_injective {name name' : String} (h : modelPath name = modelPath name') :
    name = name' := by
  have chars := congrArg String.toList h
  simp only [modelPath, String.toList_append] at chars
  have behind := List.append_cancel_left (List.append_cancel_right chars)
  exact String.toList_injective behind

/-! ### The index -/

/-- The tokens that export everything of a module again. -/
def reexport (specifier : String) : List Token :=
  [.word [] "export", .mark [' '] '*', .word [' '] "from", .literal [' '] specifier, .mark [] ';']

theorem stableBefore_reexport (specifier : String) (rest : List Char) :
    StableBefore (reexport specifier) rest := by
  have keyword : Token.IsName "export" := Token.isName_of_chars rfl (by decide)
  have preposition : Token.IsName "from" := Token.isName_of_chars rfl (by decide)
  have stop : isNameChar ' ' = false := by decide
  refine ⟨closedGap_nil, Token.fits_word keyword stop, Retyping.closedGap_space, ?_,
    Retyping.closedGap_space, Token.fits_word preposition stop, Retyping.closedGap_space,
    Token.fits_literal _ _ _, closedGap_nil, ?_, trivial⟩ <;>
    exact Token.fits_mark (by decide) (by decide) (by decide) (by decide) (by decide)

theorem textOf_reexport {model : String} (h : ∀ c ∈ model.toList, Text.InName c)
    (rest : List Char) :
    textOf (reexport ("./" ++ model)) rest =
      ("export * from \"./" ++ model ++ "\";").toList ++ rest := by
  have directory : ∀ c ∈ "./".toList, c ∉ escapedChars := List.all_iff_forall_prop.1 (by decide)
  have outside : ∀ c ∈ escapedChars, ¬ Text.InName c := List.all_iff_forall_prop.1 (by decide)
  have plain : ∀ c ∈ ("./" ++ model).toList, c ∉ escapedChars := by
    intro c hc
    rw [String.toList_append, List.mem_append] at hc
    rcases hc with start | inside
    · exact directory c start
    · exact fun mem => outside c mem (h c inside)
  have literal : stringLiteral ('.' :: '/' :: model.toList) =
      '"' :: '.' :: '/' :: (model.toList ++ ['"']) := by
    simpa using stringLiteral_plain plain
  simp [reexport, textOf_cons, Token.word, Token.mark, Token.literal, literal]

theorem readsAs_reexport {model : String} (h : ∀ c ∈ model.toList, Text.InName c) :
    ReadsAs ("export * from \"./" ++ model ++ "\";\n").toList
      ((reexport ("./" ++ model)).map Token.bare) := by
  have line : ("export * from \"./" ++ model ++ "\";\n").toList =
      ("export * from \"./" ++ model ++ "\";").toList ++ ['\n'] := by
    simp only [String.toList_append, List.append_assoc]
    rfl
  intro rest
  rw [line, List.append_assoc, ← textOf_reexport h, bareTokens_textOf (stableBefore_reexport _ _),
    List.singleton_append, bareTokens_blank (by decide)]

/-- Statements that export everything of the modules again. -/
def reexports (specifiers : List String) : List Token :=
  specifiers.flatMap fun specifier => (reexport specifier).map Token.bare

theorem bareTokens_indexText {models : List String}
    (h : ∀ model ∈ models, ∀ c ∈ model.toList, Text.InName c) :
    bareTokens (ModelFile.indexText models) = some (reexports (models.map ("./" ++ ·))) := by
  have oneLine : '\n' ∉ " Generated by specgen. Do not edit.".toList := by decide
  have header : ReadsAs "// Generated by specgen. Do not edit.\n".toList [] := readsAs_line oneLine
  have exports := ReadsAs.flatMap fun model hmodel => readsAs_reexport (h model hmodel)
  rw [reexports, List.flatMap_map]
  exact (header.append exports).bareTokens

theorem reexport_injective {specifier other : String}
    (h : (reexport specifier).map Token.bare = (reexport other).map Token.bare) :
    specifier = other := by
  have literal : stringLiteral specifier.toList = stringLiteral other.toList :=
    congrArg Token.text (Option.some.inj (congrArg (·[3]?) h))
  have value := congrArg unquote literal
  rw [unquote_stringLiteral, unquote_stringLiteral] at value
  exact String.toList_injective value

theorem reexports_injective {specifiers others : List String}
    (h : reexports specifiers = reexports others) : specifiers = others := by
  induction specifiers generalizing others with
  | nil =>
    cases others with
    | nil => rfl
    | cons other others => cases h
  | cons specifier specifiers ih =>
    cases others with
    | nil => cases h
    | cons other others =>
      obtain ⟨first, rest⟩ := List.append_inj h rfl
      rw [reexport_injective first, ih rest]

/-! ### The modules behind the index -/

/-- The file exports everything of the others again, each of them once and in order: every
statement in it leads to the file whose turn it is. -/
def Reexports (index : Rendered) (files : List Rendered) : Prop :=
  ∃ specifiers, bareTokens index.text.toList = some (reexports specifiers) ∧
    specifiers.map (Location.module? (Path.parts index.path)) =
      files.map fun file => some (Path.parts file.path)

theorem path_indexOf (models : List String) : (indexOf models).path = modelPath "index" := rfl

theorem parts_indexPath : Path.parts (modelPath "index") = ["models", "index.ts"] := by
  decide

/-- A type name leads from the index to the file of its model, no name to the index itself. -/
theorem module?_index {type : String} (h : ∀ c ∈ type.toList, Text.InName c) :
    Location.module? ["models", "index.ts"] ("./" ++ type) =
      some ["models", (if type = "" then "index" else type) ++ ".ts"] := by
  have absent {mark : Char} (notName : ¬ Text.InName mark) : mark ∉ type.toList :=
    fun mem => notName (h mark mem)
  have noSlash : '/' ∉ type.toList := absent (by decide)
  have noPoint : '.' ∉ type.toList := absent (by decide)
  by_cases empty : type = ""
  · rw [empty, if_pos rfl]
    exact Location.module?_here ["models"] "index.ts"
  · have isName : type ∉ ["", ".", ".."] := by
      simp only [List.mem_cons, List.not_mem_nil, or_false, not_or]
      refine ⟨empty, ?_, ?_⟩ <;>
        (rintro rfl; exact absurd noPoint (by decide))
    rw [if_neg empty]
    exact Location.module?_beside ["models"] "index.ts" isName noSlash

theorem leads_iff {type : String} (h : ∀ c ∈ type.toList, Text.InName c) :
    Location.module? ["models", "index.ts"] ("./" ++ type) = some ["models", type ++ ".ts"] ↔
      type ≠ "" := by
  rw [module?_index h]
  by_cases empty : type = ""
  · rw [empty]
    decide
  · rw [if_neg empty]
    exact iff_of_true rfl empty

/-- An index exports the files of its models just if each of them has a name. -/
theorem reexports_iff {models : List String} {files : List Rendered}
    (h : ∀ model ∈ models, ∀ c ∈ model.toList, Text.InName c)
    (paths : files.map (·.path) = models.map modelPath) :
    Reexports (indexOf models) files ↔ "" ∉ models := by
  have text : bareTokens (indexOf models).text.toList =
      some (reexports (models.map ("./" ++ ·))) := by
    rw [indexOf, String.toList_ofList]
    exact bareTokens_indexText h
  have places : (files.map fun file => some (Path.parts file.path)) =
      models.map fun model => some ["models", model ++ ".ts"] := by
    have parts := congrArg (List.map fun path => some (Path.parts path)) paths
    rw [List.map_map, List.map_map] at parts
    refine parts.trans (List.map_congr_left fun model hmodel => congrArg some ?_)
    exact IsFileName.parts_modelPath fun c hc => (h model hmodel c hc).zero_le
  have unique (specifiers : List String) :
      bareTokens (indexOf models).text.toList = some (reexports specifiers) ↔
        specifiers = models.map ("./" ++ ·) := by
    rw [text]
    exact ⟨fun reads => (reexports_injective (Option.some.inj reads)).symm, fun same => same ▸ rfl⟩
  rw [Reexports, path_indexOf, parts_indexPath, places]
  simp only [unique, exists_eq_left, List.map_map, List.map_inj_left, Function.comp_apply]
  constructor
  · intro lead empty
    exact (leads_iff (h "" empty)).1 (lead "" empty) rfl
  · intro named model hmodel
    refine (leads_iff (h model hmodel)).2 ?_
    rintro rfl
    exact named hmodel

/-! ### The files of a spec -/

/-- A spec has one file for each of its type names, in order, and then the index. Their paths
differ, and each is one component below the directory of the models. The index has one statement for
each type name, in order. It leads to the file of the model, or to the index itself where the name
is empty, so these statements export all the files just if every schema has a letter or digit in its
name. -/
theorem files_listed (adapter : Adapter) (comments : Bool) (m : Model) (w : Workspace) :
    ∃ files index,
      ((render adapter (standard comments) m).outcome w).value = (.ok (files ++ [index]), w) ∧
      files.map (·.path) = m.typeNames.map (fun type => "models/" ++ type ++ ".ts") ∧
      index.path = "models/index.ts" ∧
      ((files ++ [index]).map (·.path)).Nodup ∧
      (∀ file ∈ files ++ [index], ∃ part, file.path = "models/" ++ part ∧ Path.IsComponent part) ∧
      bareTokens index.text.toList = some (reexports (m.typeNames.map ("./" ++ ·))) ∧
      (∀ type ∈ m.typeNames, Location.module? (Path.parts index.path) ("./" ++ type) =
        some ["models", (if type = "" then "index" else type) ++ ".ts"]) ∧
      (Reexports index files ↔
        ∀ name ∈ m.schemaNames, name.toList.any Text.isAlphanumeric = true) := by
  have names := ModelFile.names_eq_typeNames adapter.dialect m
  have distinct := ModelFile.nodup_names adapter.dialect m
  have inName := m.inName_of_mem_typeNames
  have paths : ((ModelFile.ofModel adapter.dialect m).map
      (fileOf (layoutOf m.info comments))).map (·.path) = m.typeNames.map modelPath := by
    rw [← names, List.map_map, List.map_map]
    rfl
  refine ⟨_, _, value_render adapter comments m w, paths, rfl, ?_, ?_, ?_, ?_, ?_⟩
  · have apart : (m.typeNames ++ ["index"]).Nodup := by
      rw [List.nodup_append]
      refine ⟨names ▸ distinct, List.nodup_cons.2 ⟨List.not_mem_nil, List.nodup_nil⟩, ?_⟩
      rintro type mem _ index rfl
      obtain ⟨name, -, same⟩ := Model.mem_typeNames.1 mem
      exact typeName_ne_index name (same.trans (List.mem_singleton.1 index))
    have all : ((m.typeNames ++ ["index"]).map modelPath).Nodup :=
      List.Pairwise.map modelPath (fun _ _ ne same => ne (modelPath_injective same)) apart
    rw [List.map_append] at all
    rw [List.map_append, paths]
    exact all
  · intro file mem
    rcases List.mem_append.1 mem with model | index
    · obtain ⟨f, hf, rfl⟩ := List.mem_map.1 model
      have type : f.name ∈ m.typeNames := names ▸ List.mem_map_of_mem hf
      refine ⟨f.name ++ ".ts", ?_, isComponent_of_inName (inName _ type)⟩
      exact String.append_assoc
    · have fixed : ∀ c ∈ "index".toList, Text.InName c := List.all_iff_forall_prop.1 (by decide)
      rw [List.mem_singleton.1 index]
      exact ⟨"index.ts", rfl, isComponent_of_inName fixed⟩
  · rw [names]
    simp only [indexOf, String.toList_ofList]
    exact bareTokens_indexText inName
  · intro type mem
    rw [path_indexOf, parts_indexPath]
    exact module?_index (inName type mem)
  · rw [names, reexports_iff inName paths, Model.empty_not_mem_typeNames_iff]

/-! ### A schema without a name -/

/-- A schema whose name has neither letters nor digits. -/
def dashes : Json :=
  .object [("openapi", .string "3.0.3"),
    ("info", .object [("title", .string "T"), ("version", .string "1")]),
    ("components", .object [("schemas", .object [("--", .object [("type", .string "string")])])])]

/-- The index exports itself in place of the file without a name. -/
theorem index_exports_itself : ∃ m file index, Model.ofJson? dashes = some m ∧
    (∀ w, ((render .openapi30 (standard true) m).outcome w).value = (.ok [file, index], w)) ∧
    file.path = "models/.ts" ∧ bareTokens index.text.toList = some (reexports ["./"]) ∧
    Location.module? (Path.parts index.path) "./" = some (Path.parts index.path) ∧
    ¬ Reexports index [file] := by
  have noName : typeName "--" = "" := (typeName_eq_empty_iff "--").2 (by decide)
  have inName : ∀ model ∈ [typeName "--"], ∀ c ∈ model.toList, Text.InName c := by
    intro model hmodel c hc
    rw [List.mem_singleton.1 hmodel] at hc
    exact inName_of_mem_typeName hc
  have text : bareTokens (indexOf [typeName "--"]).text.toList = some (reexports ["./"]) := by
    rw [indexOf, String.toList_ofList, bareTokens_indexText inName, noName]
    rfl
  have lost (file : Rendered) (path : file.path = modelPath (typeName "--")) :
      ¬ Reexports (indexOf [typeName "--"]) [file] := by
    have paths : [file].map (·.path) = [typeName "--"].map modelPath := congrArg ([·]) path
    rw [reexports_iff inName paths, noName]
    decide
  refine ⟨_, _, indexOf [typeName "--"], rfl, value_render .openapi30 true _,
    congrArg modelPath noName, text, ?_, lost _ rfl⟩
  rw [path_indexOf, parts_indexPath]
  exact Location.module?_here ["models"] "index.ts"

end Generation

end OpenApiModels
