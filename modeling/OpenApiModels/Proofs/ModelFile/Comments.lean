import OpenApiModels.Proofs.ModelFile.FileList
import OpenApiModels.Proofs.ModelFile.Header
import OpenApiModels.Proofs.ModelFile.WholeFiles
import OpenApiModels.Proofs.Schema.Descriptions

/-!
# Descriptions and tokens

A description stands in a block comment that it cannot close, and the lines around the comment leave
nothing open that could reach into it. So no token of a file depends on a description or on whether
there are comments (`tokens_without_descriptions`).
-/

namespace OpenApiModels

open TypeScript Text

namespace ModelFile

/-! ### Comments -/

/-- The end of a comment starts neither at the character nor behind it. -/
theorem avoids_end_cons {c : Char} {text rest : List Char}
    (here : c = '*' → (text ++ rest).head? ≠ some '/') (later : Avoids ['*', '/'] text rest) :
    Avoids ['*', '/'] (c :: text) rest := by
  refine avoids_cons.2 ⟨fun pre => ?_, later⟩
  obtain ⟨star, tail, second⟩ := List.cons_prefix_cons.1 pre
  exact here star.symm (by rw [← second]; rfl)

section Escaping

variable (nonempty : ['*', '/'] ≠ [])

theorem head?_replaceAll_end (cs : List Char) :
    (replaceAll ['*', '/'] ['*', '\\', '/'] nonempty cs).head? = cs.head? := by
  cases cs with
  | nil => rw [replaceAll]
  | cons c cs =>
    rw [replaceAll]
    split
    · rename_i rest found
      obtain ⟨rfl, -⟩ := List.cons.inj (stripStart?_eq_some_iff.1 found)
      rfl
    · rfl

/-- A text whose ends of comments are taken apart holds none, nor does it make one with what
follows it. -/
theorem avoids_replaceAll_end (cs : List Char) {rest : List Char} (h : rest.head? ≠ some '/') :
    Avoids ['*', '/'] (replaceAll ['*', '/'] ['*', '\\', '/'] nonempty cs) rest := by
  fun_induction replaceAll ['*', '/'] ['*', '\\', '/'] nonempty cs with
  | case1 => exact avoids_nil rest
  | case2 c cs more found _ ih =>
    refine avoids_append.2 ⟨avoids_end_cons (fun _ => by simp) ?_, ih⟩
    exact avoids_end_cons (by simp) (avoids_end_cons (by simp) (avoids_nil _))
  | case3 c cs none ih =>
    refine avoids_end_cons (fun star slash => ?_) ih
    -- the mark would be one of the text itself, as what stands behind the star is kept
    rw [List.head?_append, head?_replaceAll_end] at slash
    cases cs with
    | nil => exact h slash
    | cons d cs =>
      obtain rfl : d = '/' := Option.some.inj slash
      rw [stripStart?_eq_none_iff, star] at none
      exact none ⟨cs, rfl⟩

end Escaping

theorem avoids_end_of_noSlash {text : List Char} (noSlash : '/' ∉ text)
    (last : text.getLast? ≠ some '*') (rest : List Char) : Avoids ['*', '/'] text rest := by
  induction text with
  | nil => exact avoids_nil rest
  | cons c text ih =>
    cases text with
    | nil => exact avoids_end_cons (fun star => absurd (congrArg some star) last) (avoids_nil rest)
    | cons d text =>
      rw [List.getLast?_cons_cons] at last
      refine avoids_end_cons (fun _ slash => ?_) (ih (fun mem => noSlash (.tail c mem)) last)
      exact noSlash (Option.some.inj slash ▸ .tail c (.head text))

/-- Texts between which a description can stand in a comment. -/
structure Encloses (before after : List Char) : Prop where
  noSlash : '/' ∉ before ++ after
  apart : before.getLast? ≠ some '*' ∧ after.getLast? ≠ some '*'
  nonempty : after ≠ []

theorem Encloses.readsAs {before after : List Char} (h : Encloses before after) (s : String) :
    ReadsAs ('/' :: '*' :: (before ++ commentText s ++ after ++ ['*', '/'])) [] := by
  obtain ⟨noSlash, ⟨start, stop⟩, nonempty⟩ := h
  have start := avoids_end_of_noSlash (fun mem => noSlash (List.mem_append_left _ mem)) start
  have stop := avoids_end_of_noSlash (fun mem => noSlash (List.mem_append_right _ mem)) stop
  refine readsAs_block (avoids_append.2 ⟨avoids_append.2 ⟨start _, ?_⟩, stop _⟩)
  refine avoids_replaceAll_end _ s.toList ?_
  cases after with
  | nil => exact absurd rfl nonempty
  | cons c after =>
    intro slash
    exact noSlash (List.mem_append_right _ (Option.some.inj slash ▸ List.mem_cons_self))

theorem described_eq_some {o : LayoutOptions} {description : Option String} {text : List Char}
    (h : described o description = some text) : ∃ s, commentText s = text := by
  unfold described at h
  split at h
  · obtain ⟨s, -, same⟩ := Option.map_eq_some_iff.1 h
    exact ⟨s, same⟩
  · cases h

theorem readsAs_declarationComment (o : LayoutOptions) (description : Option String) :
    ReadsAs (declarationComment o description) [] := by
  have encloses : Encloses ['*', '\n', ' ', '*', ' '] ['\n', ' '] :=
    ⟨by decide, by decide, by decide⟩
  unfold declarationComment
  split
  · rename_i text shown
    obtain ⟨s, rfl⟩ := described_eq_some shown
    simpa using (encloses.readsAs s).append readsAs_newline
  · exact readsAs_nil

/-! ### Lines -/

/-- Both texts are read as the same tokens, whatever follows. -/
def SameReading (a b : List Char) : Prop :=
  ∃ ts, ReadsAs a ts ∧ ReadsAs b ts

namespace SameReading

variable {a b c d : List Char}

theorem append (first : SameReading a b) (second : SameReading c d) :
    SameReading (a ++ c) (b ++ d) := by
  obtain ⟨ts, left, right⟩ := first
  obtain ⟨us, left', right'⟩ := second
  exact ⟨ts ++ us, left.append left', right.append right'⟩

theorem of_nothing (left : ReadsAs a []) (right : ReadsAs b []) : SameReading a b :=
  ⟨[], left, right⟩

theorem flatMap {α : Type} {f g : α → List Char} {xs : List α}
    (h : ∀ x ∈ xs, SameReading (f x) (g x)) : SameReading (xs.flatMap f) (xs.flatMap g) := by
  induction xs with
  | nil => exact of_nothing readsAs_nil readsAs_nil
  | cons x xs ih =>
    obtain ⟨first, others⟩ := List.forall_mem_cons.1 h
    rw [List.flatMap_cons, List.flatMap_cons]
    exact first.append (ih others)

/-- A line that leaves nothing open is read alike in every place. -/
theorem line (whole : TypeScript.IsWhole a) : SameReading (a ++ ['\n']) (a ++ ['\n']) := by
  obtain ⟨ts, reads⟩ := exists_readsAs_line whole
  exact ⟨ts, reads, reads⟩

end SameReading

/-! ### Parts of a file -/

variable {o o' : LayoutOptions}

theorem sameReading_memberLine {m : Member} (whole : m.IsWhole) :
    SameReading (memberLine m) (memberLine m) := by
  obtain ⟨name, literal⟩ := whole
  have indent : TypeScript.IsWhole "    ".toList := isWhole_of_all (by decide)
  have equals : TypeScript.IsWhole " = ".toList := isWhole_of_all (by decide)
  have comma : TypeScript.IsWhole ",".toList := isWhole_of_all (by decide)
  have whole := (((indent.append name).append equals).append literal).append comma
  simpa [memberLine] using SameReading.line whole

theorem sameReading_declarationComment (description : Option String) :
    SameReading (declarationComment o description) (declarationComment o' none) :=
  .of_nothing (readsAs_declarationComment o _) (readsAs_declarationComment o' _)

theorem sameReading_enumText {e : EnumType} (whole : e.IsWhole) :
    SameReading (enumText o e) (enumText o' e.undescribed) := by
  obtain ⟨name, members⟩ := whole
  have keyword : TypeScript.IsWhole "export enum ".toList := isWhole_of_all (by decide)
  have opening : TypeScript.IsWhole " \x7b".toList := isWhole_of_all (by decide)
  have closing : TypeScript.IsWhole "\x7d".toList := isWhole_of_all (by decide)
  have comment : SameReading (declarationComment o e.description) (declarationComment o' none) :=
    sameReading_declarationComment _
  have first := SameReading.line ((keyword.append name).append opening)
  have each := SameReading.flatMap fun m hm => sameReading_memberLine (members m hm)
  have all := ((comment.append first).append each).append (SameReading.line closing)
  simpa [enumText, EnumType.undescribed] using all

/-- The comment above a property. -/
def fieldComment (o : LayoutOptions) (description : Option String) : List Char :=
  match described o description with
  | some text => "    /** ".toList ++ text ++ " */\n".toList
  | none => []

/-- The line of a property. -/
def fieldLine (f : Field) : List Char :=
  ("    " ++ (if f.readOnly then "readonly " else "") ++ f.key ++
    (if f.isOptional then "?" else "") ++ ": ").toList ++ f.type.text ++ [';', '\n']

theorem fieldLines_eq (o : LayoutOptions) (f : Field) :
    fieldLines o f = fieldComment o f.description ++ fieldLine f := by
  rw [fieldLine, ← List.append_assoc, ← List.append_assoc]
  rfl

theorem readsAs_fieldComment (o : LayoutOptions) (description : Option String) :
    ReadsAs (fieldComment o description) [] := by
  have encloses : Encloses ['*', ' '] [' '] := ⟨by decide, by decide, by decide⟩
  have space : ReadsAs [' '] [] := readsAs_blank (by decide)
  have indent := ((space.append space).append space).append space
  unfold fieldComment
  split
  · rename_i text shown
    obtain ⟨s, rfl⟩ := described_eq_some shown
    simpa using (indent.append (encloses.readsAs s)).append readsAs_newline
  · exact readsAs_nil

theorem sameReading_fieldLine {f : Field} (whole : f.IsWhole) :
    SameReading (fieldLine f) (fieldLine f) := by
  obtain ⟨key, type⟩ := whole
  have indent : TypeScript.IsWhole "    ".toList := isWhole_of_all (by decide)
  have modifier : TypeScript.IsWhole (if f.readOnly then "readonly " else "").toList := by
    split <;> exact isWhole_of_all (by decide)
  have mark : TypeScript.IsWhole (if f.isOptional then "?" else "").toList := by
    split <;> exact isWhole_of_all (by decide)
  have colon : TypeScript.IsWhole ": ".toList := isWhole_of_all (by decide)
  have stop : TypeScript.IsWhole ";".toList := isWhole_of_all (by decide)
  have before := (((indent.append modifier).append key).append mark).append colon
  simpa [fieldLine] using SameReading.line ((before.append type).append stop)

theorem sameReading_fieldLines {f : Field} (whole : f.IsWhole) :
    SameReading (fieldLines o f) (fieldLines o' f.undescribed) := by
  rw [fieldLines_eq, fieldLines_eq]
  have comment : SameReading (fieldComment o f.description) (fieldComment o' none) :=
    .of_nothing (readsAs_fieldComment o _) (readsAs_fieldComment o' _)
  exact comment.append (sameReading_fieldLine whole)

theorem isWhole_importPath {name : String} (h : ∀ c ∈ name.toList, InName c) :
    TypeScript.IsWhole ('"' :: ("./".toList ++ name.toList ++ ['"'])) := by
  have directory : ∀ c ∈ "./".toList, c ≠ '\\' ∧ c ≠ '"' ∧ c ≠ '\n' :=
    List.all_iff_forall_prop.1 (by decide)
  have plain : ∀ c ∈ "./".toList ++ name.toList,
      c ≠ '\\' ∧ c ≠ '"' ∧ (c = '\n' → '"' = '\x60') := by
    intro c hc
    rcases List.mem_append.1 hc with start | inside
    · obtain ⟨notEscape, notQuote, inLine⟩ := directory c start
      exact ⟨notEscape, notQuote, fun same => absurd same inLine⟩
    · have inName := h c inside
      exact ⟨inName.ne _ (by decide), inName.ne _ (by decide),
        fun same => absurd same (inName.ne _ (by decide))⟩
  have closed : splitLiteral '"' ("./".toList ++ name.toList ++ ['"']) =
      some ("./".toList ++ name.toList ++ ['"'], []) := by
    rw [splitLiteral_plain plain]
    rfl
  have whole := TypeScript.IsWhole.literal (by decide) closed .nil
  rwa [List.append_nil] at whole

theorem sameReading_importLine {name : String} (h : ∀ c ∈ name.toList, InName c) :
    SameReading (importLine name) (importLine name) := by
  have start : TypeScript.IsWhole "import type \x7b ".toList := isWhole_of_all (by decide)
  have middle : TypeScript.IsWhole " \x7d from ".toList := isWhole_of_all (by decide)
  have stop : TypeScript.IsWhole ";".toList := isWhole_of_all (by decide)
  have imported := (start.append (isWhole_of_inName h)).append middle
  have line := SameReading.line ((imported.append (isWhole_importPath h)).append stop)
  simpa [importLine] using line

/-! ### Files -/

theorem types_undescribed (body : Body) : body.undescribed.types = body.types := by
  rcases body with members | ⟨fields, isOpen⟩ | target
  · rfl
  · simp only [Body.undescribed, Body.types, List.map_map]
    rfl
  · rfl

theorem imports_undescribed (f : ModelFile) : f.undescribed.imports = f.imports := by
  rw [imports, imports, undescribed, types_undescribed]

theorem sameReading_bodyText {f : ModelFile} (whole : f.IsWhole) :
    SameReading (bodyText o f) (bodyText o' f.undescribed) := by
  obtain ⟨named, -, parts, -⟩ := whole
  obtain ⟨name, description, body, enums⟩ := f
  rcases body with members | ⟨fields, isOpen⟩ | target
  · have asEnum : EnumType.IsWhole ⟨name, description, members⟩ := ⟨named, parts⟩
    exact sameReading_enumText asEnum
  · have keyword : TypeScript.IsWhole "export interface ".toList := isWhole_of_all (by decide)
    have opening : TypeScript.IsWhole " \x7b".toList := isWhole_of_all (by decide)
    have further : TypeScript.IsWhole "    [key: string]: unknown;".toList :=
      isWhole_of_all (by decide)
    have closing : TypeScript.IsWhole "\x7d".toList := isWhole_of_all (by decide)
    have first := SameReading.line ((keyword.append named).append opening)
    have each : SameReading (fields.flatMap (fieldLines o))
        (fields.flatMap fun f => fieldLines o' f.undescribed) :=
      SameReading.flatMap fun f hf => sameReading_fieldLines (parts f hf)
    have last := SameReading.line closing
    cases isOpen with
    | true =>
      have all := ((first.append each).append (SameReading.line further)).append last
      simpa [bodyText, undescribed, Body.undescribed, List.flatMap_map] using all
    | false =>
      have all := (first.append each).append last
      simpa [bodyText, undescribed, Body.undescribed, List.flatMap_map] using all
  · have keyword : TypeScript.IsWhole "export type ".toList := isWhole_of_all (by decide)
    have equals : TypeScript.IsWhole " = ".toList := isWhole_of_all (by decide)
    have stop : TypeScript.IsWhole ";".toList := isWhole_of_all (by decide)
    have line := SameReading.line
      ((((keyword.append named).append equals).append parts).append stop)
    simpa [bodyText, undescribed, Body.undescribed] using line

theorem readsAs_headerLine (oneLine : IsOneLine o) : ReadsAs (headerLine o) [] := by
  rw [headerLine_eq]
  exact readsAs_line oneLine

/-- A file is read as the same tokens with and without its descriptions. -/
theorem sameReading_text {f : ModelFile} (whole : f.IsWhole) (here : IsOneLine o)
    (there : IsOneLine o') : SameReading (f.text o) (f.undescribed.text o') := by
  have header : SameReading (headerLine o) (headerLine o') :=
    .of_nothing (readsAs_headerLine here) (readsAs_headerLine there)
  have newline : SameReading ['\n'] ['\n'] := .of_nothing readsAs_newline readsAs_newline
  have imports := SameReading.flatMap fun n hn => sameReading_importLine (whole.imports n hn)
  have comment : SameReading (declarationComment o f.description) (declarationComment o' none) :=
    sameReading_declarationComment _
  have enums : SameReading (f.enums.flatMap fun e => ['\n'] ++ enumText o e)
      (f.enums.flatMap fun e => ['\n'] ++ enumText o' e.undescribed) :=
    SameReading.flatMap fun e he => newline.append (sameReading_enumText (whole.enums e he))
  have body : SameReading (bodyText o f) (bodyText o' f.undescribed) := sameReading_bodyText whole
  have declarations := (comment.append body).append enums
  have all := ((header.append imports).append newline).append declarations
  rw [text, text, imports_undescribed]
  simpa [undescribed, List.flatMap_map] using all

end ModelFile

/-! ### The files of a spec -/

namespace Generation

open ModelFile

/-- The paths of files with the tokens of those that can be read. -/
def tokensOf (files : List Rendered) : List (String × Option (List Token)) :=
  files.map fun f => (f.path, bareTokens f.text.toList)

theorem bareTokens_fileOf {o o' : LayoutOptions} {f : ModelFile} (whole : f.IsWhole)
    (here : IsOneLine o) (there : IsOneLine o') :
    ∃ ts, bareTokens (fileOf o f).text.toList = some ts ∧
      bareTokens (fileOf o' f.undescribed).text.toList = some ts := by
  obtain ⟨ts, left, right⟩ := sameReading_text whole here there
  simp only [fileOf, String.toList_ofList]
  exact ⟨ts, left.bareTokens, right.bareTokens⟩

variable {m : Model} (title : '\n' ∉ m.info.title.toList) (version : '\n' ∉ m.info.version.toList)
  (dialect : Dialect) (comments : Bool)

include title version

theorem tokensOf_emitted :
    tokensOf (emitted dialect comments m) = tokensOf (emitted dialect false m.undescribed) := by
  have here : IsOneLine (layoutOf m.info comments) := isOneLine_iff.2 (.inr ⟨title, version⟩)
  have there : IsOneLine (layoutOf m.undescribed.info false) :=
    isOneLine_iff.2 (.inr ⟨title, version⟩)
  unfold tokensOf emitted
  rw [ofModel_undescribed]
  simp only [List.map_append, List.map_map]
  refine congrArg (· ++ _) (List.map_congr_left fun f hf => ?_)
  obtain ⟨ts, left, right⟩ := bareTokens_fileOf (isWhole_of_mem_ofModel hf) here there
  simp only [Function.comp_apply, left, right]
  rfl

theorem isSome_of_mem_emitted {file : Rendered} (h : file ∈ emitted dialect comments m) :
    (bareTokens file.text.toList).isSome = true := by
  have here : IsOneLine (layoutOf m.info comments) := isOneLine_iff.2 (.inr ⟨title, version⟩)
  rcases List.mem_append.1 h with model | index
  · obtain ⟨f, hf, rfl⟩ := List.mem_map.1 model
    obtain ⟨ts, left, -⟩ := bareTokens_fileOf (isWhole_of_mem_ofModel hf) here here
    rw [left]
    rfl
  · rw [List.mem_singleton.1 index, indexOf, String.toList_ofList, bareTokens_indexText]
    · rfl
    intro type mem c hc
    obtain ⟨s, -, rfl⟩ := (mem_names_iff dialect m type).1 mem
    exact inName_of_mem_typeName hc

omit title version

/-- Specs that differ only in their descriptions have files with the same tokens, with comments and
without, and these are the tokens of the spec without descriptions. -/
theorem tokens_without_descriptions (adapter : Adapter) (comments comments' : Bool) {m m' : Model}
    (same : m.undescribed = m'.undescribed) (title : '\n' ∉ m.info.title.toList)
    (version : '\n' ∉ m.info.version.toList) (w : Workspace) :
    ∃ files files' plain,
      ((render adapter (standard comments) m).outcome w).value = (.ok files, w) ∧
      ((render adapter (standard comments') m').outcome w).value = (.ok files', w) ∧
      ((render adapter (standard false) m.undescribed).outcome w).value = (.ok plain, w) ∧
      tokensOf files = tokensOf plain ∧ tokensOf files' = tokensOf plain ∧
      ∀ file ∈ files, (bareTokens file.text.toList).isSome = true := by
  have title' : '\n' ∉ m'.info.title.toList := by
    have titles : m.info.title = m'.info.title := congrArg (·.info.title) same
    rwa [← titles]
  have version' : '\n' ∉ m'.info.version.toList := by
    have versions : m.info.version = m'.info.version := congrArg (·.info.version) same
    rwa [← versions]
  refine ⟨_, _, _, value_render adapter comments m w, value_render adapter comments' m' w,
    value_render adapter false m.undescribed w, tokensOf_emitted title version _ _, ?_,
    fun file mem => isSome_of_mem_emitted title version _ _ mem⟩
  rw [same]
  exact tokensOf_emitted title' version' _ _

/-- A spec in which a model, its property and the enum of the property have one description. -/
def petsDescribed (text : String) : Model where
  info := { title := "Pets", version := "1" }
  components :=
    [("pet", .inline { types := [.object], description := some text }
      [("state", .inline
        { description := some text, enumValues := [.string "in", .string "out"] }
        [] none none [] [] [])]
      none none [] [] [])]
  definitions := []

/-- A description that ends a comment, declares a constant and opens a string. -/
def breakout : String :=
  "*/ export const x = \"1\n**//* \x60"

theorem tokens_without_descriptions_pets :
    (petsDescribed breakout).undescribed = (petsDescribed "A pet.").undescribed ∧
    ∃ files files' plain,
      ((render .openapi30 (standard true) (petsDescribed breakout)).outcome {}).value =
        (.ok files, {}) ∧
      ((render .openapi30 (standard false) (petsDescribed "A pet.")).outcome {}).value =
        (.ok files', {}) ∧
      ((render .openapi30 (standard false) (petsDescribed breakout).undescribed).outcome {}).value =
        (.ok plain, {}) ∧
      tokensOf files = tokensOf plain ∧ tokensOf files' = tokensOf plain ∧
      ∀ file ∈ files, (bareTokens file.text.toList).isSome = true :=
  ⟨rfl, tokens_without_descriptions .openapi30 true false rfl (by decide) (by decide) {}⟩

end Generation

end OpenApiModels
