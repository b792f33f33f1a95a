import Mathlib.Data.List.TakeWhile
import OpenApiModels.Proofs.ModelFile.Emitted
import OpenApiModels.Proofs.TypeScript.BareTokens

/-!
# Headers and tokens

The title and the version of a spec stand in a line comment on top of every file. Nothing of them
is read as a token as long as they keep to that line (`tokens_of_oneLine`). Nothing removes a line
break from them, though, and what stands behind it is read like the rest of the file
(`title_declares`).
-/

namespace OpenApiModels

namespace ModelFile

open TypeScript

/-! ### The header -/

/-- What the header says about the spec. -/
def origin (o : LayoutOptions) : List Char :=
  if o.title == "" then [] else (" from " ++ o.title ++ " " ++ o.version).toList

/-- What the header says behind its slashes. -/
def said (o : LayoutOptions) : List Char :=
  " Generated by specgen".toList ++ (origin o ++ ". Do not edit.".toList)

/-- Title and version leave the header one line. -/
def IsOneLine (o : LayoutOptions) : Prop :=
  '\n' ∉ said o

instance (o : LayoutOptions) : Decidable (IsOneLine o) :=
  inferInstanceAs (Decidable ('\n' ∉ said o))

theorem isOneLine_iff {o : LayoutOptions} :
    IsOneLine o ↔ o.title = "" ∨ '\n' ∉ o.title.toList ∧ '\n' ∉ o.version.toList := by
  have start : '\n' ∉ " Generated by specgen".toList := by decide
  have stop : '\n' ∉ ". Do not edit.".toList := by decide
  have before : '\n' ∉ " from ".toList := by decide
  have between : '\n' ∉ " ".toList := by decide
  have only : IsOneLine o ↔ '\n' ∉ origin o := by
    unfold IsOneLine said
    rw [List.mem_append, List.mem_append, or_iff_left stop, or_iff_right start]
  rw [only]
  unfold origin
  by_cases untitled : o.title = ""
  · simp [untitled]
  · simp only [beq_iff_eq, untitled, if_false, String.toList_append, List.mem_append, before,
      between, false_or, or_false, not_or]

/-- What stands below the header of a file. -/
def below (o : LayoutOptions) (f : ModelFile) : List Char :=
  f.imports.flatMap importLine ++ ['\n'] ++ declarationComment o f.description ++ bodyText o f ++
    f.enums.flatMap fun e => '\n' :: enumText o e

theorem headerLine_eq (o : LayoutOptions) :
    headerLine o = '/' :: '/' :: (said o ++ ['\n']) := by
  have start : "// Generated by specgen".toList =
      '/' :: '/' :: " Generated by specgen".toList := rfl
  have stop : ". Do not edit.\n".toList = ". Do not edit.".toList ++ ['\n'] := rfl
  unfold headerLine said
  rw [start, stop]
  simp only [List.cons_append, List.append_assoc]
  rfl

theorem text_eq (o : LayoutOptions) (f : ModelFile) :
    f.text o = '/' :: '/' :: (said o ++ '\n' :: below o f) := by
  rw [text, headerLine_eq, below]
  simp only [List.cons_append, List.append_assoc, List.nil_append]

/-- Of the header, what stands behind its first line break is read with the file. -/
theorem bareTokens_text (o : LayoutOptions) (f : ModelFile) :
    bareTokens (f.text o) =
      bareTokens ((said o).dropWhile (· != '\n') ++ '\n' :: below o f) := by
  have broken : '\n' ∈ said o ++ '\n' :: below o f := by simp
  rw [text_eq, bareTokens_slashes broken, List.dropWhile_append]
  split
  · rename_i nothing
    rw [List.isEmpty_iff.1 nothing]
    rfl
  · rfl

theorem bareTokens_of_oneLine {o : LayoutOptions} (h : IsOneLine o) (f : ModelFile) :
    bareTokens (f.text o) = bareTokens ('\n' :: below o f) := by
  have nothing : (said o).dropWhile (· != '\n') = [] := by
    rw [List.dropWhile_eq_nil_iff]
    intro c hc
    rw [bne_iff_ne]
    rintro rfl
    exact h hc
  rw [bareTokens_text, nothing, List.nil_append]

end ModelFile

/-! ### The files of a spec -/

namespace Generation

open TypeScript

/-- Two files with one path and the same tokens. -/
structure SameTokens (a b : Rendered) : Prop where
  path : a.path = b.path
  tokens : bareTokens a.text.toList = bareTokens b.text.toList

/-- The model of a spec with another title and version. -/
def retitled (m : Model) (title version : String) : Model :=
  { m with info := { m.info with title, version } }

theorem sameTokens_fileOf {i j : Info} {comments : Bool}
    (here : ModelFile.IsOneLine (layoutOf i comments))
    (there : ModelFile.IsOneLine (layoutOf j comments)) (f : ModelFile) :
    SameTokens (fileOf (layoutOf i comments) f) (fileOf (layoutOf j comments) f) where
  path := rfl
  tokens := by
    simp only [fileOf, String.toList_ofList]
    rw [ModelFile.bareTokens_of_oneLine here, ModelFile.bareTokens_of_oneLine there]
    rfl

/-- The tokens of all files are independent of title and version, as long as these keep the header
on one line. -/
theorem tokens_of_oneLine (adapter : Adapter) (comments : Bool) (m : Model) (title version : String)
    (here : ModelFile.IsOneLine (layoutOf m.info comments))
    (there : ModelFile.IsOneLine (layoutOf (retitled m title version).info comments))
    (w : Workspace) :
    ∃ files files', ((render adapter (standard comments) m).outcome w).value = (.ok files, w) ∧
      ((render adapter (standard comments) (retitled m title version)).outcome w).value =
        (.ok files', w) ∧
      List.Forall₂ SameTokens files files' := by
  refine ⟨_, _, value_render adapter comments m w, value_render adapter comments _ w, ?_⟩
  have same : ModelFile.ofModel adapter.dialect (retitled m title version) =
      ModelFile.ofModel adapter.dialect m := rfl
  rw [emitted, emitted, same]
  refine List.rel_append ?_ (.cons ⟨rfl, rfl⟩ .nil)
  rw [List.forall₂_map_left_iff, List.forall₂_map_right_iff, List.forall₂_same]
  exact fun f _ => sameTokens_fileOf here there f

section Example

/-- A spec with one schema, of strings. -/
def names : Json :=
  .object [("openapi", .string "3.0.3"),
    ("info", .object [("title", .string "T"), ("version", .string "1")]),
    ("components", .object [("schemas", .object
      [("A", .object [("type", .string "string")])])])]

/-- Quotes and comment marks stay in the line. -/
theorem tokens_of_oneLine_quotes : ∃ m, Model.ofJson? names = some m ∧
    ∃ files files', ((render .openapi30 (standard true) m).outcome {}).value = (.ok files, {}) ∧
      ((render .openapi30 (standard true) (retitled m "It's /* \"two" "`2`")).outcome {}).value =
        (.ok files', {}) ∧
      List.Forall₂ SameTokens files files' :=
  ⟨_, rfl, tokens_of_oneLine .openapi30 true _ "It's /* \"two" "`2`"
    (ModelFile.isOneLine_iff.2 (.inr (by decide)))
    (ModelFile.isOneLine_iff.2 (.inr (by decide))) {}⟩

/-- A line break in a title starts a declaration of its own. -/
theorem title_declares : ∃ m, Model.ofJson? names = some m ∧
    ¬ List.Forall₂ SameTokens (emitted .openapi30 true m)
      (emitted .openapi30 true (retitled m "T\nexport const x = 1;//" "1")) := by
  refine ⟨_, rfl, fun same => ?_⟩
  obtain _ | ⟨first, -⟩ := same
  exact absurd first.tokens (by decide +kernel)

end Example

end Generation

end OpenApiModels
