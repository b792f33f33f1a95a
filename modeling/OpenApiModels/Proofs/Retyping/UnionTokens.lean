import OpenApiModels.Proofs.Retyping.TypeTokens
import OpenApiModels.Proofs.TypeScript.BareTokens
import OpenApiModels.Proofs.TypeScript.Identifiers

/-!
# Reading literal unions

The declaration of a literal union is read as a type declaration whose alternatives are literals of
exactly the values (`tokens_unionDeclaration`).
-/

namespace OpenApiModels.Retyping

open Text TypeScript

/-- The alternatives of a union: literals with a bar between each two of them. -/
theorem map_bare_unionTokens (values : List String) :
    (NewType.unionTokens values).map Token.bare =
      (values.map fun v => ⟨[], .literal, stringLiteral v.toList, 0⟩).intersperse (.mark [] '|') := by
  fun_induction NewType.unionTokens values with
  | case1 => rfl
  | case2 v => rfl
  | case3 v w vs ih =>
    rw [List.map_cons, List.map_cons, ih]
    rfl

/-- The declaration of a union is read as the keywords, the target, and one literal for each value,
which stands for the value, whatever characters that has. -/
theorem tokens_unionDeclaration (decl : EnumDecl) {target : String}
    (isIdentifier : IsIdentifier target) {values : List String} (nonempty : values ≠ []) :
    ∃ literals : List (List Char), literals.map unquote = values.map String.toList ∧
      bareTokens (unionDeclaration decl target values) =
        some ((if decl.exported then [.word [] "export"] else []) ++
          .word [] "type" :: .word [] target :: .mark [] '=' ::
            ((literals.map fun text => ⟨[], .literal, text, 0⟩).intersperse (.mark [] '|') ++
              [.mark [] ';'])) := by
  refine ⟨values.map fun v => stringLiteral v.toList, ?_, ?_⟩
  · rw [List.map_map]
    exact List.map_congr_left fun v _ => unquote_stringLiteral v.toList
  · have isName := isIdentifier_iff_isName.1 isIdentifier
    have stable := stableBefore_typeTokens closedGap_nil decl.exported isName (.union values) []
    have text := textOf_typeTokens [] decl.exported target (.union values) []
    rw [List.nil_append, List.append_nil] at text
    rw [unionDeclaration_eq decl target nonempty, ← text,
      bareTokens_of_stable ⟨stable, fun _ => by rw [splitGap]⟩,
      typeTokens, NewType.tokens, List.map_append, List.map_append, List.map_cons, List.map_cons,
      map_bare_unionTokens, List.map_map, List.append_assoc]
    cases decl.exported <;> rfl

theorem tokens_unionDeclaration_escapes :
    IsIdentifier "Größe" ∧ ["a\"b\\", "\n\r\t", "$\x7bx\x7d", "\x00é"] ≠ [] ∧
      ∃ literals : List (List Char),
        literals.map unquote =
          ["a\"b\\", "\n\r\t", "$\x7bx\x7d", "\x00é"].map String.toList ∧
        bareTokens (unionDeclaration ⟨"GrößeEnum", 0, 0, true, [], []⟩ "Größe"
            ["a\"b\\", "\n\r\t", "$\x7bx\x7d", "\x00é"]) =
          some ([.word [] "export"] ++ .word [] "type" :: .word [] "Größe" :: .mark [] '=' ::
            ((literals.map fun text => ⟨[], .literal, text, 0⟩).intersperse (.mark [] '|') ++
              [.mark [] ';'])) := by
  have isIdentifier : IsIdentifier "Größe" := by
    rw [isIdentifier_iff_chars, show "Größe".toList = _ from String.toList_ofList ..]
    exact ⟨by decide, List.all_eq_true.1 (by decide +kernel)⟩
  have nonempty : ["a\"b\\", "\n\r\t", "$\x7bx\x7d", "\x00é"] ≠ [] := List.cons_ne_nil _ _
  exact ⟨isIdentifier, nonempty,
    tokens_unionDeclaration ⟨"GrößeEnum", 0, 0, true, [], []⟩ isIdentifier nonempty⟩

end OpenApiModels.Retyping
