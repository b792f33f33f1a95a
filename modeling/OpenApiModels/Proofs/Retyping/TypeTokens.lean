import OpenApiModels.Proofs.TypeScript.LiteralUnits
import OpenApiModels.Proofs.TypeScript.Renaming
import OpenApiModels.Retyping.Transform

/-!
# The tokens of type declarations

A type declaration is read back as the tokens it is written from, wherever it stands.
-/

namespace OpenApiModels.TypeScript

open Text

namespace Token

def word (gap : List Char) (text : String) : Token :=
  ⟨gap, .word, text.toList, 0⟩

def mark (gap : List Char) (c : Char) : Token :=
  ⟨gap, .mark, [c], 0⟩

/-- The literal of a text. -/
def literal (gap : List Char) (value : String) : Token :=
  ⟨gap, .literal, stringLiteral value.toList, 0⟩

theorem fits_mark {gap rest : List Char} {c : Char} (notBlank : isBlank c = false)
    (notSlash : c ≠ '/') (notQuote : isQuote c = false) (notDigit : c.isDigit = false)
    (notName : isNameStart c = false) : (mark gap c).Fits rest :=
  ⟨c, [], rfl, startsToken_cons notBlank notSlash rest, fun _ =>
    splitToken_append_iff.2 (.inr (.inr (.inr ⟨notQuote, notDigit, notName, rfl, rfl⟩)))⟩

theorem fits_literal (gap rest : List Char) (value : String) : (literal gap value).Fits rest := by
  refine ⟨'"', _, rfl, startsToken_cons (by decide) (by decide) _, fun _ => ?_⟩
  exact splitToken_append_iff.2 (.inl ⟨by decide, rfl, splitLiteral_escaped value.toList []⟩)

/-- Whether a text is that of a word. -/
def IsName (name : String) : Prop :=
  ∃ c r, name.toList = c :: r ∧ IsWordText c r

theorem fits_word {gap rest : List Char} {name : String} (h : IsName name)
    (stop : rest.head?.any isNameChar = false) : (word gap name).Fits rest :=
  let ⟨c, r, text, chars⟩ := h
  (fits_word_iff rfl).2 ⟨c, r, text, chars, stop⟩

theorem isName_of_chars {name : String} {c : Char} {r : List Char} (text : name.toList = c :: r)
    (h : (!isBlank c && !isQuote c && !c.isDigit && isNameStart c && r.all isNameChar) = true) :
    IsName name := by
  simp only [Bool.and_eq_true, Bool.not_eq_true', List.all_eq_true] at h
  exact ⟨c, r, text, h.1.1.1.1, h.1.1.1.2, h.1.1.2, h.1.2, h.2⟩

end Token

end OpenApiModels.TypeScript

namespace OpenApiModels.Retyping

open Text TypeScript

/-- What a new type stands for. -/
inductive NewType where
  /-- One of the values. -/
  | union (values : List String)
  /-- A string with a brand; the tag tells brands apart. -/
  | branded (tag : String)

namespace NewType

def unionTokens : List String → List Token
  | [] => []
  | [v] => [.literal [' '] v]
  | v :: w :: vs => .literal [' '] v :: .mark [' '] '|' :: unionTokens (w :: vs)

def tokens : NewType → List Token
  | union values => unionTokens values
  | branded tag =>
    [.word [' '] "Branded", .mark [] '<', .word [] "string", .mark [] ',', .literal [' '] tag,
      .mark [] '>']

def isBranded : NewType → Bool
  | union _ => false
  | branded _ => true

end NewType

/-- The tokens of a type declaration with a gap before it. -/
def typeTokens (gap : List Char) (exported : Bool) (name : String) (type : NewType) :
    List Token :=
  (if exported then [.word gap "export", .word [' '] "type"] else [.word gap "type"]) ++
    .word [' '] name :: .mark [' '] '=' :: type.tokens ++ [.mark [] ';']

/-- The text of a type declaration. -/
def typeText (exported : Bool) (name : String) (type : NewType) : List Char :=
  Token.slice (typeTokens [] exported name type)

theorem textOf_typeTokens (gap : List Char) (exported : Bool) (name : String) (type : NewType)
    (rest : List Char) :
    textOf (typeTokens gap exported name type) rest =
      gap ++ (typeText exported name type ++ rest) := by
  cases exported <;> simp [typeText, typeTokens, textOf, Source.text, Token.slice, Token.word]

/-! ### All tokens of a declaration -/

/-- What holds of all tokens that a type declaration can be made of. -/
structure EachToken (P : Token → Prop) (gap : List Char) (name : String) : Prop where
  keyword : ∀ g ∈ [gap, [' ']], ∀ word ∈ ["export", "type"], P (.word g word)
  word : ∀ g ∈ [[], [' ']], ∀ word ∈ ["Branded", "string"], P (.word g word)
  name : P (.word [' '] name)
  mark : ∀ g ∈ [[], [' ']], ∀ c ∈ ['=', '|', '<', ',', '>', ';'], P (.mark g c)
  literal : ∀ value, P (.literal [' '] value)

namespace EachToken

variable {P : Token → Prop} {gap : List Char} {name : String} (h : EachToken P gap name)

include h

theorem of_mem_unionTokens (values : List String) : ∀ t ∈ NewType.unionTokens values, P t := by
  fun_induction NewType.unionTokens values with
  | case1 => exact fun t ht => absurd ht List.not_mem_nil
  | case2 v => exact List.forall_mem_singleton.2 (h.literal v)
  | case3 v w vs ih =>
    exact List.forall_mem_cons.2 ⟨h.literal v,
      List.forall_mem_cons.2 ⟨h.mark _ (by simp) _ (by simp), ih⟩⟩

theorem of_mem_tokens (type : NewType) : ∀ t ∈ type.tokens, P t := by
  cases type with
  | union values => exact h.of_mem_unionTokens values
  | branded tag =>
    have mark (c : Char) (hc : c ∈ ['=', '|', '<', ',', '>', ';']) : P (.mark [] c) :=
      h.mark _ (by simp) c hc
    simp only [NewType.tokens, List.forall_mem_cons]
    exact ⟨h.word _ (by simp) _ (by simp), mark '<' (by simp), h.word _ (by simp) _ (by simp),
      mark ',' (by simp), h.literal tag, mark '>' (by simp), fun t ht => absurd ht List.not_mem_nil⟩

theorem of_mem_typeTokens (exported : Bool) (type : NewType) :
    ∀ t ∈ typeTokens gap exported name type, P t := by
  have tail : ∀ t ∈ .word [' '] name :: .mark [' '] '=' :: type.tokens ++ [.mark [] ';'], P t := by
    simp only [List.cons_append, List.forall_mem_cons, List.forall_mem_append]
    exact ⟨h.name, h.mark _ (by simp) _ (by simp), h.of_mem_tokens type,
      h.mark _ (by simp) _ (by simp), fun t ht => absurd ht List.not_mem_nil⟩
  cases exported with
  | false => exact List.forall_mem_cons.2 ⟨h.keyword _ (by simp) _ (by simp), tail⟩
  | true =>
    exact List.forall_mem_cons.2 ⟨h.keyword _ (by simp) _ (by simp),
      List.forall_mem_cons.2 ⟨h.keyword _ (by simp) _ (by simp), tail⟩⟩

end EachToken
/-! ### The planned declarations -/

theorem slice_unionTokens (v : String) (vs : List String) :
    (NewType.unionTokens (v :: vs)).flatMap (fun t => t.gap ++ t.text) =
      ' ' :: List.intercalate [' ', '|', ' '] ((v :: vs).map fun v => stringLiteral v.toList) := by
  induction vs generalizing v with
  | nil => simp [NewType.unionTokens, Token.literal]
  | cons w vs ih =>
    rw [NewType.unionTokens, List.flatMap_cons, List.flatMap_cons, ih,
      List.map_cons (l := w :: vs), List.map_cons (l := vs), List.intercalate_cons_cons]
    simp [Token.literal, Token.mark]

theorem unionDeclaration_eq (decl : EnumDecl) (target : String) {values : List String}
    (h : values ≠ []) :
    unionDeclaration decl target values = typeText decl.exported target (.union values) := by
  cases values with
  | nil => exact absurd rfl h
  | cons v vs =>
    rw [unionDeclaration, exportText, typeText, typeTokens, NewType.tokens]
    cases decl.exported <;>
      simp [Token.slice, slice_unionTokens, Token.word, Token.mark]

theorem brandedDeclaration_eq (decl : EnumDecl) (target : String) :
    brandedDeclaration decl target = typeText decl.exported target (.branded target) := by
  rw [brandedDeclaration, exportText, typeText, typeTokens, NewType.tokens]
  cases decl.exported <;> simp [Token.slice, Token.word, Token.mark, Token.literal]

/-! ### Stability -/

theorem closedGap_space : ClosedGap [' '] :=
  closedGap_blank (by decide) closedGap_nil

theorem stableBefore_unionTokens (values : List String) (rest : List Char) :
    StableBefore (NewType.unionTokens values) rest := by
  fun_induction NewType.unionTokens values with
  | case1 => trivial
  | case2 v => exact ⟨closedGap_space, Token.fits_literal _ _ _, trivial⟩
  | case3 v w vs ih =>
    refine ⟨closedGap_space, Token.fits_literal _ _ _, closedGap_space, ?_, ih⟩
    exact Token.fits_mark (by decide) (by decide) (by decide) (by decide) (by decide)

theorem NewType.stableBefore_tokens (type : NewType) (rest : List Char) :
    StableBefore type.tokens rest := by
  cases type with
  | union values => exact stableBefore_unionTokens values rest
  | branded tag =>
    have branded : Token.IsName "Branded" := Token.isName_of_chars rfl (by decide)
    have string : Token.IsName "string" := Token.isName_of_chars rfl (by decide)
    have stop : isNameChar '<' = false ∧ isNameChar ',' = false := by decide
    refine ⟨closedGap_space, Token.fits_word branded stop.1, closedGap_nil, ?_, closedGap_nil,
      Token.fits_word string stop.2, closedGap_nil, ?_, closedGap_space, Token.fits_literal _ _ _,
      closedGap_nil, ?_, trivial⟩ <;>
      exact Token.fits_mark (by decide) (by decide) (by decide) (by decide) (by decide)

/-- A type declaration is read back wherever it stands. -/
theorem stableBefore_typeTokens {gap : List Char} (closed : ClosedGap gap) (exported : Bool)
    {name : String} (isName : Token.IsName name) (type : NewType) (rest : List Char) :
    StableBefore (typeTokens gap exported name type) rest := by
  have blank : isNameChar ' ' = false := by decide
  have tail : StableBefore (.word [' '] name :: .mark [' '] '=' :: type.tokens ++ [.mark [] ';'])
      rest := by
    refine ⟨closedGap_space, Token.fits_word isName blank, closedGap_space, ?_,
      stableBefore_append.2 ⟨type.stableBefore_tokens _, closedGap_nil, ?_, trivial⟩⟩ <;>
      exact Token.fits_mark (by decide) (by decide) (by decide) (by decide) (by decide)
  have keyword : Token.IsName "type" := Token.isName_of_chars rfl (by decide)
  cases exported with
  | false => exact ⟨closed, Token.fits_word keyword blank, tail⟩
  | true =>
    have modifier : Token.IsName "export" := Token.isName_of_chars rfl (by decide)
    exact ⟨closed, Token.fits_word modifier blank, closedGap_space, Token.fits_word keyword blank,
      tail⟩

end OpenApiModels.Retyping
