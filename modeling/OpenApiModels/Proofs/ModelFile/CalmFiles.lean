import OpenApiModels.Proofs.ModelFile.QuietFiles

/-!
# The names and types in the files of a spec

In the files of a spec the words `import` and `enum` stand only where they belong, as long as its
models and enums are called by words (`isCalm_of_mem_ofModel`): type names start with capitals where
there are some, members of enums are called in capitals, and types are quoted where they hold texts.
-/

namespace OpenApiModels.ModelFile

open TypeScript Text Retyping

/-! ### Members -/

theorem isMemberChar_of_isMemberNameChar {c : Char} (h : isMemberNameChar c = true) :
    isMemberChar c = true := by
  have differ {d : Char} (other : isMemberNameChar d = false) : c ≠ d := by
    rintro rfl
    rw [h] at other
    cases other
  have small : c ≠ 'i' ∧ c ≠ 'm' := ⟨differ (by decide), differ (by decide)⟩
  have break_ : c ≠ '\n' := differ (by decide)
  simp [isMemberChar, small, break_]

theorem isBlank_of_isNumeral {c : Char} (h : Json.isNumeral c = true) : isBlank c = false := by
  simp only [Json.isNumeral, Bool.or_eq_true, beq_iff_eq] at h
  rcases h with (((digit | rfl) | rfl) | rfl) | rfl
  · have inName : isAsciiNameChar c = true := by simp [isAsciiNameChar, Char.isAlphanum, digit]
    exact (isNameChar_of_isAsciiNameChar inName).2
  all_goals decide

theorem startsApart_numberText (n : Number.Value) : startsApart (Json.numberText n) = true := by
  obtain ⟨c, cs, text⟩ := List.exists_cons_of_ne_nil (Json.numberText_ne_nil n)
  have numeral : Json.isNumeral c = true :=
    Json.isNumeral_of_mem_numberText (by rw [text]; exact List.mem_cons_self)
  have other : c ≠ 'i' := by
    rintro rfl
    exact absurd numeral (by decide)
  simp [startsApart, text, isBlank_of_isNumeral numeral, other]

theorem isCalm_literal_memberOfValue? {v : Json} {m : Member} (h : memberOfValue? v = some m) :
    TypeScript.IsCalm m.literal.toList ∧ startsApart m.literal.toList = true := by
  cases v with
  | string s =>
    have text : ((Json.string s).compactText).toList = Json.stringText s := String.toList_ofList
    cases h
    rw [text]
    exact ⟨isCalm_stringText s, rfl⟩
  | number n =>
    have text : ((Json.number n).compactText).toList = Json.numberText n := String.toList_ofList
    cases h
    rw [text]
    refine ⟨isCalm_of_isNumeral (List.all_eq_true.2 fun c hc => ?_), startsApart_numberText n⟩
    exact Json.isNumeral_of_mem_numberText hc
  | null | bool | array | object => cases h

theorem isCalm_membersOf (values : List Json) : ∀ m ∈ membersOf values, m.IsCalm := by
  intro m hm
  obtain ⟨v, -, m', member, literal, -⟩ := exists_of_mem_membersOf hm
  obtain ⟨isLiteral, apart⟩ := isCalm_literal_memberOfValue? member
  have chars := List.all_eq_true.1 (all_isMemberNameChar_membersOf hm)
  refine ⟨List.all_eq_true.2 fun c hc => ?_, (isWhole_membersOf values m hm).name,
    literal ▸ isLiteral, literal ▸ apart⟩
  exact isMemberChar_of_isMemberNameChar (chars c hc)

/-! ### Bodies -/

/-- The names that a file declares and those that its types refer to are words. -/
def HasWords (f : ModelFile) : Prop :=
  ∀ n ∈ f.declared ++ f.references, Token.IsName n

section Body

variable {model : String} (named : IsTypeName model)

include named

theorem isTypeName_enumName {property : String} (isName : Token.IsName (enumName model property)) :
    IsTypeName (enumName model property) where
  isName := isName
  capital := by
    obtain ⟨c, r, text, -⟩ := named.isName
    have capital := named.capital
    rw [text] at capital
    simpa [enumName, text] using capital

theorem isCalm_enumOf? {property : String × Schema} {e : EnumType}
    (h : enumOf? model property = some e) (isName : Token.IsName e.name) : e.IsCalm := by
  obtain ⟨name, s⟩ := property
  cases s with
  | ref path => cases h
  | inline k properties additional items allOf oneOf anyOf =>
    rw [enumOf?] at h
    split at h
    · cases h
      exact ⟨isTypeName_enumName named isName, isCalm_membersOf k.enumValues⟩
    · cases h

theorem isCalm_fieldOf (dialect : Dialect) (required : List String) (property : String × Schema)
    (words : (fieldOf dialect model required property).type.HasWords)
    (own : ∀ e, enumOf? model property = some e → Token.IsName e.name) :
    (fieldOf dialect model required property).IsCalm := by
  obtain ⟨name, s⟩ := property
  refine ⟨⟨name, rfl⟩, ?_⟩
  cases s with
  | ref path => exact hasShape_typeOf dialect (.ref path) words
  | inline k properties additional items allOf oneOf anyOf =>
    rw [fieldOf, fieldType] at words ⊢
    dsimp only at words ⊢
    split at words
    · rename_i plain
      rw [if_pos plain]
      have isName := own _ (if_pos plain)
      have inFile (inside : Bool) : HasShape inside (TypeExpr.inFile (enumName model name)).text :=
        (isTypeName_enumName named isName).hasShape
      exact isBuilt_hasShape.nullableType (fun _ => inFile) dialect words false
    · rename_i other
      rw [if_neg other]
      exact hasShape_typeOf dialect _ words

theorem isCalm_body_ofSchema (dialect : Dialect) (s : Schema)
    (words : (ofSchema dialect model s).HasWords) :
    (ofSchema dialect model s).body.IsCalm ∧ ∀ e ∈ (ofSchema dialect model s).enums, e.IsCalm := by
  have none : ∀ e ∈ ([] : List EnumType), e.IsCalm := fun e he => absurd he List.not_mem_nil
  have ofAlias {s : Schema} {description : Option String}
      (words : HasWords ⟨model, description, .alias (typeOf dialect s), []⟩) :
      TypeScript.IsCalm (typeOf dialect s).text := by
    refine (hasShape_typeOf dialect s fun n hn =>
      words n (List.mem_append_right _ ?_)).isCalm
    simpa [references, Body.types] using hn
  cases s with
  | ref path => exact ⟨ofAlias words, none⟩
  | inline k properties additional items allOf oneOf anyOf =>
    rw [ofSchema] at words ⊢
    by_cases listed : k.isEnum = true
    · rw [if_pos listed]
      exact ⟨isCalm_membersOf k.enumValues, none⟩
    rw [if_neg listed] at words ⊢
    by_cases members : isInterface k properties additional allOf oneOf anyOf = true
    · rw [if_pos members] at words ⊢
      have own (p : String × Schema) (hp : p ∈ properties) (e : EnumType)
          (declares : enumOf? model p = some e) : Token.IsName e.name :=
        words e.name (List.mem_append_left _ (List.mem_cons_of_mem _
          (List.mem_map_of_mem (List.mem_filterMap.2 ⟨p, hp, declares⟩))))
      refine ⟨List.forall_mem_map.2 fun p hp => isCalm_fieldOf named dialect k.required p ?_
        (own p hp), fun e he => ?_⟩
      · refine fun n hn => words n (List.mem_append_right _ (List.mem_flatMap.2 ⟨_, ?_, hn⟩))
        exact List.mem_map_of_mem (List.mem_map_of_mem hp)
      · obtain ⟨p, hp, declares⟩ := List.mem_filterMap.1 he
        exact isCalm_enumOf? named declares (own p hp e declares)
    · rw [if_neg members] at words ⊢
      exact ⟨ofAlias words, none⟩

end Body

/-! ### Files -/

theorem isCalm_of_mem_ofModel {dialect : Dialect} {m : Model} {f : ModelFile}
    (hf : f ∈ ofModel dialect m) (words : f.HasWords) : f.IsCalm := by
  rw [ofModel_eq] at hf
  obtain ⟨s, hs, rfl⟩ := List.mem_map.1 hf
  obtain ⟨name, type, -⟩ := mem_leaders hs
  have own := name_ofSchema dialect s.1 s.2
  have named : IsTypeName s.1 :=
    ⟨own ▸ words _ (List.mem_append_left _ List.mem_cons_self), type ▸ isLower_typeName name⟩
  obtain ⟨body, enums⟩ := isCalm_body_ofSchema named dialect s.2 words
  exact ⟨own.symm ▸ named, body, enums⟩

theorem isTypeName_of_mem_imports {dialect : Dialect} {m : Model} {f : ModelFile}
    (hf : f ∈ ofModel dialect m) (words : f.HasWords) {n : String} (hn : n ∈ f.imports) :
    IsTypeName n where
  isName := words n (List.mem_append_right _ (mem_imports.1 hn).1)
  capital := by
    obtain ⟨path, -, rfl⟩ := exists_ref_of_mem_imports hf hn
    exact isLower_typeName _

theorem ofModel_importOf {dialect : Dialect} {m : Model} {f : ModelFile}
    (hf : f ∈ ofModel dialect m) (words : f.HasWords) {n : String} (hn : n ∈ f.imports)
    (unbranded : StaysUnbranded n) : (importOf n).OfModel := by
  obtain ⟨isName, capital⟩ := isTypeName_of_mem_imports hf words hn
  exact ⟨isName, capital, unbranded, module_importOf isName⟩

/-- The files of a spec are arranged if no line of their descriptions passes for an import. -/
theorem isArranged_of_mem_ofModel {dialect : Dialect} {m : Model} {f : ModelFile}
    {o : LayoutOptions} (hf : f ∈ ofModel dialect m) (words : f.HasWords)
    (unbranded : ∀ n ∈ f.imports, StaysUnbranded n) (oneLine : IsOneLine o)
    (quiet : ∀ d ∈ f.descriptions, IsQuietComment o d) :
    f.text o = fileText (headerLine o) (f.imports.map importOf) (statements o f) ∧
      IsArranged (headerLine o) (f.imports.map importOf) (statements o f) := by
  have imports : ∀ n ∈ f.imports, (importOf n).OfModel := fun n hn =>
    ofModel_importOf hf words hn (unbranded n hn)
  exact ⟨text_eq_fileText imports,
    isArranged_text (isCalm_of_mem_ofModel hf words) imports oneLine quiet⟩

end OpenApiModels.ModelFile
