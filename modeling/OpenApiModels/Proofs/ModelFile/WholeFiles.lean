import OpenApiModels.Proofs.ModelFile.References
import OpenApiModels.Proofs.TypeScript.WholeTexts

/-!
# Files that leave nothing open

All that the files of a spec write besides comments leaves no literal and no comment open, and
names of imported models are made of name characters (`isWhole_of_mem_ofModel`).
-/

namespace OpenApiModels.ModelFile

open TypeScript Text

/-! ### Parts of a file -/

structure Member.IsWhole (m : Member) : Prop where
  name : TypeScript.IsWhole m.name.toList
  literal : TypeScript.IsWhole m.literal.toList

structure EnumType.IsWhole (e : EnumType) : Prop where
  name : TypeScript.IsWhole e.name.toList
  members : ∀ m ∈ e.members, m.IsWhole

structure Field.IsWhole (f : Field) : Prop where
  key : TypeScript.IsWhole f.key.toList
  type : TypeScript.IsWhole f.type.text

def Body.IsWhole : Body → Prop
  | .enum members => ∀ m ∈ members, m.IsWhole
  | .interface fields _ => ∀ f ∈ fields, f.IsWhole
  | .alias target => TypeScript.IsWhole target.text

/-- Nothing that the file writes leaves a literal or a comment open. -/
structure IsWhole (f : ModelFile) : Prop where
  name : TypeScript.IsWhole f.name.toList
  imports : ∀ n ∈ f.imports, ∀ c ∈ n.toList, InName c
  body : f.body.IsWhole
  enums : ∀ e ∈ f.enums, e.IsWhole

/-! ### Members -/

/-- The characters of names of members: those of names, but no small letters, and of numbers. -/
def isMemberNameChar (c : Char) : Bool :=
  (decide (InName c) && !c.isLower) || Json.isNumeral c

theorem isMemberNameChar_iff {c : Char} : isMemberNameChar c = true ↔
    (InName c ∧ c.isLower = false) ∨ Json.isNumeral c = true := by
  simp [isMemberNameChar]

theorem isPlain_of_isMemberNameChar {c : Char} (h : isMemberNameChar c = true) :
    isPlain c = true := by
  rcases isMemberNameChar_iff.1 h with ⟨inName, -⟩ | numeral
  · exact isPlain_of_inName inName
  · exact isPlain_of_isNumeral numeral

theorem all_isMemberNameChar_memberName (value : String) :
    (memberName value).toList.all isMemberNameChar = true := by
  have letters : ∀ c ∈ capitalSnakeCase value.toList, isMemberNameChar c = true := fun c hc =>
    isMemberNameChar_iff.2
      (.inl ⟨inName_of_mem_capitalSnakeCase c hc, isLower_of_mem_capitalSnakeCase c hc⟩)
  unfold memberName
  dsimp only
  split
  · decide
  · rw [String.toList_ofList, guardDigit]
    split
    · rw [List.all_cons, List.all_eq_true.2 letters]
      rfl
    · exact List.all_eq_true.2 letters

theorem all_isMemberNameChar_memberOfValue? {v : Json} {m : Member}
    (h : memberOfValue? v = some m) : m.name.toList.all isMemberNameChar = true := by
  cases v with
  | string s =>
    cases h
    exact all_isMemberNameChar_memberName s
  | number n =>
    have text : ((Json.number n).compactText).toList = Json.numberText n := String.toList_ofList
    cases h
    simp only [String.toList_append, String.toList_ofList, text, List.all_append, Bool.and_eq_true]
    refine ⟨by decide, List.all_eq_true.2 fun c hc => ?_⟩
    obtain ⟨d, hd, rfl⟩ := List.mem_map.1 hc
    split
    · decide
    · exact isMemberNameChar_iff.2 (.inr (Json.isNumeral_of_mem_numberText hd))
  | null | bool | array | object => cases h

theorem isWhole_literal_memberOfValue? {v : Json} {m : Member} (h : memberOfValue? v = some m) :
    TypeScript.IsWhole m.literal.toList := by
  cases v with
  | string s =>
    cases h
    change TypeScript.IsWhole (String.ofList (Json.stringText s)).toList
    rw [String.toList_ofList]
    exact isWhole_stringText s
  | number n =>
    cases h
    change TypeScript.IsWhole (String.ofList (Json.numberText n)).toList
    rw [String.toList_ofList]
    exact isWhole_of_all (all_isPlain_numberText n)
  | null | bool | array | object => cases h

/-- The characters of the numbers that tell names apart. -/
def isSuffixChar (c : Char) : Bool :=
  c == '_' || c.isDigit

theorem exists_suffix_unusedName (used : List String) (name : String) :
    ∃ suffix, (unusedName used name).toList = name.toList ++ suffix ∧
      ∀ c ∈ suffix, isSuffixChar c = true := by
  have same : ∃ suffix, name.toList = name.toList ++ suffix ∧
      ∀ c ∈ suffix, isSuffixChar c = true :=
    ⟨[], (List.append_nil _).symm, fun c hc => absurd hc List.not_mem_nil⟩
  unfold unusedName
  split
  · cases found : ((List.range used.length).map fun i => s!"{name}_{i + 2}").find?
        fun candidate => !used.contains candidate with
    | none => exact same
    | some candidate =>
      obtain ⟨i, -, rfl⟩ := List.mem_map.1 (List.mem_of_find?_eq_some found)
      refine ⟨'_' :: Nat.toDigits 10 (i + 2), by simp [toString, Nat.repr], ?_⟩
      refine List.forall_mem_cons.2 ⟨rfl, fun c hc => ?_⟩
      rw [isSuffixChar, Number.isDigit_of_mem_toDigits hc, Bool.or_true]
  · exact same

/-- Members that are told apart are the given ones with numbers behind their names. -/
theorem exists_of_mem_distinguish {members : List Member} {used : List String} {m : Member}
    (h : m ∈ distinguish used members) :
    ∃ m' ∈ members, m.literal = m'.literal ∧
      ∃ suffix, m.name.toList = m'.name.toList ++ suffix ∧ ∀ c ∈ suffix, isSuffixChar c = true := by
  induction members generalizing used with
  | nil => exact absurd h List.not_mem_nil
  | cons first rest ih =>
    rcases List.mem_cons.1 h with rfl | h
    · exact ⟨first, List.mem_cons_self, rfl, exists_suffix_unusedName used first.name⟩
    · obtain ⟨m', hm', told⟩ := ih h
      exact ⟨m', List.mem_cons_of_mem _ hm', told⟩

theorem exists_of_mem_membersOf {values : List Json} {m : Member} (h : m ∈ membersOf values) :
    ∃ v ∈ values, ∃ m', memberOfValue? v = some m' ∧ m.literal = m'.literal ∧
      ∃ suffix, m.name.toList = m'.name.toList ++ suffix ∧ ∀ c ∈ suffix, isSuffixChar c = true := by
  obtain ⟨m', hm', told⟩ := exists_of_mem_distinguish h
  obtain ⟨v, hv, member⟩ := List.mem_filterMap.1 hm'
  exact ⟨v, hv, m', member, told⟩

theorem isMemberNameChar_of_isSuffixChar {c : Char} (h : isSuffixChar c = true) :
    isMemberNameChar c = true := by
  rw [isSuffixChar, Bool.or_eq_true, beq_iff_eq] at h
  rcases h with rfl | digit
  · decide
  · exact isMemberNameChar_iff.2 (.inr (Json.isNumeral_of_isDigit digit))

theorem all_isMemberNameChar_membersOf {values : List Json} {m : Member}
    (h : m ∈ membersOf values) : m.name.toList.all isMemberNameChar = true := by
  obtain ⟨v, -, m', member, -, suffix, name, numbers⟩ := exists_of_mem_membersOf h
  rw [name, List.all_append, all_isMemberNameChar_memberOfValue? member, Bool.true_and]
  exact List.all_eq_true.2 fun c hc => isMemberNameChar_of_isSuffixChar (numbers c hc)

theorem isWhole_membersOf (values : List Json) : ∀ m ∈ membersOf values, m.IsWhole := by
  intro m hm
  obtain ⟨v, -, m', member, literal, -⟩ := exists_of_mem_membersOf hm
  have chars := List.all_eq_true.1 (all_isMemberNameChar_membersOf hm)
  refine ⟨isWhole_of_all (List.all_eq_true.2 fun c hc => ?_),
    literal ▸ isWhole_literal_memberOfValue? member⟩
  exact isPlain_of_isMemberNameChar (chars c hc)

/-! ### Bodies -/

variable {model : String} (named : TypeScript.IsWhole model.toList)

include named

theorem isWhole_enumName (property : String) :
    TypeScript.IsWhole (enumName model property).toList := by
  have suffix : TypeScript.IsWhole "Enum".toList := isWhole_of_all (by decide)
  rw [enumName, String.toList_append, String.toList_append]
  exact (named.append (isWhole_typeName property)).append suffix

theorem isWhole_enumOf? {property : String × Schema} {e : EnumType}
    (h : enumOf? model property = some e) : e.IsWhole := by
  obtain ⟨name, s⟩ := property
  cases s with
  | ref path => cases h
  | inline k properties additional items allOf oneOf anyOf =>
    rw [enumOf?] at h
    split at h
    · cases h
      exact ⟨isWhole_enumName named name, isWhole_membersOf k.enumValues⟩
    · cases h

theorem isWhole_fieldOf (dialect : Dialect) (required : List String)
    (property : String × Schema) : (fieldOf dialect model required property).IsWhole := by
  obtain ⟨name, s⟩ := property
  refine ⟨isWhole_propertyKey name, ?_⟩
  cases s with
  | ref path => exact isWhole_typeOf dialect (.ref path)
  | inline k properties additional items allOf oneOf anyOf =>
    rw [fieldOf, fieldType]
    dsimp only
    split
    · have own : TypeScript.IsWhole (TypeExpr.inFile (enumName model name)).text :=
        isWhole_enumName named name
      exact isBuilt_isWhole.nullableType own dialect
    · exact isWhole_typeOf dialect _

theorem isWhole_body_ofSchema (dialect : Dialect) (s : Schema) :
    (ofSchema dialect model s).body.IsWhole ∧
      ∀ e ∈ (ofSchema dialect model s).enums, e.IsWhole := by
  have none : ∀ e ∈ ([] : List EnumType), e.IsWhole := fun e he => absurd he List.not_mem_nil
  cases s with
  | ref path => exact ⟨isWhole_typeOf dialect (.ref path), none⟩
  | inline k properties additional items allOf oneOf anyOf =>
    rw [ofSchema]
    split
    · exact ⟨isWhole_membersOf k.enumValues, none⟩
    split
    · refine ⟨List.forall_mem_map.2 fun p _ => isWhole_fieldOf named dialect k.required p, ?_⟩
      intro e he
      obtain ⟨p, -, declared⟩ := List.mem_filterMap.1 he
      exact isWhole_enumOf? named declared
    · exact ⟨isWhole_typeOf dialect _, none⟩

omit named

/-! ### Files -/

theorem isWhole_of_mem_ofModel {dialect : Dialect} {m : Model} {f : ModelFile}
    (hf : f ∈ ofModel dialect m) : f.IsWhole := by
  have imports : ∀ n ∈ f.imports, ∀ c ∈ n.toList, InName c := by
    intro n hn c hc
    obtain ⟨path, -, rfl⟩ := exists_ref_of_mem_imports hf hn
    exact inName_of_mem_typeName hc
  rw [ofModel_eq] at hf
  obtain ⟨s, hs, rfl⟩ := List.mem_map.1 hf
  obtain ⟨name, type, -⟩ := mem_leaders hs
  have named : TypeScript.IsWhole s.1.toList := type ▸ isWhole_typeName name
  obtain ⟨body, enums⟩ := isWhole_body_ofSchema named dialect s.2
  refine ⟨?_, imports, body, enums⟩
  rw [name_ofSchema]
  exact named

end OpenApiModels.ModelFile
