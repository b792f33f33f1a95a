import OpenApiModels.Proofs.ModelFile.EnumValues
import OpenApiModels.Proofs.ModelFile.WholeFiles
import OpenApiModels.Proofs.TypeScript.Identifiers
import OpenApiModels.Proofs.TypeScript.WordSequence

/-!
# Generated names as identifiers

Names of models, of the enums of properties and of enum members are identifiers but for a few
letters, for names without a letter or digit, for digits beyond ASCII in front, and for numbers that
are written with a positive exponent (`isIdentifier_iff`).
-/

namespace OpenApiModels.ModelFile

open Json Text TypeScript

/-! ### Enums of properties -/

/-- The name of an enum of a property, which is never empty. -/
theorem isIdentifier_enumName_iff (schema property : String) :
    IsIdentifier (enumName (typeName schema) property) ↔
      StartsWell (schema.toList ++ property.toList) ∧
        ∀ word ∈ words schema.toList ++ words property.toList, IsPlainWord word := by
  have suffix : AllNameChars "Enum".toList := List.all_eq_true.1 (by decide)
  rw [isIdentifier_iff_chars, enumName, String.toList_append, String.toList_append,
    ← AllNameChars, allNameChars_append, allNameChars_append, and_iff_left suffix,
    allNameChars_typeName_iff, allNameChars_typeName_iff, List.forall_mem_append]
  refine and_congr ?_ Iff.rfl
  rw [StartsWell, List.find?_append]
  rw [List.head?_append, List.head?_append]
  rcases head?_typeName schema with ⟨none, empty⟩ | ⟨c, d, first, front, start⟩
  · rw [none, empty]
    rcases head?_typeName property with ⟨none, empty⟩ | ⟨c, d, first, front, start⟩
    · rw [none, empty]
      exact iff_of_true (by decide) fun c front => by cases front
    · rw [first, front]
      simp [start]
  · rw [first, front]
    simp [start]

/-! ### Members -/

theorem isNameChar_of_isDigit {c : Char} (h : c.isDigit = true) : isNameChar c = true :=
  (isNameChar_of_isAsciiNameChar (by simp [isAsciiNameChar, Char.isAlphanum, h] :
    isAsciiNameChar c = true)).1

theorem allNameChars_of_isSuffixChar {suffix : List Char}
    (h : ∀ c ∈ suffix, isSuffixChar c = true) : AllNameChars suffix := by
  intro c hc
  have isSuffix := h c hc
  rw [isSuffixChar, Bool.or_eq_true, beq_iff_eq] at isSuffix
  rcases isSuffix with rfl | digit
  · decide
  · exact isNameChar_of_isDigit digit

/-- The number behind a name leaves it an identifier, or none. -/
theorem isIdentifier_append_iff {name base : String} {suffix : List Char}
    (text : name.toList = base.toList ++ suffix) (solid : base ≠ "")
    (numbers : ∀ c ∈ suffix, isSuffixChar c = true) : IsIdentifier name ↔ IsIdentifier base := by
  have chars := allNameChars_of_isSuffixChar numbers
  rw [isIdentifier_iff_chars, isIdentifier_iff_chars, text, ← AllNameChars, ← AllNameChars,
    allNameChars_append, and_iff_left chars]
  cases front : base.toList with
  | nil => exact absurd (String.toList_eq_nil_iff.1 front) solid
  | cons c r => rfl

/-- The value has a name that is an identifier. -/
def NamesWell : Json → Prop
  | .string s => StartsWell s.toList ∧ ∀ c ∈ s.toList, hasMarkedCapital c = false
  | .number n => '+' ∉ (Json.number n).compactText.toList
  | _ => False

/-- In the name of a number its sign and point are replaced, but not the sign of an exponent. -/
theorem allNameChars_number_iff (n : Number.Value) :
    AllNameChars ((numberText n).map fun c => if c == '-' || c == '.' then '_' else c) ↔
      '+' ∉ numberText n := by
  constructor
  · intro all mem
    exact absurd (all '+' (List.mem_map.2 ⟨'+', mem, rfl⟩)) (by decide)
  · intro noSign d hd
    obtain ⟨c, hc, rfl⟩ := List.mem_map.1 hd
    have numeral := isNumeral_of_mem_numberText hc
    have other : c ≠ '+' := fun same => noSign (same ▸ hc)
    simp only [isNumeral, Bool.or_eq_true, beq_iff_eq, other, or_false] at numeral
    rcases numeral with ((digit | rfl) | rfl) | rfl
    · split
      · decide
      · exact isNameChar_of_isDigit digit
    all_goals decide

theorem isIdentifier_memberOfValue?_iff {v : Json} {b : Member} (h : memberOfValue? v = some b) :
    b.name ≠ "" ∧ (IsIdentifier b.name ↔ NamesWell v) := by
  cases v with
  | string s =>
    cases h
    exact ⟨memberName_ne s, isIdentifier_memberName_iff s⟩
  | number n =>
    cases h
    have text : (Json.number n).compactText = String.ofList (numberText n) := rfl
    have start : AllNameChars ['N', 'U', 'M', 'B', 'E', 'R', '_'] :=
      List.all_eq_true.1 (by decide)
    refine ⟨fun same => ?_, ?_⟩
    · have front := congrArg (fun s : String => s.toList.head?) same
      rw [String.toList_append] at front
      cases front
    · rw [NamesWell, isIdentifier_iff_chars, ← AllNameChars, text, String.toList_append,
        String.toList_ofList, String.toList_ofList, String.toList_ofList, allNameChars_append,
        and_iff_right start, allNameChars_number_iff]
      exact and_iff_right rfl
  | null | bool | array | object => cases h

/-- What holds of members with a number behind the name for their value holds of all members. -/
theorem forall₂_distinguish {P : Json → Member → Prop}
    (h : ∀ v b m, memberOfValue? v = some b → (∃ suffix, m.name.toList = b.name.toList ++ suffix ∧
      ∀ c ∈ suffix, isSuffixChar c = true) → P v m) (values : List Json) (used : List String) :
    List.Forall₂ P (values.filter isMemberValue)
      (distinguish used (values.filterMap memberOfValue?)) := by
  induction values generalizing used with
  | nil => exact .nil
  | cons v rest ih =>
    cases v with
    | string s => exact .cons (h _ _ _ rfl (exists_suffix_unusedName used _)) (ih _)
    | number n => exact .cons (h _ _ _ rfl (exists_suffix_unusedName used _)) (ih _)
    | null | bool | array | object => exact ih used

/-- Where a generated name is read as one identifier. The name of a model is one just if the schema
has a letter or digit in its name, the first one is a letter or a digit of ASCII, and no word starts
with a letter whose capital gets a mark or has an `İ` behind its first letter. For the enum of a
property that holds of the two names in turn, and no letter is needed. The member for a string needs
the same start and no letter whose capital gets a mark, and the one for a number that it is written
without a plus sign. -/
theorem isIdentifier_iff (schema property : String) (values : List Json) :
    (IsIdentifier (typeName schema) ↔ schema.toList.any isAlphanumeric = true ∧
      StartsWell schema.toList ∧ ∀ word ∈ words schema.toList, IsPlainWord word) ∧
    (IsIdentifier (enumName (typeName schema) property) ↔
      StartsWell (schema.toList ++ property.toList) ∧
        ∀ word ∈ words schema.toList ++ words property.toList, IsPlainWord word) ∧
    List.Forall₂ (fun v m => IsIdentifier m.name ↔ NamesWell v)
      (values.filter isMemberValue) (membersOf values) := by
  refine ⟨isIdentifier_typeName_iff schema, isIdentifier_enumName_iff schema property, ?_⟩
  refine forall₂_distinguish (fun v b m member ⟨suffix, text, numbers⟩ => ?_) values []
  obtain ⟨solid, named⟩ := isIdentifier_memberOfValue?_iff member
  exact (isIdentifier_append_iff text solid numbers).trans named

/-- Names that are not read as one identifier: that of a schema without a letter or digit, one that
starts with a digit beyond ASCII, and that of a large number. -/
theorem exists_not_isIdentifier :
    ¬ IsIdentifier (typeName "--") ∧ ¬ IsIdentifier (typeName "٣d") ∧
      ∃ v m, Json.read? "1e16" = some v ∧ membersOf [v] = [m] ∧ m.name = "NUMBER_1e+16" ∧
        ¬ IsIdentifier m.name := by
  have noName : ¬ IsIdentifier "" := by
    rw [isIdentifier_iff_chars]
    decide
  have digit : ¬ IsIdentifier "٣d" := by
    rw [isIdentifier_iff_chars]
    exact fun ⟨start, _⟩ => absurd start (by decide +kernel)
  have sign : ¬ IsIdentifier "NUMBER_1e+16" := by
    rw [isIdentifier_iff_chars]
    exact fun ⟨_, chars⟩ => absurd (chars '+' (by decide)) (by decide)
  have names : typeName "--" = "" ∧ typeName "٣d" = "٣d" := by decide +kernel
  have read : ((Json.read? "1e16").map fun v => (membersOf [v]).map (·.name)) =
      some ["NUMBER_1e+16"] := by
    decide +kernel
  rw [names.1, names.2]
  refine ⟨noName, digit, ?_⟩
  obtain ⟨v, isRead, members⟩ := Option.map_eq_some_iff.1 read
  obtain ⟨m, single, name⟩ := List.map_eq_singleton_iff.1 members
  exact ⟨v, m, isRead, single, name, by rwa [name]⟩

end OpenApiModels.ModelFile
