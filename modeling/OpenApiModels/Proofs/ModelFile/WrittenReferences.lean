import OpenApiModels.Proofs.ModelFile.References
import OpenApiModels.Proofs.Schema.Induction
import OpenApiModels.TypeScript.Source

/-!
# References that are written

Of the references in a schema only those are written into its type that the first keyword which
decides the type holds. A file imports just the models that it writes, once each and in order, and
each of them stands in the text of one of its types (`mem_imports_iff_writes`).
-/

namespace OpenApiModels

open TypeScript

/-! ### What is written -/

namespace Schema

/-- The dialect reads no constant of the schema. -/
def NoConstant (dialect : Dialect) (k : Keywords) : Prop :=
  dialect = .openapi30 ∨ k.constValue = none

/-- The declared type decides, unless something is composed: there is no constant, and no value is
listed but null. -/
structure ReadsType (dialect : Dialect) (k : Keywords) : Prop where
  noConstant : NoConstant dialect k
  noValues : ∀ v ∈ k.enumValues, v.isNull = true

/-- The type of the schema is written with a reference by this pointer. Of the keywords that compose
a type only the first one counts; items count for arrays, and properties and the schema of further
ones for objects, the latter where no properties are declared. -/
inductive Writes (dialect : Dialect) : Schema → String → Prop where
  | ref (path : String) : Writes dialect (.ref path) path
  | allOf {k : Keywords} {properties : List (String × Schema)}
      {additional : Option (Additional Schema)} {items : Option Schema}
      {allOf oneOf anyOf : List Schema} {s : Schema} {path : String}
      (noConstant : NoConstant dialect k) (part : s ∈ allOf) (inPart : Writes dialect s path) :
      Writes dialect (.inline k properties additional items allOf oneOf anyOf) path
  | oneOf {k : Keywords} {properties : List (String × Schema)}
      {additional : Option (Additional Schema)} {items : Option Schema}
      {oneOf anyOf : List Schema} {s : Schema} {path : String}
      (noConstant : NoConstant dialect k) (part : s ∈ oneOf) (inPart : Writes dialect s path) :
      Writes dialect (.inline k properties additional items [] oneOf anyOf) path
  | anyOf {k : Keywords} {properties : List (String × Schema)}
      {additional : Option (Additional Schema)} {items : Option Schema}
      {anyOf : List Schema} {s : Schema} {path : String}
      (noConstant : NoConstant dialect k) (part : s ∈ anyOf) (inPart : Writes dialect s path) :
      Writes dialect (.inline k properties additional items [] [] anyOf) path
  | item {k : Keywords} {properties : List (String × Schema)}
      {additional : Option (Additional Schema)} {s : Schema} {path : String}
      (readsType : ReadsType dialect k) (array : k.primaryType = some .array)
      (inItem : Writes dialect s path) :
      Writes dialect (.inline k properties additional (some s) [] [] []) path
  | property {k : Keywords} {properties : List (String × Schema)}
      {additional : Option (Additional Schema)} {items : Option Schema} {p : String × Schema}
      {path : String} (readsType : ReadsType dialect k)
      (object : k.primaryType = some .object ∨ k.primaryType = none) (part : p ∈ properties)
      (inProperty : Writes dialect p.2 path) :
      Writes dialect (.inline k properties additional items [] [] []) path
  | further {k : Keywords} {items : Option Schema} {s : Schema} {path : String}
      (readsType : ReadsType dialect k) (object : k.primaryType = some .object)
      (inFurther : Writes dialect s path) :
      Writes dialect (.inline k [] (some (.schema s)) items [] [] []) path

end Schema

namespace TypeScript

open Schema

variable {dialect : Dialect} {k : Keywords} {fields : List (String × Bool × TypeExpr)}
  {additional item : Option TypeExpr} {allOf oneOf anyOf : List TypeExpr} {n : String}

/-! ### Names of models in types -/

theorem names_literalType (v : Json) : (literalType v).names = [] := by
  cases v <;> rfl

theorem inlineType_of_noConstant (h : NoConstant dialect k) :
    inlineType dialect k fields additional item allOf oneOf anyOf =
      if !allOf.isEmpty then .intersection allOf
      else if !oneOf.isEmpty then .union oneOf
      else if !anyOf.isEmpty then .union anyOf
      else (enumType? k.enumValues).getD (declaredType k fields additional item) := by
  unfold inlineType
  split
  · rename_i value isConstant
    rcases h with h | h
    · cases h
    · rw [isConstant] at h
      cases h
  · rfl

theorem enumType?_eq_none_iff {values : List Json} :
    enumType? values = none ↔ ∀ v ∈ values, v.isNull = true := by
  unfold enumType?
  split
  · rename_i none
    simpa [List.filter_eq_nil_iff] using none
  · rename_i some
    simp only [reduceCtorEq, false_iff]
    intro all
    exact some (List.filter_eq_nil_iff.2 fun v hv => by simp [all v hv])

theorem inlineType_of_readsType (h : ReadsType dialect k) :
    inlineType dialect k fields additional item [] [] [] =
      declaredType k fields additional item := by
  rw [inlineType_of_noConstant h.noConstant, enumType?_eq_none_iff.2 h.noValues]
  rfl

theorem mem_names_getD_iff {t : Option TypeExpr} :
    n ∈ (t.getD .unknown).names ↔ ∃ u, t = some u ∧ n ∈ u.names := by
  cases t with
  | none => exact iff_of_false List.not_mem_nil nofun
  | some t => simp

theorem mem_names_declaredType :
    n ∈ (declaredType k fields additional item).names ↔
      (k.primaryType = some .array ∧ ∃ t, item = some t ∧ n ∈ t.names) ∨
      ((k.primaryType = some .object ∨ k.primaryType = none) ∧ n ∈ TypeExpr.fieldNames fields) ∨
      (k.primaryType = some .object ∧ fields = [] ∧ ∃ t, additional = some t ∧ n ∈ t.names) := by
  have noField : n ∉ TypeExpr.fieldNames [] := List.not_mem_nil
  unfold declaredType
  cases primary : k.primaryType with
  | none =>
    cases fields with
    | nil => simp [TypeExpr.unknown, TypeExpr.names, noField]
    | cons f rest => simp [TypeExpr.names]
  | some type =>
    cases type with
    | array => simp [TypeExpr.names, mem_names_getD_iff]
    | object =>
      cases fields with
      | nil => simp [TypeExpr.names, mem_names_getD_iff, noField]
      | cons f rest => simp [TypeExpr.names]
    | string =>
      simp only [scalarType]
      split <;> simp [TypeExpr.names]
    | number | integer | boolean | null => simp [scalarType, TypeExpr.names]

theorem mem_names_inlineType
    (h : n ∈ (inlineType dialect k fields additional item allOf oneOf anyOf).names) :
    NoConstant dialect k ∧ (n ∈ TypeExpr.partNames allOf ∨
      allOf = [] ∧ n ∈ TypeExpr.partNames oneOf ∨
      allOf = [] ∧ oneOf = [] ∧ n ∈ TypeExpr.partNames anyOf ∨
      allOf = [] ∧ oneOf = [] ∧ anyOf = [] ∧ ReadsType dialect k ∧
        n ∈ (declaredType k fields additional item).names) := by
  have noConstant : NoConstant dialect k := by
    by_contra constant
    obtain ⟨notOld, isConstant⟩ := not_or.1 constant
    obtain ⟨v, value⟩ := Option.ne_none_iff_exists'.1 isConstant
    cases dialect with
    | openapi30 => exact notOld rfl
    | openapi31 =>
      unfold inlineType at h
      simp only [value, names_literalType, List.not_mem_nil] at h
  rw [inlineType_of_noConstant noConstant] at h
  refine ⟨noConstant, ?_⟩
  cases allOf with
  | cons t rest => exact .inl h
  | nil =>
    cases oneOf with
    | cons t rest => exact .inr (.inl ⟨rfl, h⟩)
    | nil =>
      cases anyOf with
      | cons t rest => exact .inr (.inr (.inl ⟨rfl, rfl, h⟩))
      | nil =>
        simp only [List.isEmpty_nil, Bool.not_true, Bool.false_eq_true, if_false] at h
        cases listed : enumType? k.enumValues with
        | none =>
          rw [listed] at h
          exact .inr (.inr (.inr ⟨rfl, rfl, rfl,
            ⟨noConstant, enumType?_eq_none_iff.1 listed⟩, h⟩))
        | some t =>
          rw [listed] at h
          unfold enumType? at listed
          split at listed
          · cases listed
          · cases listed
            rw [Option.getD_some, TypeExpr.names, partNames_literals] at h
            cases h

theorem names_typeOf_inline (properties : List (String × Schema))
    (additional : Option (Additional Schema)) (items : Option Schema)
    (allOf oneOf anyOf : List Schema) :
    (typeOf dialect (.inline k properties additional items allOf oneOf anyOf)).names =
      (inlineType dialect k (fieldTypes dialect k.required properties)
        (additionalType dialect additional) (itemType dialect items) (typesOf dialect allOf)
        (typesOf dialect oneOf) (typesOf dialect anyOf)).names := by
  rw [typeOf, names_nullableType]

theorem names_typeOf_readsType (h : ReadsType dialect k) (properties : List (String × Schema))
    (additional : Option (Additional Schema)) (items : Option Schema) :
    (typeOf dialect (.inline k properties additional items [] [] [])).names =
      (declaredType k (fieldTypes dialect k.required properties)
        (additionalType dialect additional) (itemType dialect items)).names := by
  rw [names_typeOf_inline, typesOf, inlineType_of_readsType h]

/-! ### References of types -/

theorem exists_part_of_mem {parts : List Schema}
    (h : n ∈ TypeExpr.partNames (typesOf dialect parts)) :
    ∃ s ∈ parts, n ∈ (typeOf dialect s).names := by
  rw [typesOf_eq_map, mem_partNames] at h
  obtain ⟨_, mem, named⟩ := h
  obtain ⟨s, hs, rfl⟩ := List.mem_map.1 mem
  exact ⟨s, hs, named⟩

theorem eq_nil_of_typesOf {parts : List Schema} (h : typesOf dialect parts = []) : parts = [] := by
  rw [typesOf_eq_map] at h
  exact List.map_eq_nil_iff.1 h

/-- The model names in a type are those of written references. -/
theorem exists_writes (s : Schema) :
    ∀ n ∈ (typeOf dialect s).names, ∃ path, Writes dialect s path ∧ refType path = n := by
  induction s using Schema.induct with
  | ref path =>
    intro n h
    rw [typeOf, TypeExpr.names] at h
    exact ⟨path, .ref path, (List.mem_singleton.1 h).symm⟩
  | inline k properties additional items allOf oneOf anyOf inProperties inAdditional inItems inAllOf
      inOneOf inAnyOf =>
    intro n h
    rw [names_typeOf_inline] at h
    -- one case for each keyword that can decide the type
    obtain ⟨noConstant, part | ⟨noAllOf, part⟩ | ⟨noAllOf, noOneOf, part⟩ |
      ⟨noAllOf, noOneOf, noAnyOf, readsType, declared⟩⟩ := mem_names_inlineType h
    · obtain ⟨s, hs, named⟩ := exists_part_of_mem part
      obtain ⟨path, writes, type⟩ := inAllOf s hs n named
      exact ⟨path, .allOf noConstant hs writes, type⟩
    · obtain rfl := eq_nil_of_typesOf noAllOf
      obtain ⟨s, hs, named⟩ := exists_part_of_mem part
      obtain ⟨path, writes, type⟩ := inOneOf s hs n named
      exact ⟨path, .oneOf noConstant hs writes, type⟩
    · obtain rfl := eq_nil_of_typesOf noAllOf
      obtain rfl := eq_nil_of_typesOf noOneOf
      obtain ⟨s, hs, named⟩ := exists_part_of_mem part
      obtain ⟨path, writes, type⟩ := inAnyOf s hs n named
      exact ⟨path, .anyOf noConstant hs writes, type⟩
    · obtain rfl := eq_nil_of_typesOf noAllOf
      obtain rfl := eq_nil_of_typesOf noOneOf
      obtain rfl := eq_nil_of_typesOf noAnyOf
      rw [fieldTypes_eq_map, additionalType_eq_map, itemType_eq_map] at declared
      rcases mem_names_declaredType.1 declared with ⟨array, t, isItem, named⟩ | ⟨object, named⟩ |
        ⟨object, noFields, t, isFurther, named⟩
      · obtain ⟨s, rfl, rfl⟩ := Option.map_eq_some_iff.1 isItem
        obtain ⟨path, writes, type⟩ := inItems s rfl n named
        exact ⟨path, .item readsType array writes, type⟩
      · obtain ⟨f, hf, named⟩ := mem_fieldNames.1 named
        obtain ⟨p, hp, rfl⟩ := List.mem_map.1 hf
        obtain ⟨path, writes, type⟩ := inProperties p hp n named
        exact ⟨path, .property readsType object hp writes, type⟩
      · obtain rfl := List.map_eq_nil_iff.1 noFields
        obtain ⟨s, further, rfl⟩ := Option.map_eq_some_iff.1 isFurther
        obtain ⟨a, rfl, isSchema⟩ := Option.bind_eq_some_iff.1 further
        cases a with
        | allowed b => cases isSchema
        | schema s' =>
          cases isSchema
          obtain ⟨path, writes, type⟩ := inAdditional s rfl n named
          exact ⟨path, .further readsType object writes, type⟩

theorem mem_partNames_typesOf {parts : List Schema} {s : Schema} (h : s ∈ parts)
    (named : n ∈ (typeOf dialect s).names) : n ∈ TypeExpr.partNames (typesOf dialect parts) := by
  rw [typesOf_eq_map]
  exact mem_partNames.2 ⟨_, List.mem_map_of_mem h, named⟩

theorem isEmpty_typesOf {parts : List Schema} {s : Schema} (h : s ∈ parts) :
    (typesOf dialect parts).isEmpty = false := by
  rw [typesOf_eq_map]
  cases parts with
  | nil => cases h
  | cons => rfl

/-- The name of each written reference is in the type. -/
theorem mem_names_of_writes {s : Schema} {path : String} (h : Writes dialect s path) :
    refType path ∈ (typeOf dialect s).names := by
  induction h with
  | ref path =>
    rw [typeOf, TypeExpr.names]
    exact List.mem_singleton.2 rfl
  | allOf noConstant part _ ih =>
    rw [names_typeOf_inline, inlineType_of_noConstant noConstant, isEmpty_typesOf part]
    exact mem_partNames_typesOf part ih
  | oneOf noConstant part _ ih =>
    rw [names_typeOf_inline, inlineType_of_noConstant noConstant, isEmpty_typesOf part]
    exact mem_partNames_typesOf part ih
  | anyOf noConstant part _ ih =>
    rw [names_typeOf_inline, inlineType_of_noConstant noConstant, isEmpty_typesOf part]
    exact mem_partNames_typesOf part ih
  | item readsType array _ ih =>
    rw [names_typeOf_readsType readsType]
    exact mem_names_declaredType.2 (.inl ⟨array, _, rfl, ih⟩)
  | @property k properties _ _ p _ readsType object part _ ih =>
    rw [names_typeOf_readsType readsType]
    refine mem_names_declaredType.2 (.inr (.inl ⟨object, ?_⟩))
    rw [fieldTypes_eq_map]
    exact mem_fieldNames.2 ⟨_, List.mem_map_of_mem part, ih⟩
  | further readsType object _ ih =>
    rw [names_typeOf_readsType readsType]
    exact mem_names_declaredType.2 (.inr (.inr ⟨object, rfl, _, rfl, ih⟩))

/-! ### Words of a text -/

/-- The name stands in the text as a word of its own. -/
def StandsIn (name text : List Char) : Prop :=
  ∃ a b, text = a ++ (name ++ b) ∧ a.getLast?.any isNameChar = false ∧
    b.head?.any isNameChar = false

namespace StandsIn

variable {name text : List Char}

theorem self (name : List Char) : StandsIn name name :=
  ⟨[], [], by simp, rfl, rfl⟩

theorem within (h : StandsIn name text) {x y : List Char}
    (before : x.getLast?.any isNameChar = false)
    (behind : y.head?.any isNameChar = false) : StandsIn name (x ++ (text ++ y)) := by
  obtain ⟨a, b, rfl, ends, starts⟩ := h
  refine ⟨x ++ a, b ++ y, by simp only [List.append_assoc], ?_, ?_⟩
  · rw [List.getLast?_append]
    cases last : a.getLast? with
    | none => exact before
    | some c =>
      rw [last] at ends
      exact ends
  · rw [List.head?_append]
    cases first : b.head? with
    | none => exact behind
    | some c =>
      rw [first] at starts
      exact starts

theorem parenthesizeUnion (h : StandsIn name text) :
    StandsIn name (TypeExpr.parenthesizeUnion text) := by
  unfold TypeExpr.parenthesizeUnion
  split
  · exact h.within (x := ['(']) (y := [')']) (by decide) (by decide)
  · exact h

theorem arrayText (h : StandsIn name text) : StandsIn name (TypeExpr.arrayText text) := by
  unfold TypeExpr.arrayText
  split
  · exact h.within (x := ['(']) (y := ")[]".toList) (by decide) (by decide)
  · exact h.within (x := []) (y := "[]".toList) (by decide) (by decide)

theorem orNullText (h : StandsIn name text) : StandsIn name (TypeExpr.orNullText text) := by
  unfold TypeExpr.orNullText
  split
  · exact h
  · exact h.parenthesizeUnion.within (x := []) (y := " | null".toList) (by decide) (by decide)

theorem fieldText (h : StandsIn name text) (key : String) (required : Bool) :
    StandsIn name (TypeExpr.fieldText key required text) := by
  have word := h.within (x := key.toList ++ (if required then [] else ['?']) ++ [':', ' '])
    (y := []) (by simp; decide) rfl
  simpa [TypeExpr.fieldText] using word

theorem intercalate {sep : List Char} (starts : sep.head?.any isNameChar = false)
    (ends : sep.getLast?.any isNameChar = false) (solid : sep ≠ []) {parts : List (List Char)}
    {part : List Char} (h : StandsIn name part) (mem : part ∈ parts) :
    StandsIn name (List.intercalate sep parts) := by
  induction parts with
  | nil => cases mem
  | cons first rest ih =>
    cases rest with
    | nil =>
      rw [List.intercalate_singleton, ← List.mem_singleton.1 mem]
      exact h
    | cons second rest =>
      rw [List.intercalate_cons_cons]
      rcases List.mem_cons.1 mem with rfl | later
      · have word := h.within (x := []) (y := sep ++ List.intercalate sep (second :: rest)) rfl
          (by rwa [List.head?_append_of_ne_nil _ solid])
        simpa using word
      · have word := (ih later).within (x := first ++ sep) (y := [])
          (by rwa [List.getLast?_append_of_ne_nil _ solid]) rfl
        simpa using word

end StandsIn

mutual

/-- Each model name in a type stands in its text as a word. -/
theorem standsIn_of_mem_names : ∀ t : TypeExpr, ∀ n ∈ t.names, StandsIn n.toList t.text
  | .named name, n, h => by
    rw [TypeExpr.names] at h
    rw [List.mem_singleton.1 h]
    exact .self _
  | .inFile _, n, h => nomatch h
  | .builtin _, n, h => nomatch h
  | .literal _, n, h => nomatch h
  | .array item, n, h => by
    rw [TypeExpr.names] at h
    exact (standsIn_of_mem_names item n h).arrayText
  | .record value, n, h => by
    rw [TypeExpr.names] at h
    have word := (standsIn_of_mem_names value n h).within (x := "Record<string, ".toList)
      (y := ['>']) (by decide) (by decide)
    rwa [← List.append_assoc, ← TypeExpr.text_record] at word
  | .object fields, n, h => by
    rw [TypeExpr.names] at h
    obtain ⟨f, hf, word⟩ := standsIn_of_mem_fieldNames fields n h
    have field := List.mem_map_of_mem (f := fun f => TypeExpr.fieldText f.1 f.2.1 f.2.2.text) hf
    have joined : StandsIn n.toList (List.intercalate [';', ' '] _) :=
      (word.fieldText f.1 f.2.1).intercalate (by decide) (by decide) (by decide) field
    have enclosed := joined.within (x := ['\x7b', ' ']) (y := [' ', '\x7d']) (by decide) (by decide)
    rw [TypeExpr.text_object]
    exact enclosed
  | .intersection parts, n, h => by
    rw [TypeExpr.names] at h
    obtain ⟨t, ht, word⟩ := standsIn_of_mem_partNames parts n h
    rw [TypeExpr.text_intersection]
    exact word.parenthesizeUnion.intercalate (by decide) (by decide) (by decide)
      (List.mem_map_of_mem (List.mem_map_of_mem ht))
  | .union parts, n, h => by
    rw [TypeExpr.names] at h
    obtain ⟨t, ht, word⟩ := standsIn_of_mem_partNames parts n h
    rw [TypeExpr.text_union]
    exact word.intercalate (by decide) (by decide) (by decide) (List.mem_map_of_mem ht)
  | .orNull base, n, h => by
    rw [TypeExpr.names] at h
    exact (standsIn_of_mem_names base n h).orNullText

theorem standsIn_of_mem_partNames : ∀ parts : List TypeExpr, ∀ n ∈ TypeExpr.partNames parts,
    ∃ t ∈ parts, StandsIn n.toList t.text
  | [], n, h => nomatch h
  | t :: rest, n, h => by
    rw [TypeExpr.partNames] at h
    rcases List.mem_append.1 h with here | later
    · exact ⟨t, List.mem_cons_self, standsIn_of_mem_names t n here⟩
    · obtain ⟨u, hu, word⟩ := standsIn_of_mem_partNames rest n later
      exact ⟨u, List.mem_cons_of_mem _ hu, word⟩

theorem standsIn_of_mem_fieldNames : ∀ fields : List (String × Bool × TypeExpr),
    ∀ n ∈ TypeExpr.fieldNames fields, ∃ f ∈ fields, StandsIn n.toList f.2.2.text
  | [], n, h => nomatch h
  | (key, required, t) :: rest, n, h => by
    rw [TypeExpr.fieldNames] at h
    rcases List.mem_append.1 h with here | later
    · exact ⟨_, List.mem_cons_self, standsIn_of_mem_names t n here⟩
    · obtain ⟨f, hf, word⟩ := standsIn_of_mem_fieldNames rest n later
      exact ⟨f, List.mem_cons_of_mem _ hf, word⟩

end

end TypeScript

namespace ModelFile

open Schema

/-! ### Files -/

/-- The file of the schema writes a type with a reference by this pointer: that of a property of an
interface, unless the property has an enum of its own, or that of an alias. An enum writes none. -/
inductive Writes (dialect : Dialect) : Schema → String → Prop where
  | reference (path : String) : Writes dialect (.ref path) path
  | field {k : Keywords} {properties : List (String × Schema)}
      {additional : Option (Additional Schema)} {items : Option Schema}
      {allOf oneOf anyOf : List Schema} {p : String × Schema} {path : String}
      (notEnum : k.isEnum = false)
      (interface : isInterface k properties additional allOf oneOf anyOf = true)
      (part : p ∈ properties) (unlisted : isListed p.2 = false)
      (inProperty : p.2.Writes dialect path) :
      Writes dialect (.inline k properties additional items allOf oneOf anyOf) path
  | target {k : Keywords} {properties : List (String × Schema)}
      {additional : Option (Additional Schema)} {items : Option Schema}
      {allOf oneOf anyOf : List Schema} {path : String} (notEnum : k.isEnum = false)
      (notInterface : isInterface k properties additional allOf oneOf anyOf = false)
      (inTarget : (Schema.inline k properties additional items allOf oneOf anyOf).Writes
        dialect path) :
      Writes dialect (.inline k properties additional items allOf oneOf anyOf) path

variable {dialect : Dialect} {n : String}

theorem fieldType_of_unlisted {s : Schema} (h : isListed s = false) (model name : String) :
    fieldType dialect model name s = typeOf dialect s := by
  cases s with
  | ref path => rfl
  | inline k properties additional items allOf oneOf anyOf =>
    rw [isListed] at h
    simp [fieldType, h]

theorem names_fieldType_of_listed {s : Schema} (h : isListed s = true) (model name : String) :
    (fieldType dialect model name s).names = [] := by
  cases s with
  | ref path => cases h
  | inline k properties additional items allOf oneOf anyOf =>
    rw [isListed] at h
    simp only [fieldType, h, if_true]
    rw [names_nullableType, TypeExpr.names]

/-- A file refers to the models of the references that it writes. -/
theorem mem_references_iff (name : String) (s : Schema) :
    n ∈ (ofSchema dialect name s).references ↔
      ∃ path, Writes dialect s path ∧ refType path = n := by
  cases s with
  | ref path =>
    simp only [ofSchema, references, Body.types, List.flatMap_cons, List.flatMap_nil,
      List.append_nil]
    constructor
    · intro h
      obtain ⟨_, ⟨⟩, type⟩ := exists_writes (.ref path) n h
      exact ⟨path, .reference path, type⟩
    · rintro ⟨_, ⟨⟩, rfl⟩
      exact mem_names_of_writes (.ref path)
  | inline k properties additional items allOf oneOf anyOf =>
    simp only [ofSchema, references]
    cases isEnum : k.isEnum with
    | true =>
      simp only [if_true, Body.types, List.flatMap_nil, List.not_mem_nil, false_iff]
      rintro ⟨path, h, -⟩
      cases h <;> simp_all
    | false =>
      cases interface : isInterface k properties additional allOf oneOf anyOf with
      | true =>
        simp only [Bool.false_eq_true, if_false, if_true, Body.types, List.mem_flatMap,
          List.mem_map]
        constructor
        · rintro ⟨_, ⟨_, ⟨p, hp, rfl⟩, rfl⟩, named⟩
          change n ∈ (fieldType dialect name p.1 p.2).names at named
          cases listed : isListed p.2 with
          | true =>
            rw [names_fieldType_of_listed listed] at named
            cases named
          | false =>
            rw [fieldType_of_unlisted listed] at named
            obtain ⟨path, writes, type⟩ := exists_writes p.2 n named
            exact ⟨path, .field isEnum interface hp listed writes, type⟩
        · rintro ⟨path, h, rfl⟩
          cases h with
          | target _ notInterface _ =>
            rw [interface] at notInterface
            cases notInterface
          | @field _ _ _ _ _ _ _ p _ _ _ part unlisted inProperty =>
            refine ⟨_, ⟨_, ⟨p, part, rfl⟩, rfl⟩, ?_⟩
            change refType path ∈ (fieldType dialect name p.1 p.2).names
            rw [fieldType_of_unlisted unlisted]
            exact mem_names_of_writes inProperty
      | false =>
        simp only [Bool.false_eq_true, if_false, Body.types, List.flatMap_cons, List.flatMap_nil,
          List.append_nil]
        constructor
        · intro h
          obtain ⟨path, writes, type⟩ := exists_writes _ n h
          exact ⟨path, .target isEnum interface writes, type⟩
        · rintro ⟨path, h, rfl⟩
          cases h with
          | field _ isInterface _ _ _ =>
            rw [interface] at isInterface
            cases isInterface
          | target _ _ inTarget => exact mem_names_of_writes inTarget

/-! ### Imports -/

theorem nodup_eraseDups (xs : List String) : xs.eraseDups.Nodup := by
  induction len : xs.length using Nat.strongRecOn generalizing xs with
  | _ m ih =>
    cases xs with
    | nil => exact List.nodup_nil
    | cons x rest =>
      rw [List.eraseDups_cons, List.nodup_cons]
      refine ⟨fun mem => ?_, ih _ ?_ _ rfl⟩
      · have other := (List.mem_filter.1 (List.mem_eraseDups.1 mem)).2
        simp at other
      · rw [← len, List.length_cons]
        exact Nat.lt_succ_of_le (List.length_filter_le _ rest)

theorem pairwise_imports (f : ModelFile) : f.imports.Pairwise (· < ·) := by
  have ordered : f.imports.Pairwise (· ≤ ·) := by
    let le : String → String → Bool := fun a b => decide (a ≤ b)
    have sorted : f.imports.Pairwise fun a b => le a b = true :=
      List.pairwise_mergeSort (fun a b c => by simpa [le] using String.le_trans)
        (fun a b => by simpa [le] using String.le_total a b) _
    exact sorted.imp fun le => of_decide_eq_true le
  have distinct : f.imports.Nodup :=
    (List.mergeSort_perm _ _).nodup_iff.2 ((nodup_eraseDups _).filter _)
  exact (ordered.and distinct).imp fun ⟨le, ne⟩ => Std.lt_of_le_of_ne le ne

/-- A file of a spec imports the models of the references that its schema writes into the types of
the file, its own model left out, and no others, in ascending order and without repetition. The name
of each written reference stands as a word in one of the types. -/
theorem mem_imports_iff_writes {m : Model} {f : ModelFile} (h : f ∈ ofModel dialect m) :
    f.imports.Pairwise (· < ·) ∧ f.name ∉ f.imports ∧
      ∃ name s, (name, s) ∈ m.schemas ∧ f = ofSchema dialect (typeName name) s ∧
        (∀ n, n ∈ f.imports ↔ n ≠ f.name ∧ ∃ path, Writes dialect s path ∧ refType path = n) ∧
        ∀ path, Writes dialect s path →
          ∃ t ∈ f.body.types, StandsIn (refType path).toList t.text := by
  refine ⟨pairwise_imports f, fun mem => (mem_imports.1 mem).2 rfl, ?_⟩
  rw [ofModel_eq] at h
  obtain ⟨⟨type, s⟩, leads, rfl⟩ := List.mem_map.1 h
  obtain ⟨name, rfl, declared⟩ := mem_leaders leads
  refine ⟨name, s, declared, rfl, fun n => ?_, fun path writes => ?_⟩
  · rw [mem_imports, mem_references_iff, and_comm]
  · have mem : refType path ∈ (ofSchema dialect (typeName name) s).references :=
      (mem_references_iff (typeName name) s).2 ⟨path, writes, rfl⟩
    obtain ⟨t, ht, named⟩ := List.mem_flatMap.1 mem
    exact ⟨t, ht, standsIn_of_mem_names t _ named⟩

/-- A spec with an object that refers to a pet, to itself, and in the items of a string to no
effect. -/
def petOrders : Model where
  info := {}
  components := [("order", .inline { types := [.object] }
    [("pet", .ref "#/components/schemas/pet"), ("next", .ref "#/components/schemas/order"),
      ("note", .inline { types := [.string] } [] none (some (.ref "#/components/schemas/tag"))
        [] [] [])] none none [] [] [])]
  definitions := []

theorem imports_petOrders : ∃ f ∈ ofModel .openapi31 petOrders, f.imports = ["Pet"] ∧
    f.imports.Pairwise (· < ·) ∧ f.name ∉ f.imports ∧
      ∃ name s, (name, s) ∈ petOrders.schemas ∧ f = ofSchema .openapi31 (typeName name) s ∧
        (∀ n, n ∈ f.imports ↔ n ≠ f.name ∧ ∃ path, Writes .openapi31 s path ∧ refType path = n) ∧
        ∀ path, Writes .openapi31 s path →
          ∃ t ∈ f.body.types, StandsIn (refType path).toList t.text :=
  ⟨_, List.mem_cons_self, by decide +kernel, mem_imports_iff_writes List.mem_cons_self⟩

end ModelFile

end OpenApiModels
