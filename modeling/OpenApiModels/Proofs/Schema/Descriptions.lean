import OpenApiModels.Proofs.ModelFile.DeclaredNames
import OpenApiModels.Proofs.Schema.Induction

/-!
# Specs without descriptions

Descriptions go into the comments of the files of a spec and nowhere else: without them, the files
are the same but for their own descriptions (`ofModel_undescribed`).
-/

namespace OpenApiModels

open TypeScript

/-! ### Schemas -/

def Keywords.undescribed (k : Keywords) : Keywords :=
  { k with description := none }

mutual

/-- The schema without its descriptions, at any depth. -/
def Schema.undescribed : Schema → Schema
  | .ref path => .ref path
  | .inline k properties additional items allOf oneOf anyOf =>
    .inline k.undescribed (undescribedProperties properties) (undescribedAdditional additional)
      (undescribedItem items) (undescribedParts allOf) (undescribedParts oneOf)
      (undescribedParts anyOf)

def Schema.undescribedParts : List Schema → List Schema
  | [] => []
  | s :: rest => s.undescribed :: undescribedParts rest

def Schema.undescribedProperties : List (String × Schema) → List (String × Schema)
  | [] => []
  | (name, s) :: rest => (name, s.undescribed) :: undescribedProperties rest

def Schema.undescribedAdditional :
    Option (Additional Schema) → Option (Additional Schema)
  | some (.schema s) => some (.schema s.undescribed)
  | some (.allowed b) => some (.allowed b)
  | none => none

def Schema.undescribedItem : Option Schema → Option Schema
  | some s => some s.undescribed
  | none => none

end

/-- A named schema without its descriptions. -/
def undescribedSchema (s : String × Schema) : String × Schema :=
  (s.1, s.2.undescribed)

/-- The model without any description. -/
def Model.undescribed (m : Model) : Model where
  info := { m.info with description := none }
  components := m.components.map undescribedSchema
  definitions := m.definitions.map undescribedSchema

namespace Schema

theorem undescribedParts_eq_map (parts : List Schema) :
    undescribedParts parts = parts.map undescribed := by
  induction parts with
  | nil => rfl
  | cons s rest ih => rw [undescribedParts, ih, List.map_cons]

theorem undescribedProperties_eq_map (properties : List (String × Schema)) :
    undescribedProperties properties = properties.map undescribedSchema := by
  induction properties with
  | nil => rfl
  | cons p rest ih =>
    rw [undescribedProperties, ih, List.map_cons]
    rfl

theorem schema?_undescribedAdditional (additional : Option (Additional Schema)) :
    (undescribedAdditional additional).bind Additional.schema? =
      (additional.bind Additional.schema?).map undescribed := by
  rcases additional with - | (b | s) <;> rfl

theorem undescribedItem_eq_map (items : Option Schema) :
    undescribedItem items = items.map undescribed := by
  cases items <;> rfl

end Schema

theorem Model.schemas_undescribed (m : Model) :
    m.undescribed.schemas = m.schemas.map undescribedSchema := by
  have keys (name : String) : Keyed.hasKey name (m.components.map undescribedSchema) =
      Keyed.hasKey name m.components := by
    simp only [Keyed.hasKey, List.any_map]
    rfl
  simp only [schemas, undescribed, List.map_append, List.filter_map, Function.comp_def]
  simp only [undescribedSchema, keys]

namespace TypeScript

theorem typesOf_undescribed {dialect : Dialect} {parts : List Schema}
    (h : ∀ s ∈ parts, typeOf dialect s.undescribed = typeOf dialect s) :
    typesOf dialect (Schema.undescribedParts parts) = typesOf dialect parts := by
  rw [Schema.undescribedParts_eq_map, typesOf_eq_map, typesOf_eq_map, List.map_map]
  exact List.map_congr_left h

/-- No type depends on a description. -/
theorem typeOf_undescribed (dialect : Dialect) (s : Schema) :
    typeOf dialect s.undescribed = typeOf dialect s := by
  induction s using Schema.induct with
  | ref path => rfl
  | inline k properties additional items allOf oneOf anyOf inProperties inAdditional inItems inAllOf
      inOneOf inAnyOf =>
    have fields : fieldTypes dialect k.required (Schema.undescribedProperties properties) =
        fieldTypes dialect k.required properties := by
      rw [Schema.undescribedProperties_eq_map, fieldTypes_eq_map, fieldTypes_eq_map, List.map_map]
      refine List.map_congr_left fun p hp => ?_
      rw [Function.comp_apply, undescribedSchema, inProperties p hp]
    have further : additionalType dialect (Schema.undescribedAdditional additional) =
        additionalType dialect additional := by
      rw [additionalType_eq_map, additionalType_eq_map, Schema.schema?_undescribedAdditional,
        Option.map_map]
      refine Option.map_congr fun s hs => ?_
      obtain ⟨a, rfl, isSchema⟩ := Option.bind_eq_some_iff.1 hs
      cases a with
      | allowed b => cases isSchema
      | schema s' => exact inAdditional s (by rw [← Option.some.inj isSchema])
    have item : itemType dialect (Schema.undescribedItem items) = itemType dialect items := by
      rw [itemType_eq_map, itemType_eq_map, Schema.undescribedItem_eq_map, Option.map_map]
      exact Option.map_congr inItems
    have own (base : TypeExpr) : nullableType dialect k.undescribed base =
        nullableType dialect k base := rfl
    rw [Schema.undescribed, typeOf, typeOf, own]
    refine congrArg (nullableType dialect k) ?_
    change inlineType dialect k.undescribed (fieldTypes dialect k.required _) _ _ _ _ _ = _
    rw [fields, further, item, typesOf_undescribed inAllOf, typesOf_undescribed inOneOf,
      typesOf_undescribed inAnyOf]
    rfl

end TypeScript

/-! ### Files -/

namespace ModelFile

def Field.undescribed (f : Field) : Field :=
  { f with description := none }

def EnumType.undescribed (e : EnumType) : EnumType :=
  { e with description := none }

def Body.undescribed : Body → Body
  | .enum members => .enum members
  | .interface fields isOpen => .interface (fields.map Field.undescribed) isOpen
  | .alias target => .alias target

/-- The file without descriptions. -/
def undescribed (f : ModelFile) : ModelFile where
  name := f.name
  description := none
  body := f.body.undescribed
  enums := f.enums.map EnumType.undescribed

theorem isPlainEnum_undescribed (k : Keywords) (allOf oneOf anyOf : List Schema) :
    isPlainEnum k.undescribed (Schema.undescribedParts allOf) (Schema.undescribedParts oneOf)
      (Schema.undescribedParts anyOf) = isPlainEnum k allOf oneOf anyOf := by
  simp only [isPlainEnum, Schema.undescribedParts_eq_map, List.isEmpty_map]
  rfl

theorem isInterface_undescribed (k : Keywords) (properties : List (String × Schema))
    (additional : Option (Additional Schema)) (allOf oneOf anyOf : List Schema) :
    isInterface k.undescribed (Schema.undescribedProperties properties)
      (Schema.undescribedAdditional additional) (Schema.undescribedParts allOf)
      (Schema.undescribedParts oneOf) (Schema.undescribedParts anyOf) =
        isInterface k properties additional allOf oneOf anyOf := by
  simp only [isInterface, Schema.undescribedParts_eq_map, Schema.undescribedProperties_eq_map,
    List.isEmpty_map]
  rcases additional with - | (b | s) <;> rfl

theorem enumOf?_undescribed (model : String) (property : String × Schema) :
    enumOf? model (undescribedSchema property) =
      (enumOf? model property).map EnumType.undescribed := by
  obtain ⟨name, s⟩ := property
  cases s with
  | ref path => rfl
  | inline k properties additional items allOf oneOf anyOf =>
    rw [undescribedSchema, Schema.undescribed, enumOf?, enumOf?, isPlainEnum_undescribed]
    split <;> rfl

theorem fieldType_undescribed (dialect : Dialect) (model name : String) (s : Schema) :
    fieldType dialect model name s.undescribed = fieldType dialect model name s := by
  have whole := typeOf_undescribed dialect s
  cases s with
  | ref path => rfl
  | inline k properties additional items allOf oneOf anyOf =>
    rw [Schema.undescribed] at whole ⊢
    rw [fieldType, fieldType, isPlainEnum_undescribed, whole]
    rfl

theorem fieldOf_undescribed (dialect : Dialect) (model : String) (required : List String)
    (property : String × Schema) :
    fieldOf dialect model required (undescribedSchema property) =
      (fieldOf dialect model required property).undescribed := by
  obtain ⟨name, s⟩ := property
  have type := fieldType_undescribed dialect model name s
  cases s with
  | ref path => rfl
  | inline k properties additional items allOf oneOf anyOf =>
    simp only [fieldOf, undescribedSchema, Field.undescribed, type]
    rfl

theorem ofSchema_undescribed (dialect : Dialect) (name : String) (s : Schema) :
    ofSchema dialect name s.undescribed = (ofSchema dialect name s).undescribed := by
  have whole := typeOf_undescribed dialect s
  cases s with
  | ref path => rfl
  | inline k properties additional items allOf oneOf anyOf =>
    have listed : k.undescribed.isEnum = k.isEnum := rfl
    have further : admitsFurther (Schema.undescribedAdditional additional) =
        admitsFurther additional := by
      rcases additional with - | (b | s) <;> rfl
    rw [Schema.undescribed] at whole ⊢
    rw [ofSchema, ofSchema, listed, isInterface_undescribed, whole, further,
      Schema.undescribedProperties_eq_map]
    split
    · rfl
    split
    · have fields : (properties.map undescribedSchema).map (fieldOf dialect name k.required) =
          (properties.map (fieldOf dialect name k.required)).map Field.undescribed := by
        simp only [List.map_map, Function.comp_def, fieldOf_undescribed]
      have enums : (properties.map undescribedSchema).filterMap (enumOf? name) =
          (properties.filterMap (enumOf? name)).map EnumType.undescribed := by
        simp only [List.filterMap_map, List.map_filterMap, Function.comp_def, enumOf?_undescribed]
      simp only [undescribed, Body.undescribed, ← fields, ← enums]
      rfl
    · rfl

theorem leaders_undescribed (seen : List String) (schemas : List (String × Schema)) :
    leaders seen (schemas.map undescribedSchema) =
      (leaders seen schemas).map undescribedSchema := by
  induction schemas generalizing seen with
  | nil => rfl
  | cons first rest ih =>
    obtain ⟨name, s⟩ := first
    rw [List.map_cons, undescribedSchema, leaders, leaders, ih, ih]
    split
    · rfl
    · rfl

/-- Without descriptions a spec has the same files, without theirs. -/
theorem ofModel_undescribed (dialect : Dialect) (m : Model) :
    ofModel dialect m.undescribed = (ofModel dialect m).map undescribed := by
  rw [ofModel_eq, ofModel_eq, Model.schemas_undescribed, leaders_undescribed, List.map_map,
    List.map_map]
  exact List.map_congr_left fun s _ => ofSchema_undescribed dialect s.1 s.2

end ModelFile

end OpenApiModels
