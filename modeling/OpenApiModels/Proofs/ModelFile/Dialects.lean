import OpenApiModels.Proofs.ModelFile.Emitted

/-!
# What both dialects read alike

The dialects differ in `nullable`, in constants and in lists of types that contain null. A spec
without them is rendered alike by both adapters (`render_dialects`).
-/

namespace OpenApiModels

open TypeScript

/-! ### Keywords at any depth -/

mutual

/-- The keywords of a schema and of all schemas in it. -/
def Schema.keywords : Schema → List Keywords
  | .ref _ => []
  | .inline k properties additional items allOf oneOf anyOf =>
    k :: (propertyKeywords properties ++ additionalKeywords additional ++ itemKeywords items ++
      partKeywords allOf ++ partKeywords oneOf ++ partKeywords anyOf)

def Schema.partKeywords : List Schema → List Keywords
  | [] => []
  | s :: rest => s.keywords ++ partKeywords rest

def Schema.propertyKeywords : List (String × Schema) → List Keywords
  | [] => []
  | (_, s) :: rest => s.keywords ++ propertyKeywords rest

def Schema.additionalKeywords : Option (Additional Schema) → List Keywords
  | some (.schema s) => s.keywords
  | some (.allowed _) | none => []

def Schema.itemKeywords : Option Schema → List Keywords
  | some s => s.keywords
  | none => []

end

def Model.keywords (m : Model) : List Keywords :=
  m.schemas.flatMap fun s => s.2.keywords

/-- Nothing is said that one of the dialects passes over. -/
structure Keywords.IsCommon (k : Keywords) : Prop where
  notNullable : k.nullable ≠ some true
  noConst : k.constValue = none
  noNull : SchemaType.null ∉ k.types

/-! ### Types -/

namespace TypeScript

theorem nullableType_of_isCommon {k : Keywords} (common : k.IsCommon) (dialect : Dialect)
    (base : TypeExpr) : nullableType dialect k base = base := by
  have plain : isNullable dialect k = false := by
    cases dialect with
    | openapi30 =>
      rw [isNullable, beq_eq_false_iff_ne]
      exact common.notNullable
    | openapi31 => simp [isNullable, Keywords.hasType, common.noNull]
  rw [nullableType, plain]
  rfl

theorem inlineType_of_isCommon {k : Keywords} (common : k.IsCommon) (dialect dialect' : Dialect) :
    inlineType dialect k = inlineType dialect' k := by
  funext fields additional item allOf oneOf anyOf
  rw [inlineType.eq_def, inlineType.eq_def, common.noConst]
  cases dialect <;> cases dialect' <;> rfl

variable (dialect dialect' : Dialect)

mutual

/-- A schema has one type in both dialects if its keywords, and those of its parts, are common. -/
theorem typeOf_dialects : ∀ s : Schema, (∀ k ∈ s.keywords, k.IsCommon) →
    typeOf dialect s = typeOf dialect' s
  | .ref path => fun _ => by rw [typeOf, typeOf]
  | .inline k properties additional items allOf oneOf anyOf => fun common => by
    rw [Schema.keywords] at common
    obtain ⟨own, inner⟩ := List.forall_mem_cons.1 common
    simp only [List.forall_mem_append] at inner
    obtain ⟨⟨⟨⟨⟨inProperties, inAdditional⟩, inItems⟩, inAllOf⟩, inOneOf⟩, inAnyOf⟩ := inner
    rw [typeOf, typeOf, nullableType_of_isCommon own, nullableType_of_isCommon own,
      inlineType_of_isCommon own dialect dialect',
      fieldTypes_dialects k.required properties inProperties,
      additionalType_dialects additional inAdditional, itemType_dialects items inItems,
      typesOf_dialects allOf inAllOf, typesOf_dialects oneOf inOneOf,
      typesOf_dialects anyOf inAnyOf]

theorem typesOf_dialects : ∀ parts : List Schema,
    (∀ k ∈ Schema.partKeywords parts, k.IsCommon) →
      typesOf dialect parts = typesOf dialect' parts
  | [] => fun _ => rfl
  | s :: rest => fun common => by
    rw [Schema.partKeywords] at common
    obtain ⟨first, others⟩ := List.forall_mem_append.1 common
    rw [typesOf, typesOf, typeOf_dialects s first, typesOf_dialects rest others]

theorem fieldTypes_dialects (required : List String) : ∀ properties : List (String × Schema),
    (∀ k ∈ Schema.propertyKeywords properties, k.IsCommon) →
      fieldTypes dialect required properties = fieldTypes dialect' required properties
  | [] => fun _ => rfl
  | (name, s) :: rest => fun common => by
    rw [Schema.propertyKeywords] at common
    obtain ⟨first, others⟩ := List.forall_mem_append.1 common
    rw [fieldTypes, fieldTypes, typeOf_dialects s first,
      fieldTypes_dialects required rest others]

theorem additionalType_dialects : ∀ additional : Option (Additional Schema),
    (∀ k ∈ Schema.additionalKeywords additional, k.IsCommon) →
      additionalType dialect additional = additionalType dialect' additional
  | some (.schema s) => fun common => by
    rw [Schema.additionalKeywords] at common
    rw [additionalType, additionalType, typeOf_dialects s common]
  | some (.allowed _) => fun _ => rfl
  | none => fun _ => rfl

theorem itemType_dialects : ∀ items : Option Schema,
    (∀ k ∈ Schema.itemKeywords items, k.IsCommon) →
      itemType dialect items = itemType dialect' items
  | some s => fun common => by
    rw [Schema.itemKeywords] at common
    rw [itemType, itemType, typeOf_dialects s common]
  | none => fun _ => rfl

end

end TypeScript

/-! ### Files -/

namespace ModelFile

variable {dialect dialect' : Dialect}

theorem fieldType_dialects (model name : String) {s : Schema}
    (common : ∀ k ∈ s.keywords, k.IsCommon) :
    fieldType dialect model name s = fieldType dialect' model name s := by
  cases s with
  | ref path => rw [fieldType, fieldType, typeOf_dialects _ _ _ common]
  | inline k properties additional items allOf oneOf anyOf =>
    have own : k.IsCommon := common k (by rw [Schema.keywords]; exact List.mem_cons_self)
    rw [fieldType, fieldType, nullableType_of_isCommon own, nullableType_of_isCommon own,
      typeOf_dialects _ _ _ common]

theorem fieldsOf_dialects (model : String) (required : List String)
    {properties : List (String × Schema)}
    (common : ∀ k ∈ Schema.propertyKeywords properties, k.IsCommon) :
    properties.map (fieldOf dialect model required) =
      properties.map (fieldOf dialect' model required) := by
  induction properties with
  | nil => rfl
  | cons property rest ih =>
    obtain ⟨name, s⟩ := property
    rw [Schema.propertyKeywords] at common
    obtain ⟨first, others⟩ := List.forall_mem_append.1 common
    have field : fieldOf dialect model required (name, s) =
        fieldOf dialect' model required (name, s) := by
      rw [fieldOf.eq_def, fieldOf.eq_def]
      dsimp only
      rw [fieldType_dialects model name first]
    rw [List.map_cons, List.map_cons, ih others, field]

theorem ofSchema_dialects (name : String) {s : Schema} (common : ∀ k ∈ s.keywords, k.IsCommon) :
    ofSchema dialect name s = ofSchema dialect' name s := by
  cases s with
  | ref path => rw [ofSchema, ofSchema, typeOf_dialects _ _ _ common]
  | inline k properties additional items allOf oneOf anyOf =>
    have inProperties : ∀ k ∈ Schema.propertyKeywords properties, k.IsCommon := by
      rw [Schema.keywords] at common
      intro k' mem
      exact common k' (List.mem_cons_of_mem _ (by simp [mem]))
    rw [ofSchema, ofSchema, fieldsOf_dialects _ _ inProperties, typeOf_dialects _ _ _ common]

theorem plan_dialects {schemas : List (String × Schema)}
    (common : ∀ s ∈ schemas, ∀ k ∈ s.2.keywords, k.IsCommon) (seen : List String) :
    plan dialect seen schemas = plan dialect' seen schemas := by
  induction schemas generalizing seen with
  | nil => rfl
  | cons first rest ih =>
    obtain ⟨name, s⟩ := first
    obtain ⟨own, others⟩ := List.forall_mem_cons.1 common
    rw [plan, plan, ih others, ih others, ofSchema_dialects _ own]

end ModelFile

/-! ### Rendering -/

namespace Generation

/-- Without keywords that one of them passes over, both adapters render the same files, with the
same warnings. Without templates the files are there, whether or not there are comments. -/
theorem render_dialects {m : Model} (common : ∀ k ∈ m.keywords, k.IsCommon) :
    (∀ options, render .openapi30 options m = render .openapi31 options m) ∧
      ∀ comments w, ∃ files,
        ((render .openapi30 (standard comments) m).outcome w).value = (.ok files, w) ∧
          ((render .openapi31 (standard comments) m).outcome w).value = (.ok files, w) := by
  have each : ∀ s ∈ m.schemas, ∀ k ∈ s.2.keywords, k.IsCommon := by
    intro s mem k inside
    exact common k (List.mem_flatMap.2 ⟨s, mem, inside⟩)
  have same : ∀ options, render .openapi30 options m = render .openapi31 options m := by
    intro options
    have plans : ModelFile.plan .openapi30 [] m.schemas = ModelFile.plan .openapi31 [] m.schemas :=
      ModelFile.plan_dialects each []
    simp only [render, ModelFile.ofModel, Adapter.dialect, plans]
  refine ⟨same, fun comments w => ⟨_, value_render .openapi30 comments m w, ?_⟩⟩
  rw [← same, value_render]

/-- A pet with listed states, and with tags that are maps of other pets. -/
def petModel : Model where
  info := { title := "Pets", version := "1" }
  components :=
    [("pet",
      .inline { types := [.object], required := ["state"] }
        [("state", .inline { types := [.string], enumValues := [.string "in", .string "out"] }
            [] none none [] [] []),
          ("tags", .inline { types := [.array] } [] none
            (some (.inline { types := [.object] } []
              (some (.schema (.ref "#/components/schemas/pet"))) none [] [] [])) [] [] [])]
        (some (.allowed true)) none [] [] [])]
  definitions :=
    [("owner", .inline {} [] none none []
      [.ref "#/components/schemas/pet", .inline { types := [.integer] } [] none none [] [] []] [])]

theorem render_dialects_pets : (∀ k ∈ petModel.keywords, k.IsCommon) ∧
    (∀ options, render .openapi30 options petModel = render .openapi31 options petModel) ∧
      ∀ comments w, ∃ files,
        ((render .openapi30 (standard comments) petModel).outcome w).value = (.ok files, w) ∧
          ((render .openapi31 (standard comments) petModel).outcome w).value = (.ok files, w) := by
  have common : ∀ k ∈ petModel.keywords, k.IsCommon := by
    intro k mem
    have shown : k.nullable = none ∧ k.constValue = none ∧ SchemaType.null ∉ k.types := by
      revert k
      simp [petModel, Model.keywords, Model.schemas, Keyed.hasKey, Schema.keywords,
        Schema.propertyKeywords, Schema.additionalKeywords, Schema.itemKeywords,
        Schema.partKeywords]
    exact ⟨by simp [shown.1], shown.2.1, shown.2.2⟩
  exact ⟨common, render_dialects common⟩

end Generation

end OpenApiModels
