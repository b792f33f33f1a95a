import OpenApiModels.TypeScript.OfSchema

/-!
# Induction over schemas

What holds of references, and of an inline schema whenever it holds of the schemas in it, holds of
every schema (`Schema.induct`). What each way to put types together preserves holds of the type of
every schema (`IsBuilt.typeOf`).
-/

namespace OpenApiModels

namespace Schema

/-- Each kind of part holds the schemas below it: what is shown of it is that all of them have the
property. -/
@[elab_as_elim]
theorem induct {P : Schema → Prop} (ref : ∀ path, P (.ref path))
    (inline : ∀ k properties additional items allOf oneOf anyOf,
      (∀ p ∈ properties, P p.2) → (∀ s, additional = some (.schema s) → P s) →
        (∀ s, items = some s → P s) → (∀ s ∈ allOf, P s) → (∀ s ∈ oneOf, P s) →
          (∀ s ∈ anyOf, P s) → P (.inline k properties additional items allOf oneOf anyOf))
    (s : Schema) : P s := by
  refine @Schema.rec P (fun properties => ∀ p ∈ properties, P p.2)
    (fun additional => ∀ s, additional = some (.schema s) → P s)
    (fun items => ∀ s, items = some s → P s) (fun parts => ∀ s ∈ parts, P s) (fun p => P p.2)
    (fun additional => ∀ s, additional = .schema s → P s) ref inline
    ?_ ?_ ?_ ?_ ?_ ?_ ?_ ?_ ?_ ?_ ?_ s
  · exact fun _ h => absurd h List.not_mem_nil
  · exact fun _ _ first others => List.forall_mem_cons.2 ⟨first, others⟩
  · intro s h
    cases h
  · exact fun _ here s h => here s (Option.some.inj h)
  · intro s h
    cases h
  · intro s' here s h
    exact Option.some.inj h ▸ here
  · exact fun _ h => absurd h List.not_mem_nil
  · exact fun _ _ first others => List.forall_mem_cons.2 ⟨first, others⟩
  · exact fun _ _ here => here
  · intro b s h
    cases h
  · intro s' here s h
    exact Additional.schema.inj h ▸ here

end Schema

/-! ### Types of parts -/

/-- The schema of further properties, if there is one. -/
def Additional.schema? {α : Type} : Additional α → Option α
  | .schema s => some s
  | .allowed _ => none

namespace TypeScript

theorem mem_partNames {parts : List TypeExpr} {n : String} :
    n ∈ TypeExpr.partNames parts ↔ ∃ t ∈ parts, n ∈ t.names := by
  induction parts with
  | nil => exact iff_of_false List.not_mem_nil fun ⟨_, mem, _⟩ => List.not_mem_nil mem
  | cons t rest ih =>
    rw [TypeExpr.partNames, List.mem_append, ih]
    simp

theorem mem_fieldNames {fields : List (String × Bool × TypeExpr)} {n : String} :
    n ∈ TypeExpr.fieldNames fields ↔ ∃ f ∈ fields, n ∈ f.2.2.names := by
  induction fields with
  | nil => exact iff_of_false List.not_mem_nil fun ⟨_, mem, _⟩ => List.not_mem_nil mem
  | cons f rest ih =>
    obtain ⟨key, required, t⟩ := f
    rw [TypeExpr.fieldNames, List.mem_append, ih]
    simp

theorem fieldTypes_eq_map (dialect : Dialect) (required : List String)
    (properties : List (String × Schema)) :
    fieldTypes dialect required properties =
      properties.map fun p => (propertyKey p.1, required.contains p.1, typeOf dialect p.2) := by
  induction properties with
  | nil => rfl
  | cons p rest ih => rw [fieldTypes, ih, List.map_cons]

theorem additionalType_eq_map (dialect : Dialect) (additional : Option (Additional Schema)) :
    additionalType dialect additional =
      (additional.bind Additional.schema?).map (typeOf dialect) := by
  rcases additional with - | (b | s) <;> rfl

theorem itemType_eq_map (dialect : Dialect) (items : Option Schema) :
    itemType dialect items = items.map (typeOf dialect) := by
  cases items <;> rfl

/-- The type of a schema before null is added to it. -/
def baseType (dialect : Dialect) : Schema → TypeExpr
  | .ref path => .named (typeName (refName path))
  | .inline k properties additional items allOf oneOf anyOf =>
    inlineType dialect k (fieldTypes dialect k.required properties)
      (additionalType dialect additional) (itemType dialect items)
      (typesOf dialect allOf) (typesOf dialect oneOf) (typesOf dialect anyOf)

/-! ### Types of schemas -/

/-- The property holds of the types that consist of one word or one literal, and of others if it
holds of their parts. -/
structure IsBuilt (P : TypeExpr → Prop) : Prop where
  named (path : String) : P (.named (typeName (refName path)))
  builtin : ∀ name ∈ ["unknown", "Blob", "string", "number", "boolean", "null"], P (.builtin name)
  literal (v : Json) : P (literalType v)
  array {item : TypeExpr} (inItem : P item) : P (.array item)
  record {value : TypeExpr} (inValue : P value) : P (.record value)
  object {fields : List (String × Bool × TypeExpr)}
    (keys : ∀ f ∈ fields, ∃ name, f.1 = propertyKey name) (inFields : ∀ f ∈ fields, P f.2.2) :
    P (.object fields)
  intersection {parts : List TypeExpr} (nonempty : parts ≠ []) (inParts : ∀ t ∈ parts, P t) :
    P (.intersection parts)
  union {parts : List TypeExpr} (nonempty : parts ≠ []) (inParts : ∀ t ∈ parts, P t) :
    P (.union parts)
  orNull {base : TypeExpr} (inBase : P base) : P (.orNull base)

namespace IsBuilt

variable {P : TypeExpr → Prop} (built : IsBuilt P) {k : Keywords}
  {fields : List (String × Bool × TypeExpr)} {additional item : Option TypeExpr}
  {allOf oneOf anyOf : List TypeExpr}

include built

theorem unknown : P .unknown :=
  built.builtin "unknown" (by decide)

theorem getD {t : Option TypeExpr} (h : ∀ s, t = some s → P s) : P (t.getD .unknown) := by
  cases t with
  | none => exact built.unknown
  | some s => exact h s rfl

theorem scalarType (format : Option String) (t : SchemaType) : P (scalarType format t) := by
  cases t with
  | string =>
    rw [TypeScript.scalarType]
    split <;> exact built.builtin _ (by decide)
  | number | integer => exact built.builtin "number" (by decide)
  | boolean => exact built.builtin "boolean" (by decide)
  | null => exact built.builtin "null" (by decide)
  | array | object => exact built.unknown

theorem nullableType {base : TypeExpr} (h : P base) (dialect : Dialect) :
    P (nullableType dialect k base) := by
  unfold TypeScript.nullableType
  split
  · exact built.orNull h
  · exact h

theorem enumType {values : List Json} {t : TypeExpr} (h : enumType? values = some t) : P t := by
  unfold enumType? at h
  split at h
  · cases h
  · rename_i nonempty
    cases h
    exact built.union (by simpa using nonempty) (List.forall_mem_map.2 fun v _ => built.literal v)

variable (keys : ∀ f ∈ fields, ∃ name, f.1 = propertyKey name) (inFields : ∀ f ∈ fields, P f.2.2)
  (inAdditional : ∀ t, additional = some t → P t) (inItem : ∀ t, item = some t → P t)

include keys inFields inAdditional inItem

theorem declaredType : P (declaredType k fields additional item) := by
  unfold TypeScript.declaredType
  split
  · exact built.array (built.getD inItem)
  · split
    · exact built.record (built.getD inAdditional)
    · exact built.object keys inFields
  · split
    · exact built.unknown
    · exact built.object keys inFields
  · exact built.scalarType _ _

theorem inlineType (dialect : Dialect) (inAllOf : ∀ t ∈ allOf, P t) (inOneOf : ∀ t ∈ oneOf, P t)
    (inAnyOf : ∀ t ∈ anyOf, P t) :
    P (inlineType dialect k fields additional item allOf oneOf anyOf) := by
  unfold TypeScript.inlineType
  split
  · exact built.literal _
  · split
    · rename_i some
      exact built.intersection (by simpa using some) inAllOf
    split
    · rename_i some
      exact built.union (by simpa using some) inOneOf
    split
    · rename_i some
      exact built.union (by simpa using some) inAnyOf
    · cases listed : enumType? k.enumValues with
      | none => exact built.declaredType keys inFields inAdditional inItem
      | some t => exact built.enumType listed

omit keys inFields inAdditional inItem

theorem baseType_inline {dialect : Dialect} {properties : List (String × Schema)}
    {additional : Option (Additional Schema)} {items : Option Schema}
    {allOf oneOf anyOf : List Schema} (inProperties : ∀ p ∈ properties, P (typeOf dialect p.2))
    (inAdditional : ∀ s, additional = some (.schema s) → P (typeOf dialect s))
    (inItems : ∀ s, items = some s → P (typeOf dialect s))
    (inAllOf : ∀ s ∈ allOf, P (typeOf dialect s)) (inOneOf : ∀ s ∈ oneOf, P (typeOf dialect s))
    (inAnyOf : ∀ s ∈ anyOf, P (typeOf dialect s)) :
    P (baseType dialect (.inline k properties additional items allOf oneOf anyOf)) := by
  rw [baseType, fieldTypes_eq_map, additionalType_eq_map, itemType_eq_map]
  simp only [typesOf_eq_map]
  refine built.inlineType ?_ ?_ ?_ ?_ dialect ?_ ?_ ?_
  · exact List.forall_mem_map.2 fun p _ => ⟨p.1, rfl⟩
  · exact List.forall_mem_map.2 inProperties
  · intro t ht
    obtain ⟨s, hs, rfl⟩ := Option.map_eq_some_iff.1 ht
    obtain ⟨further, rfl, isSchema⟩ := Option.bind_eq_some_iff.1 hs
    cases further with
    | allowed b => cases isSchema
    | schema s' => exact inAdditional _ (by rw [← Option.some.inj isSchema])
  · intro t ht
    obtain ⟨s, hs, rfl⟩ := Option.map_eq_some_iff.1 ht
    exact inItems s hs
  · exact List.forall_mem_map.2 inAllOf
  · exact List.forall_mem_map.2 inOneOf
  · exact List.forall_mem_map.2 inAnyOf

theorem of_baseType {dialect : Dialect} {s : Schema} (h : P (baseType dialect s)) :
    P (typeOf dialect s) := by
  cases s with
  | ref path =>
    rw [TypeScript.typeOf]
    exact h
  | inline =>
    rw [TypeScript.typeOf]
    exact built.nullableType h dialect

/-- The type of a schema has each property that the ways to put types together preserve. -/
theorem typeOf (dialect : Dialect) (s : Schema) : P (typeOf dialect s) := by
  induction s using Schema.induct with
  | ref path => exact built.of_baseType (built.named path)
  | inline k properties additional items allOf oneOf anyOf inProperties inAdditional inItems inAllOf
      inOneOf inAnyOf =>
    exact built.of_baseType
      (built.baseType_inline inProperties inAdditional inItems inAllOf inOneOf inAnyOf)

theorem baseType (dialect : Dialect) (s : Schema) : P (baseType dialect s) := by
  cases s with
  | ref path => exact built.named path
  | inline =>
    exact built.baseType_inline (fun p _ => built.typeOf dialect p.2)
      (fun s _ => built.typeOf dialect s) (fun s _ => built.typeOf dialect s)
      (fun s _ => built.typeOf dialect s) (fun s _ => built.typeOf dialect s)
      (fun s _ => built.typeOf dialect s)

end IsBuilt

end TypeScript

end OpenApiModels
