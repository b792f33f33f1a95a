import Mathlib.Data.List.Perm.Basic
import OpenApiModels.ModelFile.Basic
import OpenApiModels.Schema.Reader

/-!
# Names that model files declare

Schemas with one type name share a file, so the models of a spec have different names. Nothing
keeps the enums of properties apart: their names are put together from a model and a property
(`distinct_iff`).
-/

namespace OpenApiModels.ModelFile

open TypeScript

/-- The names that a file exports: its model and the enums beside it. -/
def declared (f : ModelFile) : List String :=
  f.name :: f.enums.map (·.name)

/-- The models that the types of a file refer to. -/
def references (f : ModelFile) : List String :=
  f.body.types.flatMap TypeExpr.names

theorem mem_imports {f : ModelFile} {n : String} :
    n ∈ f.imports ↔ n ∈ f.references ∧ n ≠ f.name := by
  simp [imports, references]

/-! ### Names from the spec -/

/-- The schemas that get a file, each with its type name: the first one for each type name. -/
def leaders (seen : List String) : List (String × Schema) → List (String × Schema)
  | [] => []
  | (name, s) :: rest =>
    if seen.contains (typeName name) then leaders seen rest
    else (typeName name, s) :: leaders (typeName name :: seen) rest

/-- Whether a property has an enum of its own. -/
def isListed : Schema → Bool
  | .ref _ => false
  | .inline k _ _ _ allOf oneOf anyOf => isPlainEnum k allOf oneOf anyOf

/-- The names of the enums that the properties of a schema declare. -/
def inlineNamesOf (model : String) : Schema → List String
  | .ref _ => []
  | .inline k properties additional _ allOf oneOf anyOf =>
    if !k.isEnum && isInterface k properties additional allOf oneOf anyOf then
      (properties.filter fun p => isListed p.2).map fun p => enumName model p.1
    else []

def inlineNames (m : Model) : List String :=
  (leaders [] m.schemas).flatMap fun s => inlineNamesOf s.1 s.2

theorem files_plan (dialect : Dialect) (seen : List String) (schemas : List (String × Schema)) :
    (plan dialect seen schemas).filterMap (fun
      | .file f => some f
      | .repeated _ _ => none) =
      (leaders seen schemas).map fun s => ofSchema dialect s.1 s.2 := by
  induction schemas generalizing seen with
  | nil => rfl
  | cons s rest ih =>
    obtain ⟨name, s⟩ := s
    by_cases repeats : typeName name ∈ seen
    · simpa [plan, leaders, repeats] using ih seen
    · simpa [plan, leaders, repeats] using ih _

theorem ofModel_eq (dialect : Dialect) (m : Model) :
    ofModel dialect m = (leaders [] m.schemas).map fun s => ofSchema dialect s.1 s.2 :=
  files_plan dialect [] m.schemas

theorem name_ofSchema (dialect : Dialect) (name : String) (s : Schema) :
    (ofSchema dialect name s).name = name := by
  cases s with
  | ref path => rfl
  | inline k properties additional items allOf oneOf anyOf =>
    simp only [ofSchema]
    split
    · rfl
    split <;> rfl

theorem names_enumOf? (model : String) (properties : List (String × Schema)) :
    (properties.filterMap (enumOf? model)).map (·.name) =
      (properties.filter fun p => isListed p.2).map fun p => enumName model p.1 := by
  induction properties with
  | nil => rfl
  | cons p rest ih =>
    obtain ⟨property, s⟩ := p
    cases s with
    | ref path =>
      have passed : enumOf? model (property, .ref path) = none := rfl
      have unlisted : isListed (.ref path) = false := rfl
      simpa [passed, unlisted] using ih
    | inline k _ _ _ allOf oneOf anyOf =>
      by_cases listed : isPlainEnum k allOf oneOf anyOf = true
      · simpa [enumOf?, isListed, listed] using ih
      · simpa [enumOf?, isListed, listed] using ih

theorem names_enums_ofSchema (dialect : Dialect) (name : String) (s : Schema) :
    (ofSchema dialect name s).enums.map (·.name) = inlineNamesOf name s := by
  cases s with
  | ref path => rfl
  | inline k properties additional items allOf oneOf anyOf =>
    simp only [ofSchema, inlineNamesOf]
    by_cases listed : k.isEnum = true
    · simp [listed]
    · by_cases interface : isInterface k properties additional allOf oneOf anyOf = true
      · simpa [listed, interface] using names_enumOf? name properties
      · simp [listed, interface]

theorem inlineNames_eq (dialect : Dialect) (m : Model) :
    (ofModel dialect m).flatMap (fun f => f.enums.map (·.name)) = inlineNames m := by
  rw [ofModel_eq, List.flatMap_map, inlineNames]
  simp only [names_enums_ofSchema]

/-! ### Model names -/

theorem nodup_leaders (seen : List String) (schemas : List (String × Schema)) :
    ((leaders seen schemas).map (·.1)).Nodup ∧ ∀ s ∈ leaders seen schemas, s.1 ∉ seen := by
  induction schemas generalizing seen with
  | nil => exact ⟨List.nodup_nil, fun s hs => nomatch hs⟩
  | cons s rest ih =>
    obtain ⟨name, s⟩ := s
    by_cases repeats : seen.contains (typeName name) = true
    · rw [leaders, if_pos repeats]
      exact ih seen
    · obtain ⟨distinct, fresh⟩ := ih (typeName name :: seen)
      rw [leaders, if_neg repeats]
      constructor
      · rw [List.map_cons, List.nodup_cons]
        refine ⟨fun again => ?_, distinct⟩
        obtain ⟨later, hlater, same⟩ := List.mem_map.1 again
        exact fresh later hlater (same ▸ List.mem_cons_self)
      · intro later hlater
        rcases List.mem_cons.1 hlater with rfl | hlater
        · simpa using repeats
        · exact fun old => fresh later hlater (List.mem_cons_of_mem _ old)

theorem mem_names_leaders {seen : List String} {schemas : List (String × Schema)} {type : String}
    (fresh : type ∉ seen) :
    type ∈ (leaders seen schemas).map (·.1) ↔ type ∈ schemas.map fun s => typeName s.1 := by
  induction schemas generalizing seen with
  | nil => simp [leaders]
  | cons s rest ih =>
    obtain ⟨name, s⟩ := s
    by_cases same : type = typeName name
    · subst same
      have first : seen.contains (typeName name) = false := by simpa using fresh
      rw [leaders, if_neg (by rw [first]; exact Bool.false_ne_true)]
      simp
    · by_cases repeats : typeName name ∈ seen
      · simpa [leaders, repeats, same] using ih fresh
      · have fresh' : type ∉ typeName name :: seen := by simp [same, fresh]
        simpa [leaders, repeats, same] using ih fresh'

theorem names_ofModel (dialect : Dialect) (m : Model) :
    (ofModel dialect m).map (·.name) = (leaders [] m.schemas).map (·.1) := by
  rw [ofModel_eq, List.map_map]
  exact List.map_congr_left fun s _ => name_ofSchema dialect s.1 s.2

theorem nodup_names (dialect : Dialect) (m : Model) :
    ((ofModel dialect m).map (·.name)).Nodup := by
  rw [names_ofModel]
  exact (nodup_leaders [] m.schemas).1

theorem mem_names_iff (dialect : Dialect) (m : Model) (type : String) :
    type ∈ (ofModel dialect m).map (·.name) ↔ ∃ s ∈ m.schemas, typeName s.1 = type := by
  rw [names_ofModel, mem_names_leaders List.not_mem_nil, List.mem_map]

/-! ### All names -/

theorem declared_perm (files : List ModelFile) :
    (files.flatMap declared).Perm
      (files.map (·.name) ++ files.flatMap fun f => f.enums.map (·.name)) :=
  (List.map_append_flatMap_perm files (·.name) fun f => f.enums.map EnumType.name).symm

/-- An enum of a property never has the name of its own model. -/
theorem enumName_ne (model property : String) : enumName model property ≠ model := by
  intro same
  have length := congrArg String.length same
  simp only [enumName, String.length_append] at length
  have suffix : "Enum".length = 4 := rfl
  omega

theorem name_ne_of_mem_enums {dialect : Dialect} {m : Model} {f : ModelFile}
    (hf : f ∈ ofModel dialect m) {n : String} (hn : n ∈ f.enums.map (·.name)) : n ≠ f.name := by
  rw [ofModel_eq] at hf
  obtain ⟨⟨type, s⟩, -, rfl⟩ := List.mem_map.1 hf
  rw [names_enums_ofSchema] at hn
  rw [name_ofSchema]
  cases s with
  | ref path => cases hn
  | inline k properties additional items allOf oneOf anyOf =>
    rw [inlineNamesOf] at hn
    split at hn
    · obtain ⟨p, -, rfl⟩ := List.mem_map.1 hn
      exact enumName_ne type p.1
    · cases hn

/-- All names that the files of a spec declare differ, and no file imports one of its own, just
if the enums of properties have names of their own: different from each other, from the type name
of every schema, and from the models that their file refers to. -/
theorem distinct_iff (dialect : Dialect) (m : Model) :
    ((ofModel dialect m).flatMap declared).Nodup ∧
        (∀ f ∈ ofModel dialect m, ∀ n ∈ f.declared, n ∉ f.imports) ↔
      (inlineNames m).Nodup ∧ (∀ n ∈ inlineNames m, ∀ s ∈ m.schemas, typeName s.1 ≠ n) ∧
        ∀ f ∈ ofModel dialect m, ∀ e ∈ f.enums, e.name ∉ f.references := by
  have names : ((ofModel dialect m).flatMap declared).Nodup ↔
      (inlineNames m).Nodup ∧ ∀ n ∈ inlineNames m, ∀ s ∈ m.schemas, typeName s.1 ≠ n := by
    rw [(declared_perm _).nodup_iff, inlineNames_eq, List.nodup_append]
    constructor
    · rintro ⟨-, inline, apart⟩
      exact ⟨inline, fun n hn s hs same =>
        apart n ((mem_names_iff dialect m n).2 ⟨s, hs, same⟩) n hn rfl⟩
    · rintro ⟨inline, apart⟩
      refine ⟨nodup_names dialect m, inline, fun type htype n hn same => ?_⟩
      obtain ⟨s, hs, named⟩ := (mem_names_iff dialect m type).1 htype
      exact apart n hn s hs (named.trans same)
  have imports : (∀ f ∈ ofModel dialect m, ∀ n ∈ f.declared, n ∉ f.imports) ↔
      ∀ f ∈ ofModel dialect m, ∀ e ∈ f.enums, e.name ∉ f.references := by
    refine forall₂_congr fun f hf => ?_
    constructor
    · intro own e he refers
      have inline : e.name ∈ f.enums.map (·.name) := List.mem_map.2 ⟨e, he, rfl⟩
      exact own e.name (List.mem_cons_of_mem _ inline)
        (mem_imports.2 ⟨refers, name_ne_of_mem_enums hf inline⟩)
    · intro apart n hn imported
      obtain ⟨refers, ne⟩ := mem_imports.1 imported
      rcases List.mem_cons.1 hn with rfl | inline
      · exact ne rfl
      · obtain ⟨e, he, rfl⟩ := List.mem_map.1 inline
        exact apart e he refers
  rw [names, imports, and_assoc]

/-! ### Two models with one enum -/

/-- A property `itemStatus` of one model and a property `status` of another one, both with listed
values. -/
def orders : Json :=
  let property (name value : String) : Json :=
    .object [("type", .string "object"), ("properties", .object [(name, .object
      [("type", .string "string"), ("enum", .array [.string value])])])]
  .object [("openapi", .string "3.0.3"),
    ("info", .object [("title", .string "T"), ("version", .string "1")]),
    ("components", .object [("schemas", .object
      [("Order", property "itemStatus" "a"), ("OrderItem", property "status" "b")])])]

/-- Both files declare the same enum. -/
theorem orders_repeat : ∃ m, Model.ofJson? orders = some m ∧
    (ofModel .openapi30 m).flatMap declared =
      ["Order", "OrderItemStatusEnum", "OrderItem", "OrderItemStatusEnum"] ∧
    ¬ ((ofModel .openapi30 m).flatMap declared).Nodup := by
  refine ⟨_, rfl, ?_, ?_⟩
  · decide
  · decide

end OpenApiModels.ModelFile
