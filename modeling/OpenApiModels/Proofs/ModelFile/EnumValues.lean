import OpenApiModels.ModelFile.Basic
import OpenApiModels.Proofs.Json.TextInjective

/-!
# Values of declared enums

Listed values become the members of an enum, or a union of literals. The enum has a member for
every string and every number among them and for nothing else; the union admits all of them but
null (`admits_declared_iff`).
-/

namespace OpenApiModels

namespace Json

/-- The value can be that of an enum member. -/
def isMemberValue : Json → Bool
  | .string _ | .number _ => true
  | _ => false

/-! ### Compact texts told apart -/

theorem exists_start_compact (v : Json) :
    ∃ c cs, compact v = c :: cs ∧ (if isNumeral c then none else some c) = v.startMark := by
  cases v with
  | null => exact ⟨_, _, rfl, rfl⟩
  | bool b => cases b <;> exact ⟨_, _, rfl, rfl⟩
  | number n => exact exists_start 0 (.number n)
  | string s => exact ⟨_, _, rfl, rfl⟩
  | array items => exact ⟨_, _, rfl, rfl⟩
  | object members => exact ⟨_, _, rfl, rfl⟩

theorem startMark_eq_of_compactText {v w : Json} (h : v.compactText = w.compactText) :
    v.startMark = w.startMark := by
  obtain ⟨c, cs, text, mark⟩ := exists_start_compact v
  obtain ⟨c', cs', text', mark'⟩ := exists_start_compact w
  have same : c :: cs = c' :: cs' := by
    rw [← text, ← text']
    exact String.ofList_injective h
  rw [← mark, ← mark', (List.cons.inj same).1]

/-- Strings and numbers are told from other values by how they start. -/
theorem isMemberValue_iff (v : Json) :
    v.isMemberValue = true ↔ v.startMark = some '"' ∨ v.startMark = none := by
  cases v with
  | bool b => cases b <;> decide
  | null | number | string | array | object => simp [isMemberValue, startMark]

theorem isMemberValue_of_compactText {v w : Json} (h : v.compactText = w.compactText)
    (member : v.isMemberValue = true) : w.isMemberValue = true := by
  rw [isMemberValue_iff] at member ⊢
  rwa [← startMark_eq_of_compactText h]

end Json

namespace TypeScript

/-- The type admits the value: a literal its own value, `unknown` every value, and a union what one
of its parts admits. -/
inductive TypeExpr.Admits : TypeExpr → Json → Prop where
  | literal (v : Json) : Admits (.literal v.compactText) v
  | unknown (v : Json) : Admits .unknown v
  | union {parts : List TypeExpr} {t : TypeExpr} {v : Json} (mem : t ∈ parts) :
    Admits t v → Admits (.union parts) v

theorem admits_literal_iff {text : String} {v : Json} :
    TypeExpr.Admits (.literal text) v ↔ text = v.compactText := by
  constructor
  · rintro ⟨⟩
    rfl
  · rintro rfl
    exact .literal v

theorem admits_literalType (v : Json) : (literalType v).Admits v := by
  cases v with
  | array | object => exact .unknown _
  | null | bool | number | string => exact .literal _

/-- The union of listed values admits all of them but null. -/
theorem admits_enumType {values : List Json} {v : Json} (h : v ∈ values)
    (notNull : v.isNull = false) : ∃ t, enumType? values = some t ∧ t.Admits v := by
  have kept : v ∈ values.filter fun v => !v.isNull := List.mem_filter.2 ⟨h, by simp [notNull]⟩
  unfold enumType?
  split
  · rename_i none
    rw [none] at kept
    cases kept
  · exact ⟨_, rfl, .union (List.mem_map_of_mem kept) (admits_literalType v)⟩

end TypeScript

namespace ModelFile

open TypeScript Json

/-- Some member has the value. -/
def EnumAdmits (members : List Member) (v : Json) : Prop :=
  ∃ m ∈ members, TypeExpr.Admits (.literal m.literal) v

/-- The values that a schema lists. -/
def listedValues : Schema → List Json
  | .ref _ => []
  | .inline k _ _ _ _ _ _ => k.enumValues

def propertiesOf : Schema → List (String × Schema)
  | .ref _ => []
  | .inline _ properties _ _ _ _ _ => properties

/-- The file of a schema declares an enum for listed values: for its own, or for those of one of
its properties. -/
inductive Declares (dialect : Dialect) (name : String) (s : Schema) :
    List Json → List Member → Prop where
  | model {members : List Member} (body : (ofSchema dialect name s).body = .enum members) :
    Declares dialect name s (listedValues s) members
  | property {p : String × Schema} {e : EnumType} (own : p ∈ propertiesOf s)
    (listed : enumOf? name p = some e) (declared : e ∈ (ofSchema dialect name s).enums) :
    Declares dialect name s (listedValues p.2) e.members

variable {dialect : Dialect} {name : String} {s : Schema} {values : List Json}
  {members : List Member}

theorem Declares.members_eq (h : Declares dialect name s values members) :
    members = membersOf values := by
  cases h with
  | model body =>
    cases s with
    | ref path => cases body
    | inline k properties additional items allOf oneOf anyOf =>
      simp only [ofSchema] at body
      split at body
      · exact (Body.enum.inj body).symm
      · split at body <;> cases body
  | @property p e own listed declared =>
    obtain ⟨key, s⟩ := p
    cases s with
    | ref path => cases listed
    | inline k properties additional items allOf oneOf anyOf =>
      simp only [enumOf?] at listed
      split at listed
      · rw [← Option.some.inj listed]
        rfl
      · cases listed

/-! ### Members for values -/

theorem literals_distinguish (used : List String) (members : List Member) :
    (distinguish used members).map (·.literal) = members.map (·.literal) := by
  induction members generalizing used with
  | nil => rfl
  | cons m rest ih => exact congrArg (m.literal :: ·) (ih _)

/-- The literals are the texts of the strings and numbers, in order. -/
theorem literals_membersOf (values : List Json) :
    (membersOf values).map (·.literal) = (values.filter isMemberValue).map compactText := by
  rw [membersOf, literals_distinguish]
  induction values with
  | nil => rfl
  | cons v rest ih =>
    cases v with
    | string s => exact congrArg ((Json.string s).compactText :: ·) ih
    | number n => exact congrArg ((Json.number n).compactText :: ·) ih
    | null | bool | array | object => exact ih

theorem enumAdmits_iff {v : Json} (h : v ∈ values) :
    EnumAdmits (membersOf values) v ↔ v.isMemberValue = true := by
  have literals := literals_membersOf values
  constructor
  · rintro ⟨m, hm, admits⟩
    have text := admits_literal_iff.1 admits
    have mem : m.literal ∈ (values.filter isMemberValue).map compactText :=
      literals ▸ List.mem_map_of_mem hm
    obtain ⟨w, hw, same⟩ := List.mem_map.1 mem
    exact isMemberValue_of_compactText (same.trans text) (List.mem_filter.1 hw).2
  · intro member
    have mem : v.compactText ∈ (membersOf values).map (·.literal) :=
      literals ▸ List.mem_map_of_mem (List.mem_filter.2 ⟨h, member⟩)
    obtain ⟨m, hm, same⟩ := List.mem_map.1 mem
    exact ⟨m, hm, admits_literal_iff.2 same⟩

/-- Of listed values, an enum that is declared for them admits the strings and numbers, each by a
member of its own in their order; the others cannot be values of members and are left out. The
union of literals admits every value but null. -/
theorem admits_declared_iff (h : Declares dialect name s values members) :
    members.map (·.literal) = (values.filter isMemberValue).map compactText ∧
      ∀ v ∈ values, v.isNull = false →
        (EnumAdmits members v ↔ v.isMemberValue = true) ∧
          ∃ t, enumType? values = some t ∧ t.Admits v := by
  obtain rfl := h.members_eq
  exact ⟨literals_membersOf values,
    fun v hv notNull => ⟨enumAdmits_iff hv, admits_enumType hv notNull⟩⟩

/-- Values of every kind, listed for a property. -/
def mixedValues : List Json :=
  [.string "a", .number (.integer 1), .bool true, .null, .array []]

def mixedSchema : Schema :=
  .inline {} [("kind", .inline { enumValues := mixedValues } [] none none [] [] [])] none none
    [] [] []

def mixedEnum : EnumType :=
  ⟨"OrderKindEnum", none, [⟨"A", "\"a\""⟩, ⟨"NUMBER_1", "1"⟩]⟩

theorem declares_mixed : Declares .openapi30 "Order" mixedSchema mixedValues mixedEnum.members := by
  have listed : enumOf? "Order"
      ("kind", .inline { enumValues := mixedValues } [] none none [] [] []) = some mixedEnum := by
    rfl
  have declared : (ofSchema .openapi30 "Order" mixedSchema).enums = [mixedEnum] := by rfl
  exact .property List.mem_cons_self listed (declared ▸ List.mem_cons_self)

theorem admits_mixed :
    mixedEnum.members.map (·.literal) = (mixedValues.filter isMemberValue).map compactText ∧
      ∀ v ∈ mixedValues, v.isNull = false →
        (EnumAdmits mixedEnum.members v ↔ v.isMemberValue = true) ∧
          ∃ t, enumType? mixedValues = some t ∧ t.Admits v :=
  admits_declared_iff declares_mixed

/-- A listed value that is not null and that the union of literals admits, but not the enum. -/
theorem enum_omits_true : ∃ members, Declares .openapi30 "Order" mixedSchema mixedValues members ∧
    Json.bool true ∈ mixedValues ∧ (Json.bool true).isNull = false ∧
    (∃ t, enumType? mixedValues = some t ∧ t.Admits (.bool true)) ∧
    ¬ EnumAdmits members (.bool true) := by
  have listed : Json.bool true ∈ mixedValues := by simp [mixedValues]
  refine ⟨mixedEnum.members, declares_mixed, listed, rfl, admits_enumType listed rfl, ?_⟩
  rw [declares_mixed.members_eq, enumAdmits_iff listed]
  simp [isMemberValue]

end ModelFile

end OpenApiModels
