import OpenApiModels.Proofs.TypeScript.TypeReading
import OpenApiModels.Proofs.TypeScript.WholeTexts

/-!
# What the types of schemas say

The text of a schema's type says exactly one type, and that type is put together from those of the
schemas in it as the keywords say (`exists_saysOnly`): an array from its items, a union from its
alternatives, and an intersection from its parts unless one of them is split.
-/

namespace OpenApiModels.TypeScript

open Text

/-! ### Words -/

theorem isAtomChar_of_inName {c : Char} (h : InName c) : isAtomChar c = true := by
  have notMark : isTypeMark c = false := by
    have marks : ("|&()[]\x7b\x7d<>,;:?".toList.all fun mark => !decide (InName mark)) = true := by
      decide
    rw [isTypeMark, Bool.eq_false_iff]
    intro mark
    simpa [h] using List.all_eq_true.1 marks c (List.contains_iff_mem.1 mark)
  simp [isAtomChar, h.ne ' ' (by decide), h.ne '"' (by decide), notMark]

theorem isAtomChar_of_isNumeral {c : Char} (h : Json.isNumeral c = true) : isAtomChar c = true := by
  simp only [Json.isNumeral, Bool.or_eq_true, beq_iff_eq] at h
  rcases h with (((digit | rfl) | rfl) | rfl) | rfl
  · exact isAtomChar_of_inName fun _ => by simp [Char.isAlphanum, digit]
  all_goals decide

theorem isAtom_typeName {name : String} (nonempty : typeName name ≠ "") :
    IsAtom (typeName name).toList :=
  .word (fun empty => nonempty (String.toList_eq_nil_iff.1 empty))
    (List.all_eq_true.2 fun _ hc => isAtomChar_of_inName (inName_of_mem_typeName hc))

theorem isAtom_stringText (s : String) : IsAtom (Json.stringText s) :=
  .literal (splitLiteral_stringText s.toList)

theorem isAtom_propertyKey (name : String) : IsAtom (propertyKey name).toList := by
  unfold propertyKey
  split
  · rename_i bare
    simp only [isBareKey, Bool.and_eq_true, List.all_eq_true] at bare
    refine .word (fun empty => ?_) (List.all_eq_true.2 fun c hc => ?_)
    · rw [empty] at bare
      cases bare.1
    · have ascii := bare.2 c hc
      simp only [isAsciiNameChar, Bool.or_eq_true, beq_iff_eq] at ascii
      rcases ascii with name | rfl
      · exact isAtomChar_of_inName fun _ => by simpa using name
      · decide
  · rw [String.toList_ofList]
    exact isAtom_stringText name

theorem isAtom_literalType (v : Json) : IsAtom (literalType v).text := by
  have unknown : IsAtom "unknown".toList := .word (by decide) (by decide)
  cases v with
  | null => exact .word (by decide) (by decide)
  | bool b => cases b <;> exact .word (by decide) (by decide)
  | number n =>
    change IsAtom (String.ofList (Json.numberText n)).toList
    rw [String.toList_ofList]
    exact .word (Json.numberText_ne_nil n) (List.all_eq_true.2 fun c hc =>
      isAtomChar_of_isNumeral (Json.isNumeral_of_mem_numberText hc))
  | string s =>
    change IsAtom (String.ofList (Json.stringText s)).toList
    rw [String.toList_ofList]
    exact isAtom_stringText s
  | array items => exact unknown
  | object members => exact unknown

/-! ### Types -/

theorem exists_read {α : Type} {parts : List α} (write : α → List Char)
    (h : ∀ p ∈ parts, ∃ t, Legible (write p) t) :
    ∃ read : α → TypeTree, ∀ p ∈ parts, Legible (write p) (read p) := by
  classical
  refine ⟨fun p => if legible : ∃ t, Legible (write p) t then legible.choose else .atom [], ?_⟩
  intro p hp
  dsimp only
  rw [dif_pos (h p hp)]
  exact (h p hp).choose_spec

/-- The text can be read if no name in it is empty. -/
def IsReadable (t : TypeExpr) : Prop :=
  "" ∉ t.names → ∃ tree, Legible t.text tree

namespace IsReadable

theorem exists_read {parts : List TypeExpr} (each : ∀ t ∈ parts, IsReadable t)
    (named : "" ∉ TypeExpr.partNames parts) :
    ∃ read : TypeExpr → TypeTree, ∀ t ∈ parts, Legible t.text (read t) :=
  TypeScript.exists_read TypeExpr.text fun t ht =>
    each t ht fun mem => named (mem_partNames.2 ⟨t, ht, mem⟩)

theorem object {fields : List (String × Bool × TypeExpr)}
    (keys : ∀ f ∈ fields, ∃ name, f.1 = propertyKey name)
    (each : ∀ f ∈ fields, IsReadable f.2.2) : IsReadable (.object fields) := by
  intro named
  rw [TypeExpr.names] at named
  obtain ⟨read, legible⟩ := TypeScript.exists_read (fun f => f.2.2.text)
    fun f hf => each f hf fun mem => named (mem_fieldNames.2 ⟨f, hf, mem⟩)
  have isKey : ∀ f ∈ fields, IsAtom f.1.toList := by
    intro f hf
    obtain ⟨name, key⟩ := keys f hf
    exact key ▸ isAtom_propertyKey name
  have whole := Legible.object (fun f => f.1.toList) (fun f => f.2.1) isKey legible
  rw [TypeExpr.text_object]
  exact ⟨_, whole⟩

theorem union {parts : List TypeExpr} (nonempty : parts ≠ [])
    (each : ∀ t ∈ parts, IsReadable t) : IsReadable (.union parts) := by
  intro named
  rw [TypeExpr.names] at named
  obtain ⟨read, legible⟩ := exists_read each named
  rw [TypeExpr.text_union]
  exact ⟨_, Legible.union nonempty legible⟩

theorem intersection {parts : List TypeExpr} (nonempty : parts ≠ [])
    (each : ∀ t ∈ parts, IsReadable t) : IsReadable (.intersection parts) := by
  intro named
  rw [TypeExpr.names] at named
  obtain ⟨read, legible⟩ := exists_read each named
  rw [TypeExpr.text_intersection, List.map_map]
  by_cases splits : ∃ p ∈ parts, SplitsInside p.text
  · obtain ⟨p, mem, splits⟩ := splits
    obtain ⟨ts, split⟩ := Legible.exists_split mem legible splits
    exact ⟨_, split⟩
  · exact ⟨_, Legible.intersection nonempty legible
      (.inr fun p mem here => splits ⟨p, mem, here⟩)⟩

end IsReadable

theorem isBuilt_isReadable : IsBuilt IsReadable where
  named path named :=
    ⟨_, Legible.atom (isAtom_typeName fun empty => named (List.mem_singleton.2 empty.symm))⟩
  builtin name isName _ := by
    have words : ∀ name ∈ ["unknown", "Blob", "string", "number", "boolean", "null"],
        name.toList ≠ [] ∧ name.toList.all isAtomChar = true := by
      decide
    exact ⟨_, Legible.atom (.word (words name isName).1 (words name isName).2)⟩
  literal v _ := ⟨_, Legible.atom (isAtom_literalType v)⟩
  array each named :=
    let ⟨_, legible⟩ := each named
    ⟨_, legible.array⟩
  record each named :=
    let ⟨_, legible⟩ := each named
    ⟨_, legible.record⟩
  object := IsReadable.object
  intersection := IsReadable.intersection
  union := IsReadable.union
  orNull each named :=
    let ⟨_, legible⟩ := each named
    ⟨_, legible.orNull⟩

/-! ### Schemas -/

/-- Whether null is added to the type of a schema. -/
def addsNull (dialect : Dialect) : Schema → Bool
  | .ref _ => false
  | .inline k _ _ _ _ _ _ => isNullable dialect k

theorem typeOf_eq (dialect : Dialect) (s : Schema) :
    typeOf dialect s =
      if addsNull dialect s then .orNull (baseType dialect s) else baseType dialect s := by
  cases s <;>
    · rw [typeOf]
      rfl

/-- The text is read as the type and as no other one. -/
def SaysOnly (text : List Char) (t : TypeTree) : Prop :=
  ∀ u, ReadsAsType text u ↔ u = t

theorem Legible.saysOnly {text : List Char} {t : TypeTree} (h : Legible text t) : SaysOnly text t :=
  fun _ => h.readsAsType_iff

theorem SaysOnly.unique {text : List Char} {t u : TypeTree} (ht : SaysOnly text t)
    (hu : SaysOnly text u) : t = u :=
  (hu t).1 ((ht t).2 rfl)

/-- The type is made of exactly the types that the schemas are given, with the operator between
them. -/
def Joins (dialect : Dialect) (op : Operator) (schemas : List Schema) (t : TypeTree) : Prop :=
  ∃ read : Schema → TypeTree, (∀ s ∈ schemas, SaysOnly (typeText dialect s).toList (read s)) ∧
    t = .combine op (schemas.map read)

/-- The type is made as the first of the keywords of the schema says. -/
structure FollowsKeyword (dialect : Dialect) (k : Keywords) (items : Option Schema)
    (allOf oneOf anyOf : List Schema) (t : TypeTree) : Prop where
  ofAllOf (nonempty : allOf ≠ []) : Joins dialect .intersection allOf t ↔
    allOf.length ≤ 1 ∨ ∀ s ∈ allOf, ¬ SplitsInside (typeText dialect s).toList
  ofOneOf (noAllOf : allOf = []) (nonempty : oneOf ≠ []) : Joins dialect .union oneOf t
  ofAnyOf (noAllOf : allOf = []) (noOneOf : oneOf = []) (nonempty : anyOf ≠ []) :
    Joins dialect .union anyOf t
  ofItems (noAllOf : allOf = []) (noOneOf : oneOf = []) (noAnyOf : anyOf = [])
    (unlisted : enumType? k.enumValues = none) (isArray : k.primaryType = some .array) :
    ∃ item, t = .array item ∧ match items with
      | some s => SaysOnly (typeText dialect s).toList item
      | none => item = .atom "unknown".toList

/-- A reference is read as a name, and any other schema without a constant by its keywords. -/
def IsMadeFrom (dialect : Dialect) : Schema → TypeTree → Prop
  | .ref path, t => t = .atom (typeName (refName path)).toList
  | .inline k _ _ items allOf oneOf anyOf, t =>
    (dialect = .openapi31 → k.constValue = none) →
      FollowsKeyword dialect k items allOf oneOf anyOf t

theorem exists_legible_typeOf (dialect : Dialect) {s : Schema}
    (named : "" ∉ (typeOf dialect s).names) : ∃ t, Legible (typeOf dialect s).text t :=
  isBuilt_isReadable.typeOf dialect s named

/-- The schemas' types can be read. -/
theorem exists_read_typesOf (dialect : Dialect) {schemas : List Schema}
    (named : "" ∉ TypeExpr.partNames (typesOf dialect schemas)) :
    ∃ read : Schema → TypeTree, ∀ s ∈ schemas, Legible (typeOf dialect s).text (read s) := by
  rw [typesOf_eq_map] at named
  exact exists_read (fun s => (typeOf dialect s).text) fun s hs => exists_legible_typeOf dialect
    fun mem => named (mem_partNames.2 ⟨_, List.mem_map_of_mem hs, mem⟩)

theorem toList_typeText (dialect : Dialect) (s : Schema) :
    (typeText dialect s).toList = (typeOf dialect s).text :=
  String.toList_ofList

variable {dialect : Dialect} {t : TypeTree}

theorem joins_union {schemas : List Schema} (nonempty : schemas ≠ [])
    (named : "" ∉ TypeExpr.partNames (typesOf dialect schemas))
    (reads : SaysOnly (TypeExpr.union (typesOf dialect schemas)).text t) :
    Joins dialect .union schemas t := by
  obtain ⟨read, legible⟩ := exists_read_typesOf dialect named
  refine ⟨read, fun s hs => ?_, reads.unique ?_⟩
  · rw [toList_typeText]
    exact (legible s hs).saysOnly
  · rw [TypeExpr.text_union, typesOf_eq_map, List.map_map]
    exact (Legible.union nonempty legible).saysOnly

theorem joins_intersection_iff {schemas : List Schema} (nonempty : schemas ≠ [])
    (named : "" ∉ TypeExpr.partNames (typesOf dialect schemas))
    (reads : SaysOnly (TypeExpr.intersection (typesOf dialect schemas)).text t) :
    Joins dialect .intersection schemas t ↔
      schemas.length ≤ 1 ∨ ∀ s ∈ schemas, ¬ SplitsInside (typeText dialect s).toList := by
  obtain ⟨read, legible⟩ := exists_read_typesOf dialect named
  simp only [toList_typeText]
  rw [TypeExpr.text_intersection, typesOf_eq_map, List.map_map, List.map_map] at reads
  constructor
  · rintro ⟨read', -, rfl⟩
    refine Classical.byContradiction fun not => ?_
    simp only [not_or, Nat.not_le, not_forall, Classical.not_not] at not
    obtain ⟨two, s, hs, splits⟩ := not
    obtain ⟨ts, split⟩ := Legible.exists_split hs legible splits
    have same := reads.unique split.saysOnly
    rw [TypeTree.combine_of_two_le (by simpa using Nat.succ_le_of_lt two)] at same
    cases same
  · intro grouped
    refine ⟨read, fun s hs => ?_, reads.unique ?_⟩
    · rw [toList_typeText]
      exact (legible s hs).saysOnly
    · exact (Legible.intersection nonempty legible grouped).saysOnly

theorem names_baseType (dialect : Dialect) (s : Schema) :
    (baseType dialect s).names = (typeOf dialect s).names := by
  rw [typeOf_eq]
  split
  · rw [TypeExpr.names]
  · rfl

section Keywords

variable {k : Keywords} {properties : List (String × Schema)}
  {additional : Option (Additional Schema)} {items : Option Schema}
  {allOf oneOf anyOf : List Schema} (noConst : dialect = .openapi31 → k.constValue = none)

include noConst

theorem baseType_of_noConst :
    baseType dialect (.inline k properties additional items allOf oneOf anyOf) =
      if allOf ≠ [] then .intersection (typesOf dialect allOf)
      else if oneOf ≠ [] then .union (typesOf dialect oneOf)
      else if anyOf ≠ [] then .union (typesOf dialect anyOf)
      else (enumType? k.enumValues).getD (declaredType k (fieldTypes dialect k.required properties)
        (additionalType dialect additional) (itemType dialect items)) := by
  have same : ∀ schemas : List Schema,
      (!(typesOf dialect schemas).isEmpty) = true ↔ schemas ≠ [] := by
    simp [typesOf_eq_map]
  rw [baseType]
  unfold inlineType
  split
  · rename_i value isConst
    rw [noConst rfl] at isConst
    cases isConst
  · simp only [same]

theorem followsKeyword
    (named : "" ∉ (baseType dialect
      (.inline k properties additional items allOf oneOf anyOf)).names)
    (reads : SaysOnly (baseType dialect
      (.inline k properties additional items allOf oneOf anyOf)).text t) :
    FollowsKeyword dialect k items allOf oneOf anyOf t := by
  rw [baseType_of_noConst noConst] at named reads
  constructor
  · intro nonempty
    rw [if_pos nonempty] at named reads
    exact joins_intersection_iff nonempty named reads
  · intro noAllOf nonempty
    rw [if_neg (not_not_intro noAllOf), if_pos nonempty] at named reads
    exact joins_union nonempty named reads
  · intro noAllOf noOneOf nonempty
    rw [if_neg (not_not_intro noAllOf), if_neg (not_not_intro noOneOf), if_pos nonempty]
      at named reads
    exact joins_union nonempty named reads
  · intro noAllOf noOneOf noAnyOf unlisted isArray
    rw [if_neg (not_not_intro noAllOf), if_neg (not_not_intro noOneOf),
      if_neg (not_not_intro noAnyOf), unlisted, Option.getD_none, declaredType, isArray]
      at named reads
    rw [itemType_eq_map] at named reads
    cases items with
    | none =>
      have unknown : IsAtom "unknown".toList := .word (by decide) (by decide)
      exact ⟨_, reads.unique (Legible.atom unknown).array.saysOnly, rfl⟩
    | some s =>
      obtain ⟨item, legible⟩ := exists_legible_typeOf dialect named
      refine ⟨item, reads.unique legible.array.saysOnly, ?_⟩
      simp only [toList_typeText]
      exact legible.saysOnly

end Keywords

/-- What the text of a schema's type says, null aside, is made as the schema's keywords say. -/
theorem exists_saysOnly (dialect : Dialect) (s : Schema)
    (named : "" ∉ (typeOf dialect s).names) :
    ∃ base, SaysOnly (baseType dialect s).text base ∧ IsMadeFrom dialect s base ∧
      SaysOnly (typeText dialect s).toList
        (if addsNull dialect s then base.orNull else base) := by
  rw [← names_baseType] at named
  obtain ⟨base, legible⟩ := isBuilt_isReadable.baseType dialect s named
  refine ⟨base, legible.saysOnly, ?_, ?_⟩
  · cases s with
    | ref path =>
      have atom := isAtom_typeName fun empty => named (List.mem_singleton.2 empty.symm)
      exact legible.saysOnly.unique (Legible.atom atom).saysOnly
    | inline => exact fun noConst => followsKeyword noConst named legible.saysOnly
  · rw [toList_typeText, typeOf_eq]
    split
    · exact legible.orNull.saysOnly
    · exact legible.saysOnly

/-- A union and an array of a union as parts of an intersection, with null beside it. -/
def nestedSchema : Schema :=
  let text : Schema := .inline { types := [.string] } [] none none [] [] []
  let number : Schema := .inline { types := [.number] } [] none none [] [] []
  let object : Schema := .inline {} [("a", text)] none none [] [] []
  let either : Schema := .inline {} [] none none [] [object, .ref "#/components/schemas/A"] []
  .inline { nullable := some true } [] none none
    [.inline {} [] none none [] [] [text, number],
      .inline { types := [.array] } [] none (some either) [] [] []] [] []

example : typeText .openapi30 nestedSchema =
    "((string | number) & ((\x7b a?: string \x7d | A)[])) | null" := by
  decide

theorem exists_saysOnly_nested :
    "" ∉ (typeOf .openapi30 nestedSchema).names ∧
      ∃ base, SaysOnly (baseType .openapi30 nestedSchema).text base ∧
        IsMadeFrom .openapi30 nestedSchema base ∧
        SaysOnly (typeText .openapi30 nestedSchema).toList
          (if addsNull .openapi30 nestedSchema then base.orNull else base) :=
  ⟨by decide, exists_saysOnly .openapi30 nestedSchema (by decide)⟩

/-- The first part is a union that starts with a brace. -/
def splitParts : List Schema :=
  let text : Schema := .inline { types := [.string] } [] none none [] [] []
  let number : Schema := .inline { types := [.number] } [] none none [] [] []
  [.inline {} [] none none [] [.inline {} [("a", text)] none none [] [] [], number] [],
    .ref "#/components/schemas/B"]

/-- Of the union only the last alternative is a part of what is read as an intersection. -/
def splitReading : TypeTree :=
  .combined .union [.object [("a".toList, false, .atom "string".toList)],
    .combined .intersection [.atom "number".toList, .atom "B".toList]]

/-- An intersection that is not read as one, although each of its parts can be read. -/
theorem splits_union :
    (∀ s ∈ splitParts, ∃ t, SaysOnly (typeText .openapi30 s).toList t) ∧
      SaysOnly (typeText .openapi30 (.inline {} [] none none splitParts [] [])).toList
        splitReading ∧ ¬ Joins .openapi30 .intersection splitParts splitReading := by
  have isText : typeText .openapi30 (.inline {} [] none none splitParts [] []) =
      "\x7b a?: string \x7d | number & B" := by
    decide
  rw [isText]
  refine ⟨?_, ?_, ?_⟩
  · intro s hs
    have named : ∀ s ∈ splitParts, "" ∉ (typeOf .openapi30 s).names := by decide
    obtain ⟨t, legible⟩ := exists_legible_typeOf .openapi30 (named s hs)
    exact ⟨t, toList_typeText .openapi30 s ▸ legible.saysOnly⟩
  · have word (name : String) (chars : name.toList ≠ [] ∧ name.toList.all isAtomChar = true) :
        IsAtom name.toList :=
      .word chars.1 chars.2
    have text := Says.atom (word "string" (by decide))
    have number := Says.atom (word "number" (by decide))
    have named := Says.atom (word "B" (by decide))
    have object := Says.object (fun key : String => key.toList) (fun _ => false)
      (fun _ => "string".toList) (fun _ => .atom "string".toList)
      (List.forall_mem_singleton.2 (word "a" (by decide)))
      (List.forall_mem_singleton.2 text.to_union)
    have behind := (number.loosen .intersection).combine (named.loosen .intersection)
    exact fun _ => ((object.loosen .union).combine behind.to_union).readsAsType_iff
  · rintro ⟨read, -, joined⟩
    cases joined

end OpenApiModels.TypeScript
