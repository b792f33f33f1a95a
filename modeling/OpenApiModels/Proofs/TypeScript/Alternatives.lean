import OpenApiModels.Proofs.TypeScript.SchemaReading

/-!
# Alternatives of types

The alternatives of a type's text stand between the signs of a union outside of brackets. Of a
schema that lists types these are the type of the first one that is not null, and null if it is
listed (`exists_alternatives`).
-/

namespace OpenApiModels.TypeScript

/-! ### Brackets -/

namespace Lexeme

def opens : Lexeme → Bool
  | .mark c => "([\x7b<".toList.contains c
  | .atom _ => false

def closes : Lexeme → Bool
  | .mark c => ")]\x7d>".toList.contains c
  | .atom _ => false

/-- How many brackets are open behind the lexeme. -/
def depthAfter (depth : Nat) (l : Lexeme) : Nat :=
  if l.opens then depth + 1 else if l.closes then depth - 1 else depth

end Lexeme

/-- Puts lexemes in front of the first group. -/
def prepend (ls : List Lexeme) : List (List Lexeme) → List (List Lexeme)
  | [] => [ls]
  | group :: groups => (ls ++ group) :: groups

/-- What stands between the signs of a union outside of brackets, of which `depth` are open. -/
def splitAlternatives (depth : Nat) : List Lexeme → List (List Lexeme)
  | [] => [[]]
  | l :: ls =>
    if l = .mark '|' ∧ depth = 0 then [] :: splitAlternatives 0 ls
    else prepend [l] (splitAlternatives (l.depthAfter depth) ls)

/-- Whether each bracket has its counterpart; `depth` are open before. -/
def isBalanced (depth : Nat) : List Lexeme → Bool
  | [] => depth == 0
  | l :: ls => !(l.closes && depth == 0) && isBalanced (l.depthAfter depth) ls

/-- The lexemes without a pair of parentheses around them. -/
def unparenthesized (ls : List Lexeme) : List Lexeme :=
  match ls with
  | .mark '(' :: rest =>
    if rest.getLast? = some (.mark ')') ∧ isBalanced 0 rest.dropLast then rest.dropLast else ls
  | _ => ls

/-- The alternatives of a type's text, each without parentheses around it. -/
def alternatives? (text : String) : Option (List (List Lexeme)) :=
  (lexemes? text.toList).map fun ls => (splitAlternatives 0 ls).map unparenthesized

theorem prepend_append (a b : List Lexeme) (groups : List (List Lexeme)) :
    prepend (a ++ b) groups = prepend a (prepend b groups) := by
  cases groups <;> simp [prepend]

theorem prepend_nil (depth : Nat) (ls : List Lexeme) :
    prepend [] (splitAlternatives depth ls) = splitAlternatives depth ls := by
  cases ls with
  | nil => rfl
  | cons l ls =>
    rw [splitAlternatives]
    split
    · rfl
    · rw [← prepend_append, List.nil_append]

/-! ### Lexemes that are passed over -/

/-- Every bracket in the lexemes has its counterpart there, and no sign of a union stands outside
of brackets where fewer than `least` are open. -/
structure PassesAt (least : Nat) (ls : List Lexeme) : Prop where
  split : ∀ depth rest, least ≤ depth →
    splitAlternatives depth (ls ++ rest) = prepend ls (splitAlternatives depth rest)
  balanced : ∀ depth rest, isBalanced depth (ls ++ rest) = isBalanced depth rest

namespace PassesAt

variable {least : Nat} {ls ls' : List Lexeme}

theorem nil : PassesAt least [] where
  split depth rest _ := (prepend_nil depth rest).symm
  balanced _ _ := rfl

theorem append (h : PassesAt least ls) (h' : PassesAt least ls') : PassesAt least (ls ++ ls') where
  split depth rest enough := by
    rw [List.append_assoc, h.split _ _ enough, h'.split _ _ enough, prepend_append]
  balanced depth rest := by rw [List.append_assoc, h.balanced, h'.balanced]

/-- A lexeme that is neither a bracket nor, outside of brackets, the sign of a union. -/
theorem one {l : Lexeme} (opens : l.opens = false) (closes : l.closes = false)
    (sign : l = .mark '|' → 0 < least) : PassesAt least [l] where
  split depth rest enough := by
    have inside : ¬(l = .mark '|' ∧ depth = 0) := fun here => by
      have := sign here.1
      omega
    rw [List.singleton_append, splitAlternatives, if_neg inside, Lexeme.depthAfter, opens, closes]
    rfl
  balanced depth rest := by
    rw [List.singleton_append, isBalanced, Lexeme.depthAfter, opens, closes]
    simp

theorem atom (text : List Char) : PassesAt least [.atom text] :=
  one rfl rfl nofun

theorem mono (h : PassesAt 0 ls) : PassesAt least ls where
  split depth rest _ := h.split depth rest (Nat.zero_le _)
  balanced := h.balanced

/-- What stands between brackets. -/
theorem enclosed (h : PassesAt 1 ls) {opening closing : Lexeme} (opens : opening.opens = true)
    (notClosing : opening.closes = false) (closes : closing.closes = true)
    (notOpening : closing.opens = false) :
    PassesAt least (opening :: ls ++ [closing]) where
  split depth rest _ := by
    have first : ¬(opening = .mark '|' ∧ depth = 0) := fun here => by
      rw [here.1] at opens
      cases opens
    have last : ¬(closing = .mark '|' ∧ depth + 1 = 0) := fun here => Nat.succ_ne_zero _ here.2
    rw [List.append_assoc, List.cons_append, splitAlternatives, if_neg first, Lexeme.depthAfter,
      if_pos opens, h.split _ _ (Nat.succ_le_succ (Nat.zero_le _)), List.singleton_append,
      splitAlternatives, if_neg last, Lexeme.depthAfter, notOpening, closes, ← prepend_append,
      ← prepend_append]
    rfl
  balanced depth rest := by
    rw [List.append_assoc, List.cons_append, isBalanced, Lexeme.depthAfter, if_pos opens,
      h.balanced, List.singleton_append, isBalanced, Lexeme.depthAfter, notOpening, closes,
      notClosing]
    simp

end PassesAt

/-! ### Texts -/

/-- The text has lexemes, wherever it stands, that are passed over. -/
def Nests (least : Nat) (text : List Char) : Prop :=
  ∃ ls, Lexes text ls ∧ PassesAt least ls

namespace Nests

variable {least : Nat} {text text' : List Char}

theorem mono (h : Nests 0 text) : Nests least text :=
  let ⟨ls, lexes, passes⟩ := h
  ⟨ls, lexes, passes.mono⟩

theorem atom (h : IsAtom text) : Nests least text :=
  ⟨_, .atom h, .atom text⟩

theorem append {c : Char} (h : Nests least text) (h' : Nests least (c :: text'))
    (ends : isAtomChar c = false) : Nests least (text ++ c :: text') :=
  let ⟨_, lexes, passes⟩ := h
  let ⟨_, lexes', passes'⟩ := h'
  ⟨_, lexes.append lexes' ends, passes.append passes'⟩

theorem blank (h : Nests least text) : Nests least (' ' :: text) :=
  let ⟨_, lexes, passes⟩ := h
  ⟨_, lexes.blank, passes⟩

theorem mark {c : Char} (isMark : isTypeMark c = true)
    (plain : (Lexeme.mark c).opens = false ∧ (Lexeme.mark c).closes = false)
    (sign : c = '|' → 0 < least) (h : Nests least text) : Nests least (c :: text) :=
  let ⟨_, lexes, passes⟩ := h
  ⟨_, lexes.mark isMark,
    (PassesAt.one plain.1 plain.2 fun here => sign (Lexeme.mark.inj here)).append passes⟩

theorem parentheses (h : Nests 1 text) : Nests least ('(' :: text ++ [')']) :=
  let ⟨_, lexes, passes⟩ := h
  ⟨_, lexes.enclosed (by decide) (by decide),
    passes.enclosed (by decide) (by decide) (by decide) (by decide)⟩

theorem parenthesizeUnion (h : Nests 1 text) (plain : '|' ∉ text → Nests 0 text) :
    Nests 1 (TypeExpr.parenthesizeUnion text) ∧
      ('|' ∉ TypeExpr.parenthesizeUnion text → Nests 0 (TypeExpr.parenthesizeUnion text)) := by
  unfold TypeExpr.parenthesizeUnion
  split
  · exact ⟨h.parentheses, fun _ => h.parentheses⟩
  · exact ⟨h, plain⟩

/-- Texts with a mark between blanks, or before a blank, between them. -/
theorem intercalate {c : Char} {parts : List (List Char)} (isMark : isTypeMark c = true)
    (plain : (Lexeme.mark c).opens = false ∧ (Lexeme.mark c).closes = false)
    (sign : c = '|' → 0 < least) (each : ∀ p ∈ parts, Nests least p) (lead : Bool) :
    Nests least (List.intercalate ((if lead then [' '] else []) ++ [c, ' ']) parts) := by
  induction parts with
  | nil => exact ⟨[], .nil, .nil⟩
  | cons p parts ih =>
    obtain ⟨here, others⟩ := List.forall_mem_cons.1 each
    cases parts with
    | nil => simpa using here
    | cons q parts =>
      have rest := mark isMark plain sign (ih others).blank
      rw [List.intercalate_cons_cons]
      cases lead with
      | true =>
        have whole := here.append rest.blank (by decide)
        simpa using whole
      | false =>
        have whole := here.append rest (isAtomChar_of_isTypeMark isMark)
        simpa using whole

theorem field {key : List Char} (isKey : IsAtom key) (required : Bool) (h : Nests 1 text) :
    Nests 1 (key ++ (if required then [] else ['?']) ++ ':' :: ' ' :: text) := by
  have colon : Nests 1 (':' :: ' ' :: text) := mark (by decide) (by decide) (by decide) h.blank
  have optional : Nests 1 ('?' :: ':' :: ' ' :: text) :=
    mark (by decide) (by decide) (by decide) colon
  cases required with
  | true => simpa using (atom isKey).append colon (by decide)
  | false => simpa using (atom isKey).append optional (by decide)

end Nests

/-- The lexemes of the text, without a sign of a union outside of brackets: one atom, or lexemes
that end in a mark other than a parenthesis. -/
structure HasOperand (text : List Char) (ls : List Lexeme) : Prop where
  lexes : Lexes text ls
  passes : PassesAt 0 ls
  ends : ls = [.atom text] ∨ ∃ c, c ≠ ')' ∧ ls.getLast? = some (.mark c)

theorem HasOperand.getLast?_ne {text : List Char} {ls : List Lexeme} (h : HasOperand text ls) :
    ls.getLast? ≠ some (.mark ')') := by
  rcases h.ends with rfl | ⟨c, other, last⟩
  · exact nofun
  · rw [last]
    exact fun same => other (Lexeme.mark.inj (Option.some.inj same))

def IsOperand (text : List Char) : Prop :=
  ∃ ls, HasOperand text ls

namespace IsOperand

variable {text : List Char}

theorem nests (h : IsOperand text) : Nests 0 text :=
  let ⟨ls, operand⟩ := h
  ⟨ls, operand.lexes, operand.passes⟩

theorem atom (h : IsAtom text) : IsOperand text :=
  ⟨_, .atom h, .atom text, .inl rfl⟩

theorem array (h : Nests 1 text) (plain : '|' ∉ text → Nests 0 text) :
    IsOperand (TypeExpr.arrayText text) := by
  have suffix {item : List Char} (h : Nests 0 item) : IsOperand (item ++ ['[', ']']) := by
    obtain ⟨ls, lexes, passes⟩ := h
    have brackets : Lexes ['[', ']'] [.mark '[', .mark ']'] :=
      .mark (by decide) (.mark (by decide) .nil)
    have pair : PassesAt 0 [.mark '[', .mark ']'] :=
      PassesAt.nil.enclosed (by decide) (by decide) (by decide) (by decide)
    exact ⟨_, lexes.append brackets (by decide), passes.append pair,
      .inr ⟨']', by decide, by simp⟩⟩
  unfold TypeExpr.arrayText
  split
  · have item : Nests 0 ('(' :: text ++ [')']) := h.parentheses
    simpa using suffix item
  · rename_i signs
    simp only [Bool.or_eq_true, List.contains_iff_mem, not_or] at signs
    exact suffix (plain signs.1)

theorem record (h : Nests 1 text) :
    IsOperand ("Record<string, ".toList ++ text ++ ['>']) := by
  have name : IsAtom "Record".toList := .word (by decide) (by decide)
  have key : IsAtom "string".toList := .word (by decide) (by decide)
  obtain ⟨ls, lexes, passes⟩ := (Nests.atom key).append
    (.mark (c := ',') (by decide) (by decide) (by decide) h.blank) (by decide)
  have brackets : Lexes ('<' :: ("string".toList ++ ',' :: ' ' :: text) ++ ['>'])
      (.mark '<' :: ls ++ [.mark '>']) :=
    lexes.enclosed (by decide) (by decide)
  have whole := (Lexes.atom name).append brackets (by decide)
  refine ⟨_, by simpa using whole, (PassesAt.atom _).append
    (passes.enclosed (by decide) (by decide) (by decide) (by decide)),
    .inr ⟨'>', by decide, ?_⟩⟩
  rw [← List.append_assoc, List.getLast?_concat]

theorem object {fields : List (String × Bool × TypeExpr)}
    (keys : ∀ f ∈ fields, ∃ name, f.1 = propertyKey name)
    (each : ∀ f ∈ fields, Nests 1 f.2.2.text) : IsOperand (TypeExpr.object fields).text := by
  have fieldTexts : ∀ t ∈ fields.map (fun f => TypeExpr.fieldText f.1 f.2.1 f.2.2.text),
      Nests 1 t := by
    refine List.forall_mem_map.2 fun f hf => ?_
    obtain ⟨name, key⟩ := keys f hf
    exact Nests.field (key ▸ isAtom_propertyKey name) f.2.1 (each f hf)
  obtain ⟨ls, lexes, passes⟩ :=
    Nests.intercalate (c := ';') (by decide) (by decide) (by decide) fieldTexts false
  have close : Lexes [' ', '\x7d'] [.mark '\x7d'] := Lexes.blank (.mark (by decide) .nil)
  have whole := Lexes.mark (c := '\x7b') (by decide) (lexes.append close (by decide)).blank
  rw [TypeExpr.text_object]
  have brackets : PassesAt 0 (.mark '\x7b' :: ls ++ [.mark '\x7d']) :=
    passes.enclosed (by decide) (by decide) (by decide) (by decide)
  refine ⟨_, by simpa using whole, brackets, .inr ⟨'\x7d', by decide, List.getLast?_concat⟩⟩

end IsOperand

theorem isAtom_null : IsAtom "null".toList :=
  .word (by decide) (by decide)

/-! ### Types -/

/-- Outside of brackets the text of the type has the sign of a union only if it has one at all. -/
def HasAlternatives (t : TypeExpr) : Prop :=
  Nests 1 t.text ∧ ('|' ∉ t.text → Nests 0 t.text)

namespace HasAlternatives

theorem of_operand {t : TypeExpr} (h : IsOperand t.text) : HasAlternatives t :=
  ⟨h.nests.mono, fun _ => h.nests⟩

theorem named (path : String) : HasAlternatives (.named (typeName (refName path))) := by
  by_cases empty : typeName (refName path) = ""
  · have nothing : ∀ least, Nests least (TypeExpr.named (typeName (refName path))).text := by
      intro least
      rw [empty]
      exact ⟨[], .nil, .nil⟩
    exact ⟨nothing 1, fun _ => nothing 0⟩
  · exact of_operand (.atom (isAtom_typeName empty))

theorem builtin {name : String}
    (h : name ∈ ["unknown", "Blob", "string", "number", "boolean", "null"]) :
    IsOperand (TypeExpr.builtin name).text := by
  have words : ∀ name ∈ ["unknown", "Blob", "string", "number", "boolean", "null"],
      name.toList ≠ [] ∧ name.toList.all isAtomChar = true := by
    decide
  exact .atom (.word (words name h).1 (words name h).2)

theorem intersection {parts : List TypeExpr} (each : ∀ t ∈ parts, HasAlternatives t) :
    HasAlternatives (.intersection parts) := by
  have wrapped : ∀ p ∈ (parts.map TypeExpr.text).map TypeExpr.parenthesizeUnion,
      Nests 1 p ∧ ('|' ∉ p → Nests 0 p) :=
    List.forall_mem_map.2 (List.forall_mem_map.2 fun t ht =>
      (each t ht).1.parenthesizeUnion (each t ht).2)
  unfold HasAlternatives
  rw [TypeExpr.text_intersection]
  refine ⟨Nests.intercalate (c := '&') (by decide) (by decide) (by decide)
    (fun p hp => (wrapped p hp).1) true, fun plain => ?_⟩
  exact Nests.intercalate (c := '&') (by decide) (by decide) (by decide)
    (fun p hp => (wrapped p hp).2 fun sign =>
      plain ((isInside_intercalate hp).subset sign)) true

theorem union {parts : List TypeExpr} (nonempty : parts ≠ [])
    (each : ∀ t ∈ parts, HasAlternatives t) : HasAlternatives (.union parts) := by
  unfold HasAlternatives
  rw [TypeExpr.text_union]
  refine ⟨Nests.intercalate (c := '|') (by decide) (by decide) (by decide)
    (List.forall_mem_map.2 fun t ht => (each t ht).1) true, fun plain => ?_⟩
  match parts with
  | [] => exact absurd rfl nonempty
  | [t] => simpa using (each t List.mem_cons_self).2 (by simpa using plain)
  | t :: u :: rest =>
    exact absurd (mem_of_sign .union (sign_mem_intercalate .union TypeExpr.text t u rest)) plain

theorem orNull {base : TypeExpr} (h : HasAlternatives base) : HasAlternatives (.orNull base) := by
  unfold HasAlternatives
  rw [TypeExpr.text_orNull]
  unfold TypeExpr.orNullText
  split
  · exact h
  · have null : Nests 1 [' ', '|', ' ', 'n', 'u', 'l', 'l'] :=
      (Nests.mark (c := '|') (by decide) (by decide) (by decide)
        (Nests.atom isAtom_null).blank).blank
    refine ⟨(h.1.parenthesizeUnion h.2).1.append null (by decide), fun plain => ?_⟩
    exact absurd (List.mem_append_right _ (by decide)) plain

end HasAlternatives

theorem isBuilt_hasAlternatives : IsBuilt HasAlternatives where
  named := HasAlternatives.named
  builtin _ h := .of_operand (HasAlternatives.builtin h)
  literal v := .of_operand (.atom (isAtom_literalType v))
  array h := .of_operand (.array h.1 h.2)
  record h := .of_operand (.record h.1)
  object keys each := .of_operand (.object keys fun f hf => (each f hf).1)
  intersection _ := HasAlternatives.intersection
  union := HasAlternatives.union
  orNull := HasAlternatives.orNull

/-! ### Listed types -/

section Listed

variable {k : Keywords} {properties : List (String × Schema)}
  {additional : Option (Additional Schema)} {items : Option Schema}

/-- The type that a schema has by its declared type alone. -/
def typeOfDeclared (k : Keywords) (properties : List (String × Schema))
    (additional : Option (Additional Schema)) (items : Option Schema) : TypeExpr :=
  declaredType k (fieldTypes .openapi31 k.required properties) (additionalType .openapi31 additional)
    (itemType .openapi31 items)

theorem typeOf_listed (noConst : k.constValue = none) (noEnum : k.enumValues = []) :
    typeOf .openapi31 (.inline k properties additional items [] [] []) =
      nullableType .openapi31 k (typeOfDeclared k properties additional items) := by
  rw [typeOf_eq]
  have base : baseType .openapi31 (.inline k properties additional items [] [] []) =
      (enumType? k.enumValues).getD (typeOfDeclared k properties additional items) :=
    baseType_of_noConst fun _ => noConst
  rw [base, noEnum]
  rfl

theorem primaryType_single (t : SchemaType) : { k with types := [t] }.primaryType = some t := by
  cases t <;> rfl

/-- With one listed type alone the schema has the type that it has where that is the first one. -/
theorem typeOf_alone (noConst : k.constValue = none) (noEnum : k.enumValues = [])
    (t : SchemaType) :
    typeOf .openapi31 (.inline { k with types := [t] } properties additional items [] [] []) =
      typeOfDeclared { k with types := [t] } properties additional items := by
  rw [typeOf_listed (k := { k with types := [t] }) noConst noEnum, nullableType, isNullable]
  simp

theorem typeOfDeclared_congr {t : SchemaType} (first : k.primaryType = some t) :
    typeOfDeclared k properties additional items =
      typeOfDeclared { k with types := [t] } properties additional items := by
  unfold typeOfDeclared declaredType
  rw [primaryType_single, first]

/-- A type that one listed type gives: an array, a record, an object, or a word of the language. -/
inductive IsDeclared (t : SchemaType) : TypeExpr → Prop where
  | array {item : TypeExpr} (inItem : HasAlternatives item) : IsDeclared t (.array item)
  | record {value : TypeExpr} (inValue : HasAlternatives value) : IsDeclared t (.record value)
  | object {fields : List (String × Bool × TypeExpr)}
      (keys : ∀ f ∈ fields, ∃ name, f.1 = propertyKey name)
      (each : ∀ f ∈ fields, HasAlternatives f.2.2) : IsDeclared t (.object fields)
  | word {name : String} (h : name ∈ ["Blob", "string", "number", "boolean"]) :
      IsDeclared t (.builtin name)
  | null (h : t = .null) : IsDeclared t (.builtin "null")

theorem isDeclared_typeOfDeclared (t : SchemaType) :
    IsDeclared t (typeOfDeclared { k with types := [t] } properties additional items) := by
  have built := isBuilt_hasAlternatives
  unfold typeOfDeclared declaredType
  rw [primaryType_single, fieldTypes_eq_map, additionalType_eq_map, itemType_eq_map]
  cases t with
  | array =>
    refine .array (built.getD fun t ht => ?_)
    obtain ⟨s, -, rfl⟩ := Option.map_eq_some_iff.1 ht
    exact built.typeOf .openapi31 s
  | object =>
    dsimp only
    split
    · refine .record (built.getD fun t ht => ?_)
      obtain ⟨s, -, rfl⟩ := Option.map_eq_some_iff.1 ht
      exact built.typeOf .openapi31 s
    · exact .object (List.forall_mem_map.2 fun p _ => ⟨p.1, rfl⟩)
        (List.forall_mem_map.2 fun p _ => built.typeOf .openapi31 p.2)
  | string =>
    dsimp only [scalarType]
    split <;> exact .word (by decide)
  | number | integer | boolean => exact .word (by decide)
  | null => exact .null rfl

namespace IsDeclared

variable {t : SchemaType} {type : TypeExpr}

theorem isOperand (h : IsDeclared t type) : IsOperand type.text := by
  cases h with
  | array inItem => exact .array inItem.1 inItem.2
  | record inValue => exact .record inValue.1
  | object keys each => exact .object keys fun f hf => (each f hf).1
  | word h =>
    have words : ∀ name ∈ ["Blob", "string", "number", "boolean"],
        name ∈ ["unknown", "Blob", "string", "number", "boolean", "null"] := by
      decide
    exact HasAlternatives.builtin (words _ h)
  | null => exact HasAlternatives.builtin (by decide)

/-- Only null is written as a type that admits null. -/
theorem eq_null (h : IsDeclared t type)
    (admits : type.text = "unknown".toList ∨ type.text = "null".toList) : t = .null := by
  cases h with
  | @array item =>
    have last : (TypeExpr.array item).text.getLast? = some ']' := by
      rw [TypeExpr.text_array, TypeExpr.arrayText]
      split <;>
        · rw [List.getLast?_append]
          rfl
    rcases admits with same | same <;>
      · rw [same] at last
        exact absurd last (by decide)
  | record =>
    rw [TypeExpr.text_record] at admits
    rcases admits with same | same <;>
      exact absurd (congrArg List.head? same) (by simp)
  | object =>
    rw [TypeExpr.text_object] at admits
    rcases admits with same | same <;>
      exact absurd (congrArg List.head? same) (by simp)
  | @word name h =>
    have words : ∀ name ∈ ["Blob", "string", "number", "boolean"],
        name.toList ≠ "unknown".toList ∧ name.toList ≠ "null".toList := by
      decide
    exact (admits.elim (words name h).1 (words name h).2).elim
  | null h => exact h

end IsDeclared

end Listed

/-! ### The alternatives -/

theorem unparenthesized_eq_self {ls : List Lexeme} (h : ls.getLast? ≠ some (.mark ')')) :
    unparenthesized ls = ls := by
  unfold unparenthesized
  split
  · rename_i rest
    refine if_neg fun wrapped => h ?_
    rw [List.getLast?_cons, wrapped.1]
    rfl
  · rfl

theorem unparenthesized_parentheses {ls : List Lexeme} (h : PassesAt 0 ls) :
    unparenthesized (.mark '(' :: ls ++ [.mark ')']) = ls := by
  have balanced := h.balanced 0 []
  rw [List.append_nil] at balanced
  have wrapped : (ls ++ [Lexeme.mark ')']).getLast? = some (.mark ')') ∧
      isBalanced 0 (ls ++ [Lexeme.mark ')']).dropLast = true :=
    ⟨List.getLast?_concat, by rw [List.dropLast_concat, balanced]; rfl⟩
  rw [List.cons_append, unparenthesized, if_pos wrapped, List.dropLast_concat]

/-- The alternatives of an operand, and of an operand with null beside it. -/
theorem alternatives_operand {text : List Char} {ls : List Lexeme} (h : HasOperand text ls) :
    alternatives? (String.ofList text) = some [ls] := by
  have split := h.passes.split 0 [] (Nat.le_refl 0)
  rw [List.append_nil] at split
  rw [alternatives?, String.toList_ofList, h.lexes.eq, Option.map_some, split]
  simp [splitAlternatives, prepend, unparenthesized_eq_self h.getLast?_ne]

theorem alternatives_orNull {text : List Char} {ls : List Lexeme} (h : HasOperand text ls) :
    alternatives? (String.ofList (TypeExpr.parenthesizeUnion text ++ " | null".toList)) =
      some [ls, [.atom "null".toList]] := by
  have null : Lexes [' ', '|', ' ', 'n', 'u', 'l', 'l'] [.mark '|', .atom "null".toList] :=
    (Lexes.mark (c := '|') (by decide)
      (Lexes.atom isAtom_null).blank).blank
  have behind : splitAlternatives 0 [.mark '|', .atom "null".toList] =
      [[], [.atom "null".toList]] := by
    decide
  have beside {text' : List Char} {ls' : List Lexeme} (lexes : Lexes text' ls')
      (passes : PassesAt 0 ls') (own : unparenthesized ls' = ls) :
      alternatives? (String.ofList (text' ++ " | null".toList)) =
        some [ls, [.atom "null".toList]] := by
    have whole : Lexes (text' ++ " | null".toList) (ls' ++ [.mark '|', .atom "null".toList]) :=
      lexes.append null (by decide)
    rw [alternatives?, String.toList_ofList, whole.eq, Option.map_some,
      passes.split 0 _ (Nat.le_refl 0), behind, prepend, List.append_nil, List.map_cons, own]
    rfl
  unfold TypeExpr.parenthesizeUnion
  split
  · exact beside (h.lexes.enclosed (by decide) (by decide))
      (h.passes.mono.enclosed (by decide) (by decide) (by decide) (by decide))
      (unparenthesized_parentheses h.passes)
  · exact beside h.lexes h.passes (unparenthesized_eq_self h.getLast?_ne)

section Listed

variable {k : Keywords} {properties : List (String × Schema)}
  {additional : Option (Additional Schema)} {items : Option Schema}

/-- The lexemes of the type that a schema has with one listed type alone. -/
def aloneLexemes? (k : Keywords) (properties : List (String × Schema))
    (additional : Option (Additional Schema)) (items : Option Schema) (t : SchemaType) :
    Option (List Lexeme) :=
  lexemes? (typeText .openapi31
    (.inline { k with types := [t] } properties additional items [] [] [])).toList

theorem primaryType_spec (some_ : k.types ≠ []) :
    ∃ t ∈ k.types, k.primaryType = some t ∧
      (t ≠ .null → k.types.find? (· != .null) = some t) ∧
      (t = .null → ∀ u ∈ k.types, u = .null) := by
  unfold Keywords.primaryType
  cases found : k.types.find? (· != .null) with
  | some t =>
    have other : t ≠ .null := by simpa using List.find?_some found
    exact ⟨t, List.mem_of_find?_eq_some found, rfl, fun _ => rfl, fun null => absurd null other⟩
  | none =>
    have all : ∀ u ∈ k.types, u = .null := fun u hu => by
      simpa using List.find?_eq_none.1 found u hu
    obtain ⟨t, rest, types⟩ := List.exists_cons_of_ne_nil some_
    have first : t ∈ k.types := by
      rw [types]
      exact List.mem_cons_self
    exact ⟨t, first, by rw [types]; rfl, fun other => absurd (all t first) other, fun _ => all⟩

theorem isNullable_iff {t : SchemaType} (first : k.primaryType = some t) (other : t ≠ .null) :
    isNullable .openapi31 k = true ↔ .null ∈ k.types := by
  rw [isNullable, Keywords.hasType, Bool.and_eq_true, List.contains_iff_mem, decide_eq_true_iff,
    and_iff_left_iff_imp]
  intro null
  obtain ⟨t', mem, first', -⟩ := primaryType_spec (List.ne_nil_of_mem null)
  obtain rfl := Option.some.inj (first.symm.trans first')
  match types : k.types with
  | [] =>
    rw [types] at null
    exact absurd null List.not_mem_nil
  | [u] =>
    rw [types, List.mem_singleton] at null mem
    exact absurd (mem.trans null.symm) other
  | _ :: _ :: _ => simp

variable (noConst : k.constValue = none) (noEnum : k.enumValues = [])

include noConst noEnum

theorem exists_alone (properties : List (String × Schema))
    (additional : Option (Additional Schema)) (items : Option Schema) (t : SchemaType) :
    ∃ own, aloneLexemes? k properties additional items t = some own ∧
      HasOperand (typeOfDeclared { k with types := [t] } properties additional items).text own ∧
      (own = [.atom "null".toList] ↔ t = .null) := by
  have declared : IsDeclared t
      (typeOfDeclared { k with types := [t] } properties additional items) :=
    isDeclared_typeOfDeclared t
  obtain ⟨own, operand⟩ := declared.isOperand
  refine ⟨own, ?_, operand, fun null => ?_, fun null => ?_⟩
  · rw [aloneLexemes?, toList_typeText, typeOf_alone noConst noEnum]
    exact operand.lexes.eq
  · rcases operand.ends with same | ⟨c, -, last⟩
    · rw [null] at same
      exact declared.eq_null (.inr (Lexeme.atom.inj (List.cons.inj same).1).symm)
    · rw [null] at last
      cases last
  · have word : Lexes (typeOfDeclared { k with types := [t] } properties additional items).text
        [.atom "null".toList] := by
      subst null
      exact .atom isAtom_null
    exact Option.some.inj (operand.lexes.eq.symm.trans word.eq)

/-- The alternatives of a schema that lists types. -/
theorem alternatives_typeText {t : SchemaType} {own : List Lexeme} (first : k.primaryType = some t)
    (alone : aloneLexemes? k properties additional items t = some own) :
    alternatives? (typeText .openapi31 (.inline k properties additional items [] [] [])) =
      some (if t ≠ .null ∧ .null ∈ k.types then [own, [.atom "null".toList]] else [own]) := by
  obtain ⟨own', same, operand, -⟩ := exists_alone noConst noEnum properties additional items t
  obtain rfl := Option.some.inj (alone.symm.trans same)
  rw [typeText, typeOf_listed noConst noEnum, nullableType, typeOfDeclared_congr first]
  have admits : (typeOfDeclared { k with types := [t] } properties additional items).text =
      "unknown".toList ∨ (typeOfDeclared { k with types := [t] } properties additional items).text =
        "null".toList → t = .null :=
    (isDeclared_typeOfDeclared t).eq_null
  by_cases null : t = .null
  · -- null alone stays as it is, however often it is listed
    have text : (typeOfDeclared { k with types := [t] } properties additional items).text =
        "null".toList := by
      subst null
      rfl
    have stays : (if isNullable .openapi31 k = true then
          (typeOfDeclared { k with types := [t] } properties additional items).orNull
        else typeOfDeclared { k with types := [t] } properties additional items).text =
        (typeOfDeclared { k with types := [t] } properties additional items).text := by
      split
      · rw [TypeExpr.text_orNull, TypeExpr.orNullText, if_pos (.inr text)]
      · rfl
    rw [stays, alternatives_operand operand, if_neg fun other => other.1 null]
  · have listed := isNullable_iff first null
    by_cases has : .null ∈ k.types
    · rw [if_pos (listed.2 has), if_pos ⟨null, has⟩, TypeExpr.text_orNull, TypeExpr.orNullText,
        if_neg fun here => null (admits here), alternatives_orNull operand]
    · rw [if_neg fun here => has (listed.1 here), if_neg fun here => has here.2,
        alternatives_operand operand]

/-- Of the types that a schema lists, the first one that is not null, and null if it is listed,
have their types among the alternatives of the schema's type. Another one does only where it has
the same type alone, and there are no other alternatives. -/
theorem exists_alternatives (properties : List (String × Schema))
    (additional : Option (Additional Schema)) (items : Option Schema) :
    ∃ alternatives,
      alternatives? (typeText .openapi31 (.inline k properties additional items [] [] [])) =
        some alternatives ∧
      (∀ t ∈ k.types, ∃ own, aloneLexemes? k properties additional items t = some own ∧
        (own ∈ alternatives ↔ t = .null ∨ ∃ first, k.types.find? (· != .null) = some first ∧
          aloneLexemes? k properties additional items first = some own)) ∧
      (k.types ≠ [] → ∀ own ∈ alternatives,
        ∃ t ∈ k.types, aloneLexemes? k properties additional items t = some own) := by
  by_cases empty : k.types = []
  · have built := isBuilt_hasAlternatives.typeOf .openapi31
      (.inline k properties additional items [] [] [])
    obtain ⟨⟨ls, lexes, -⟩, -⟩ := built
    refine ⟨(splitAlternatives 0 ls).map unparenthesized, ?_, ?_, fun some_ => absurd empty some_⟩
    · rw [alternatives?, toList_typeText, lexes.eq, Option.map_some]
    · rw [empty]
      exact fun t ht => absurd ht List.not_mem_nil
  obtain ⟨first, mem, primary, found, allNull⟩ := primaryType_spec empty
  obtain ⟨own, alone, -, isNull⟩ := exists_alone noConst noEnum properties additional items first
  refine ⟨_, alternatives_typeText noConst noEnum primary alone, fun t ht => ?_, fun _ own' h => ?_⟩
  · obtain ⟨own', alone', -, isNull'⟩ := exists_alone noConst noEnum properties additional items t
    refine ⟨own', alone', ?_⟩
    by_cases null : first = .null
    · have same : own' = own := by rw [isNull'.2 (allNull null t ht), isNull.2 null]
      rw [if_neg fun other => other.1 null, List.mem_singleton]
      exact ⟨fun _ => .inl (allNull null t ht), fun _ => same⟩
    · constructor
      · intro h
        split at h
        · rcases List.mem_pair.1 h with rfl | isNull
          · exact .inr ⟨first, found null, alone⟩
          · exact .inl (isNull'.1 isNull)
        · obtain rfl := List.mem_singleton.1 h
          exact .inr ⟨first, found null, alone⟩
      · rintro (rfl | ⟨first', found', same⟩)
        · rw [if_pos ⟨null, ht⟩, isNull'.2 rfl]
          exact List.mem_cons_of_mem _ List.mem_cons_self
        · obtain rfl := Option.some.inj ((found null).symm.trans found')
          obtain rfl := Option.some.inj (alone.symm.trans same)
          split <;> exact List.mem_cons_self
  · split at h
    · rename_i listed
      rcases List.mem_pair.1 h with rfl | null
      · exact ⟨first, mem, alone⟩
      · obtain ⟨own', alone', -, isNull'⟩ :=
          exists_alone noConst noEnum properties additional items .null
        exact ⟨.null, listed.2, by rw [alone', null, isNull'.2 rfl]⟩
    · obtain rfl := List.mem_singleton.1 h
      exact ⟨first, mem, alone⟩

end Listed

/-- Null, numbers and texts. -/
def mixedTypes : Keywords := { types := [.null, .integer, .string, .number] }

theorem exists_alternatives_mixed :
    (mixedTypes.constValue = none ∧ mixedTypes.enumValues = []) ∧
      ∃ alternatives,
        alternatives? (typeText .openapi31 (.inline mixedTypes [] none none [] [] [])) =
          some alternatives ∧
        (∀ t ∈ mixedTypes.types, ∃ own, aloneLexemes? mixedTypes [] none none t = some own ∧
          (own ∈ alternatives ↔ t = .null ∨ ∃ first, mixedTypes.types.find? (· != .null) =
            some first ∧ aloneLexemes? mixedTypes [] none none first = some own)) ∧
        (mixedTypes.types ≠ [] → ∀ own ∈ alternatives,
          ∃ t ∈ mixedTypes.types, aloneLexemes? mixedTypes [] none none t = some own) :=
  ⟨⟨rfl, rfl⟩, exists_alternatives rfl rfl [] none none⟩

/-- Of a text or an integer only the text is written. -/
theorem integer_left_out :
    ¬ ∃ alternatives own,
      alternatives? (typeText .openapi31
        (.inline { types := [.string, .integer] } [] none none [] [] [])) = some alternatives ∧
      aloneLexemes? { types := [.string, .integer] } [] none none .integer = some own ∧
      own ∈ alternatives := by
  have word (name : String) (chars : name.toList ≠ [] ∧ name.toList.all isAtomChar = true) :
      lexemes? name.toList = some [.atom name.toList] :=
    (Lexes.atom (.word chars.1 chars.2)).eq
  have text : aloneLexemes? { types := [.string, .integer] } [] none none .string =
      some [.atom "string".toList] :=
    word "string" (by decide)
  have number : aloneLexemes? { types := [.string, .integer] } [] none none .integer =
      some [.atom "number".toList] :=
    word "number" (by decide)
  rintro ⟨alternatives, own, whole, alone, mem⟩
  rw [alternatives_typeText rfl rfl rfl text] at whole
  obtain rfl := Option.some.inj whole
  obtain rfl := Option.some.inj (number.symm.trans alone)
  exact absurd mem (by decide)

end OpenApiModels.TypeScript
