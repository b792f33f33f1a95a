import OpenApiModels.Proofs.Json.NumberText
import OpenApiModels.Proofs.Retyping.ImportLine
import OpenApiModels.Proofs.Schema.Induction
import OpenApiModels.Proofs.TypeScript.BareTokens
import OpenApiModels.Proofs.TypeScript.NameCharacters

/-!
# Texts that leave nothing open

Names, keys, values and types are written so that no literal and no comment is left open, whatever
the spec says (`isWhole_typeOf`).
-/

namespace OpenApiModels.TypeScript

open Text

/-- What holds of a separator, of parts and of texts put together holds of joined parts. -/
theorem intercalate_of_append {P : List Char → Prop} (nil : P [])
    (append : ∀ {a b}, P a → P b → P (a ++ b)) {sep : List Char} (between : P sep)
    {parts : List (List Char)} (each : ∀ part ∈ parts, P part) :
    P (List.intercalate sep parts) := by
  induction parts with
  | nil => exact nil
  | cons first rest ih =>
    obtain ⟨here, others⟩ := List.forall_mem_cons.1 each
    cases rest with
    | nil =>
      rw [List.intercalate_singleton]
      exact here
    | cons second rest =>
      rw [List.intercalate_cons_cons]
      exact append (append here between) (ih others)

theorem IsWhole.intercalate {sep : List Char} {parts : List (List Char)} (between : IsWhole sep)
    (each : ∀ part ∈ parts, IsWhole part) : IsWhole (List.intercalate sep parts) :=
  intercalate_of_append .nil IsWhole.append between each

/-! ### Names -/

theorem isPlain_of_inName {c : Char} (h : InName c) : isPlain c = true := by
  have notQuote : isQuote c = false := by
    simp [isQuote, h.ne '"' (by decide), h.ne '\'' (by decide), h.ne '\x60' (by decide)]
  simp [isPlain, notQuote, h.ne '/' (by decide)]

theorem isWhole_of_inName {cs : List Char} (h : ∀ c ∈ cs, InName c) : IsWhole cs :=
  isWhole_of_all (List.all_eq_true.2 fun c hc => isPlain_of_inName (h c hc))

theorem isWhole_typeName (name : String) : IsWhole (typeName name).toList :=
  isWhole_of_inName fun _ => inName_of_mem_typeName

theorem inName_of_mem_capitalSnakeCase {cs : List Char} :
    ∀ c ∈ capitalSnakeCase cs, InName c := by
  refine intercalate_of_append (P := fun text => ∀ c ∈ text, InName c) ?_ ?_ ?_ ?_
  · exact fun c hc => absurd hc List.not_mem_nil
  · exact fun first second => List.forall_mem_append.2 ⟨first, second⟩
  · exact fun c hc => List.mem_singleton.1 hc ▸ (by decide)
  · intro part hpart c hc
    obtain ⟨word, hword, rfl⟩ := List.mem_map.1 hpart
    obtain ⟨d, hd, hc⟩ := List.mem_flatMap.1 hc
    exact inName_of_mem_capital (inName_of_mem_words hword hd) hc

/-- No small letter of ASCII stands in a name in capitals. -/
theorem isLower_of_mem_capitalSnakeCase {cs : List Char} :
    ∀ c ∈ capitalSnakeCase cs, c.isLower = false := by
  refine intercalate_of_append (P := fun text => ∀ c ∈ text, c.isLower = false) ?_ ?_ ?_ ?_
  · exact fun c hc => absurd hc List.not_mem_nil
  · exact fun first second => List.forall_mem_append.2 ⟨first, second⟩
  · exact fun c hc => List.mem_singleton.1 hc ▸ (by decide)
  · intro part hpart c hc
    obtain ⟨word, -, rfl⟩ := List.mem_map.1 hpart
    obtain ⟨d, -, hc⟩ := List.mem_flatMap.1 hc
    exact isLower_of_mem_capital hc

/-! ### Strings -/

theorem all_controlHex : ((List.range 0x20).all fun n => (Json.controlHex (Char.ofNat n)).all fun d =>
    d != '\\' && d != '"' && d != '\n') = true := by
  decide

theorem plain_controlHex {c d : Char} (control : c.toNat < 0x20) (h : d ∈ Json.controlHex c) :
    d ≠ '\\' ∧ d ≠ '"' ∧ d ≠ '\n' := by
  have each := List.all_eq_true.1 all_controlHex c.toNat (List.mem_range.2 control)
  rw [Char.ofNat_toNat] at each
  simpa [and_assoc] using List.all_eq_true.1 each d h

/-- A character of a string, escaped where it needs to be, does not end the literal. -/
theorem splitLiteral_escapeChar (c : Char) (cs : List Char) :
    splitLiteral '"' (Json.escapeChar c ++ cs) =
      (splitLiteral '"' cs).map fun (text, rest) => (Json.escapeChar c ++ text, rest) := by
  have escape (d : Char) (cs : List Char) : splitLiteral '"' ('\\' :: d :: cs) =
      (splitLiteral '"' cs).map fun (text, rest) => ('\\' :: d :: text, rest) := by
    rw [splitLiteral.eq_def]
    rfl
  unfold Json.escapeChar
  split
  case h_8 notQuote notEscape _ _ inLine _ _ =>
    split
    · rename_i control
      have plain : ∀ d ∈ '0' :: '0' :: Json.controlHex c,
          d ≠ '\\' ∧ d ≠ '"' ∧ (d = '\n' → '"' = '\x60') := by
        intro d hd
        rcases List.mem_cons.1 hd with rfl | hd
        · decide
        rcases List.mem_cons.1 hd with rfl | hd
        · decide
        · obtain ⟨notEscape, notQuote, inLine⟩ := plain_controlHex control hd
          exact ⟨notEscape, notQuote, fun same => absurd same inLine⟩
      have digits := splitLiteral_plain plain cs
      rw [List.append_assoc, List.cons_append, List.cons_append, escape]
      change ((splitLiteral '"' (('0' :: '0' :: Json.controlHex c) ++ cs)).map _) = _
      rw [digits, Option.map_map]
      rfl
    · refine splitLiteral_plain (x := [c]) (fun d hd => ?_) cs
      rw [List.mem_singleton.1 hd]
      exact ⟨notEscape, notQuote, fun same => absurd same inLine⟩
  all_goals exact escape _ cs

theorem splitLiteral_stringText (s : List Char) :
    splitLiteral '"' (s.flatMap Json.escapeChar ++ ['"']) =
      some (s.flatMap Json.escapeChar ++ ['"'], []) := by
  induction s with
  | nil => decide
  | cons c s ih =>
    rw [List.flatMap_cons, List.append_assoc, splitLiteral_escapeChar, ih, Option.map_some]

theorem isWhole_stringText (s : String) : IsWhole (Json.stringText s) := by
  have whole := IsWhole.literal (by decide) (splitLiteral_stringText s.toList) .nil
  rwa [List.append_nil] at whole

theorem isWhole_propertyKey (name : String) : IsWhole (propertyKey name).toList := by
  unfold propertyKey
  split
  · rename_i bare
    simp only [isBareKey, Bool.and_eq_true, List.all_eq_true] at bare
    refine isWhole_of_all (List.all_eq_true.2 fun c hc => ?_)
    have ascii := bare.2 c hc
    simp only [isAsciiNameChar, Bool.or_eq_true, beq_iff_eq] at ascii
    rcases ascii with name | rfl
    · exact isPlain_of_inName fun _ => by simpa using name
    · decide
  · rw [String.toList_ofList]
    exact isWhole_stringText name

/-! ### Numbers -/

theorem isPlain_of_isNumeral {c : Char} (h : Json.isNumeral c = true) : isPlain c = true := by
  simp only [Json.isNumeral, Bool.or_eq_true, beq_iff_eq] at h
  rcases h with (((digit | rfl) | rfl) | rfl) | rfl
  · exact isPlain_of_inName fun _ => by simp [Char.isAlphanum, digit]
  all_goals decide

theorem all_isPlain_numberText (n : Number.Value) : (Json.numberText n).all isPlain = true :=
  List.all_eq_true.2 fun _ hc => isPlain_of_isNumeral (Json.isNumeral_of_mem_numberText hc)

/-! ### Types -/

theorem isWhole_literalType (v : Json) : IsWhole (literalType v).text := by
  have unknown : IsWhole "unknown".toList := isWhole_of_all (by decide)
  cases v with
  | null => exact isWhole_of_all (by decide)
  | bool b => cases b <;> exact isWhole_of_all (by decide)
  | number n =>
    change IsWhole (String.ofList (Json.numberText n)).toList
    rw [String.toList_ofList]
    exact isWhole_of_all (all_isPlain_numberText n)
  | string s =>
    change IsWhole (String.ofList (Json.stringText s)).toList
    rw [String.toList_ofList]
    exact isWhole_stringText s
  | array items => exact unknown
  | object members => exact unknown

namespace TypeExpr

theorem isWhole_parenthesizeUnion {text : List Char} (h : IsWhole text) :
    IsWhole (parenthesizeUnion text) := by
  unfold parenthesizeUnion
  split
  · exact (IsWhole.char (by decide) (by decide) h).append (isWhole_of_all (by decide))
  · exact h

theorem isWhole_array {item : TypeExpr} (h : IsWhole item.text) : IsWhole (array item).text := by
  rw [text_array, arrayText]
  split
  · exact (IsWhole.char (by decide) (by decide) h).append (isWhole_of_all (by decide))
  · exact h.append (isWhole_of_all (by decide))

theorem isWhole_record {value : TypeExpr} (h : IsWhole value.text) :
    IsWhole (record value).text := by
  have start : IsWhole "Record<string, ".toList := isWhole_of_all (by decide)
  rw [text_record]
  exact (start.append h).append (isWhole_of_all (by decide))

theorem isWhole_orNull {base : TypeExpr} (h : IsWhole base.text) :
    IsWhole (orNull base).text := by
  rw [text_orNull, orNullText]
  split
  · exact h
  · exact (isWhole_parenthesizeUnion h).append (isWhole_of_all (by decide))

theorem isWhole_union {parts : List TypeExpr} (h : ∀ t ∈ parts, IsWhole t.text) :
    IsWhole (union parts).text := by
  rw [text_union]
  exact .intercalate (isWhole_of_all (by decide)) (List.forall_mem_map.2 h)

theorem isWhole_intersection {parts : List TypeExpr} (h : ∀ t ∈ parts, IsWhole t.text) :
    IsWhole (intersection parts).text := by
  rw [text_intersection]
  refine .intercalate (isWhole_of_all (by decide)) (List.forall_mem_map.2 ?_)
  exact List.forall_mem_map.2 fun t ht => isWhole_parenthesizeUnion (h t ht)

theorem isWhole_fieldText {key : String} {type : List Char} (required : Bool)
    (isKey : IsWhole key.toList) (isType : IsWhole type) :
    IsWhole (fieldText key required type) := by
  have mark : IsWhole (if required then [] else ['?']) := by
    cases required <;> exact isWhole_of_all (by decide)
  have behindMark : IsWhole (':' :: ' ' :: type) :=
    .char (by decide) (by decide) (.char (by decide) (by decide) isType)
  exact (isKey.append mark).append behindMark

theorem isWhole_object {fields : List (String × Bool × TypeExpr)}
    (h : ∀ f ∈ fields, IsWhole f.1.toList ∧ IsWhole f.2.2.text) :
    IsWhole (object fields).text := by
  have between : IsWhole [';', ' '] := isWhole_of_all (by decide)
  have inside := between.intercalate
    (List.forall_mem_map.2 fun f hf => isWhole_fieldText f.2.1 (h f hf).1 (h f hf).2)
  rw [text_object]
  exact (IsWhole.char (by decide) (by decide) (.char (by decide) (by decide) inside)).append
    (isWhole_of_all (by decide))

end TypeExpr

theorem isWhole_builtin {name : String}
    (h : name ∈ ["unknown", "Blob", "string", "number", "boolean", "null"]) :
    IsWhole (TypeExpr.builtin name).text := by
  have plain : ∀ name ∈ ["unknown", "Blob", "string", "number", "boolean", "null"],
      name.toList.all isPlain = true := by
    decide
  exact isWhole_of_all (plain name h)

theorem isBuilt_isWhole : IsBuilt fun t => IsWhole t.text where
  named _ := isWhole_typeName _
  builtin _ := isWhole_builtin
  literal := isWhole_literalType
  array := TypeExpr.isWhole_array
  record := TypeExpr.isWhole_record
  object keys inFields := TypeExpr.isWhole_object fun f hf => by
    obtain ⟨name, key⟩ := keys f hf
    exact ⟨key ▸ isWhole_propertyKey name, inFields f hf⟩
  intersection _ := TypeExpr.isWhole_intersection
  union _ := TypeExpr.isWhole_union
  orNull := TypeExpr.isWhole_orNull

/-- The type of a schema is written without leaving a literal or a comment open. -/
theorem isWhole_typeOf (dialect : Dialect) (s : Schema) : IsWhole (typeOf dialect s).text :=
  isBuilt_isWhole.typeOf dialect s

end OpenApiModels.TypeScript
