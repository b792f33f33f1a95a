import OpenApiModels.Proofs.TypeScript.WordSequence

/-!
# The shape of types

The type of a schema is written as words, literals and marks, as keys in front of marks, and as
parts in braces that semicolons tell apart (`hasShape_typeOf`). So its braces are balanced, outside
of them there is no semicolon, and neither an import nor a declaration starts in it.
-/

namespace OpenApiModels.TypeScript

open Text

/-! ### Tokens of types -/

/-- A token that neither starts anything nor tells parts from each other. -/
structure Token.IsLoose (t : Token) : Prop where
  notImport : t.isWord "import" = false
  notEnum : t.isWord "enum" = false
  notMark : ∀ c ∈ ['\x7b', '\x7d', ';'], t.isMark c = false

/-- Tokens of types, and of parts in braces. -/
inductive Shape : Bool → List Token → Prop where
  | nil {inside : Bool} : Shape inside []
  | loose {inside : Bool} {t : Token} (h : t.IsLoose) : Shape inside [t]
  | append {inside : Bool} {ts us : List Token} (first : Shape inside ts)
      (second : Shape inside us) : Shape inside (ts ++ us)
  /-- As a key any word can stand in front of a mark. -/
  | key {inside : Bool} {t u : Token} {ts : List Token} (notMark : t.kind ≠ .mark)
      (mark : u.Continues) (more : Shape inside (u :: ts)) : Shape inside (t :: u :: ts)
  | semicolon : Shape true [.mark [] ';']
  | braces {inside : Bool} {ts : List Token} (within : Shape true ts) :
      Shape inside (.mark [] '\x7b' :: (ts ++ [.mark [] '\x7d']))

namespace Shape

variable {inside : Bool} {ts : List Token}

theorem of_loose (h : ∀ t ∈ ts, t.IsLoose) : Shape inside ts := by
  induction ts with
  | nil => exact .nil
  | cons t ts ih =>
    obtain ⟨first, others⟩ := List.forall_mem_cons.1 h
    exact .append (.loose first) (ih others)

theorem settled (h : Shape inside ts) : Settled ts := by
  induction h with
  | nil => exact settled_marksOf []
  | loose h => exact settled_of_others (List.forall_mem_singleton.2 ⟨h.notImport, h.notEnum⟩)
  | append _ _ first second => exact first.append second
  | key _ mark _ more => exact settled_cons_mark mark more
  | semicolon => exact settled_marksOf [';']
  | braces _ within =>
    exact Settled.append (settled_marksOf ['\x7b']) (within.append (settled_marksOf ['\x7d']))

/-- Where the word `enum` stands, it is a key. -/
theorem enums (h : Shape inside ts) : Followed "enum" Token.Continues ts := by
  have marks (cs : List Char) : Followed "enum" Token.Continues (marksOf cs) :=
    followed_of_not fun t ht => isWord_of_kind_ne (by simp [kind_of_mem_marksOf ht]) _
  induction h with
  | nil => exact marks []
  | loose h => exact followed_of_not (List.forall_mem_singleton.2 h.notEnum)
  | append _ _ first second => exact first.append second
  | key _ mark _ more => exact followed_cons.2 ⟨fun _ => ⟨_, _, rfl, mark⟩, more⟩
  | semicolon => exact marks [';']
  | braces _ within =>
    exact Followed.append (marks ['\x7b']) (within.append (marks ['\x7d']))

end Shape

/-! ### Texts of types -/

/-- The text is a part of a line and written like a type. -/
structure HasShape (inside : Bool) (text : List Char) : Prop where
  reads : ∃ ts, Tokenizes text ts ∧ Shape inside ts
  line : '\n' ∉ text

/-- The text consists of spaces and of marks that tell no parts from each other. -/
def isLooseMarks (cs : List Char) : Bool :=
  isPunctuation cs && cs.all fun c => !(['\x7b', '\x7d', ';'].contains c)

/-- The text consists of spaces and marks, and the marks may stand there. -/
structure Separates (inside : Bool) (text : List Char) : Prop where
  marks : isPunctuation text = true
  shape : Shape inside (marksOf text)

section HasShape

variable {inside : Bool} {a b : List Char}

theorem HasShape.isCalm (h : HasShape false a) : IsCalm a := by
  obtain ⟨⟨ts, reads, shape⟩, line⟩ := h
  exact ⟨⟨ts, reads, shape.settled⟩, line⟩

theorem hasShape_nil : HasShape inside [] :=
  ⟨⟨[], readsAs_nil.tokenizes, .nil⟩, List.not_mem_nil⟩

theorem HasShape.append (first : HasShape inside a) (second : HasShape inside b)
    (ends : StopsWord b) : HasShape inside (a ++ b) := by
  obtain ⟨ts, reads, shape⟩ := first.reads
  obtain ⟨us, reads', shape'⟩ := second.reads
  refine ⟨⟨ts ++ us, reads.append reads' ends, shape.append shape'⟩, ?_⟩
  rw [List.mem_append, not_or]
  exact ⟨first.line, second.line⟩

/-! ### Marks -/

theorem separates_of_isLooseMarks (h : isLooseMarks a = true) : Separates inside a := by
  rw [isLooseMarks, Bool.and_eq_true, List.all_eq_true] at h
  refine ⟨h.1, .of_loose fun t ht => ?_⟩
  obtain ⟨c, hc, rfl⟩ := List.mem_map.1 ht
  have other := h.2 c (List.mem_filter.1 hc).1
  refine ⟨rfl, rfl, fun d hd => ?_⟩
  rw [Bool.eq_false_iff]
  intro mark
  obtain rfl : c = d := by simpa [Token.isMark, Token.mark] using mark
  rw [List.contains_iff_mem.2 hd] at other
  cases other

theorem separates_semicolon : Separates true [';', ' '] :=
  ⟨by decide, .semicolon⟩

theorem HasShape.behind_marks (h : HasShape inside b) (marks : Separates inside a) :
    HasShape inside (a ++ b) := by
  obtain ⟨ts, reads, shape⟩ := h.reads
  refine ⟨⟨_, (readsAs_punctuation marks.marks).append_tokenizes reads,
    marks.shape.append shape⟩, ?_⟩
  rw [List.mem_append, not_or]
  exact ⟨noBreak_of_isPunctuation marks.marks, h.line⟩

theorem HasShape.behind (h : HasShape inside b) (marks : isLooseMarks a = true) :
    HasShape inside (a ++ b) :=
  h.behind_marks (separates_of_isLooseMarks marks)

theorem HasShape.before (h : HasShape inside a) (marks : isLooseMarks b = true)
    (ends : StopsWord b) : HasShape inside (a ++ b) := by
  have alone := (hasShape_nil : HasShape inside []).behind marks
  rw [List.append_nil] at alone
  exact h.append alone ends

theorem HasShape.intercalate {sep : List Char} {parts : List (List Char)}
    (between : Separates inside sep) (ends : sep.head? = some ' ' ∨ sep.head? = some ';')
    (each : ∀ part ∈ parts, HasShape inside part) : HasShape inside (List.intercalate sep parts) := by
  induction parts with
  | nil => exact hasShape_nil
  | cons first rest ih =>
    obtain ⟨here, others⟩ := List.forall_mem_cons.1 each
    cases rest with
    | nil =>
      rw [List.intercalate_singleton]
      exact here
    | cons second rest =>
      rw [List.intercalate_cons_cons, List.append_assoc]
      refine here.append ((ih others).behind_marks between) ?_
      rcases ends with start | start <;>
        (obtain ⟨more, rfl⟩ := List.head?_eq_some_iff.1 start; rfl)

/-! ### Words and literals -/

theorem isLoose_of_kind {t : Token} (notWord : t.kind ≠ .word) (notMark : t.kind ≠ .mark) :
    t.IsLoose :=
  ⟨isWord_of_kind_ne notWord _, isWord_of_kind_ne notWord _, fun c _ => by simp [Token.isMark, notMark]⟩

theorem hasShape_name {name : String} (h : Token.IsName name) (imports : name ≠ "import")
    (enums : name ≠ "enum") : HasShape inside name.toList where
  reads := by
    refine ⟨_, tokenizes_name h, .loose ⟨?_, ?_, fun c _ => rfl⟩⟩
    all_goals
      rw [Bool.eq_false_iff, Ne, Token.isWord_iff]
      rintro ⟨-, same⟩
    · exact imports (String.toList_inj.1 same)
    · exact enums (String.toList_inj.1 same)
  line := noBreak_isName h

theorem hasShape_keyword {name : String} {c : Char} {r : List Char} (text : name.toList = c :: r)
    (h : (!isBlank c && !isQuote c && !c.isDigit && isNameStart c && r.all isNameChar &&
      name != "import" && name != "enum") = true) : HasShape inside name.toList := by
  rw [Bool.and_eq_true, Bool.and_eq_true, bne_iff_ne, bne_iff_ne] at h
  exact hasShape_name (Token.isName_of_chars text h.1.1) h.1.2 h.2

theorem hasShape_stringText (s : String) : HasShape inside (Json.stringText s) where
  reads := ⟨_, (readsAs_stringText s).tokenizes, .loose (isLoose_of_kind (by simp) (by simp))⟩
  line := noBreak_stringText s

theorem hasShape_of_isNumeral (h : a.all Json.isNumeral = true) : HasShape inside a := by
  have missing {c : Char} (other : Json.isNumeral c = false) : c ∉ a := by
    intro mem
    rw [List.all_eq_true.1 h c mem] at other
    cases other
  have whole : IsWhole a := isWhole_of_all (List.all_eq_true.2 fun c hc =>
    isPlain_of_isNumeral (List.all_eq_true.1 h c hc))
  obtain ⟨ts, reads, within⟩ := exists_tokenizes whole
  have noWord {word : String} (letter : 'm' ∈ word.toList) (t : Token) (ht : t ∈ ts) :
      t.isWord word = false := by
    rw [Bool.eq_false_iff, Ne, Token.isWord_iff]
    rintro ⟨-, text⟩
    exact missing (show Json.isNumeral 'm' = false by decide) (within t ht (text ▸ letter))
  refine ⟨⟨ts, reads, .of_loose fun t ht =>
    ⟨noWord (by decide) t ht, noWord (by decide) t ht, fun c hc => ?_⟩⟩, missing (by decide)⟩
  have none : ['\x7b', '\x7d', ';'].all (fun c => !Json.isNumeral c) = true := by decide
  have other : Json.isNumeral c = false := by simpa using List.all_eq_true.1 none c hc
  rw [Bool.eq_false_iff, Ne, Token.isMark_iff]
  rintro ⟨-, text⟩
  exact missing other (within t ht (by rw [text]; exact List.mem_cons_self))

theorem hasShape_literalType (v : Json) : HasShape inside (literalType v).text := by
  have unknown : HasShape inside "unknown".toList := hasShape_keyword rfl (by decide)
  cases v with
  | null => exact hasShape_keyword (show "null".toList = _ from rfl) (by decide)
  | bool b =>
    cases b with
    | true => exact hasShape_keyword (show "true".toList = _ from rfl) (by decide)
    | false => exact hasShape_keyword (show "false".toList = _ from rfl) (by decide)
  | number n =>
    change HasShape inside (String.ofList (Json.numberText n)).toList
    rw [String.toList_ofList]
    exact hasShape_of_isNumeral (List.all_eq_true.2 fun _ hc => Json.isNumeral_of_mem_numberText hc)
  | string s =>
    change HasShape inside (String.ofList (Json.stringText s)).toList
    rw [String.toList_ofList]
    exact hasShape_stringText s
  | array items => exact unknown
  | object members => exact unknown

/-! ### Types put together -/

/-- The tokens of a key and a type: behind the key stands a mark, whatever the key is. -/
theorem exists_fieldTokens {type : List Char} (name : String) (required : Bool)
    (h : HasShape inside type) : ∃ mark rest,
      Tokenizes (TypeExpr.fieldText (propertyKey name) required type)
        (keyToken (propertyKey name) :: mark :: rest) ∧
      mark.isMark (if required then ':' else '?') = true ∧
      Shape inside (keyToken (propertyKey name) :: mark :: rest) := by
  obtain ⟨ts, reads, shape⟩ := h.reads
  obtain ⟨marks, u, us, split, isMarks, ends, first, continues, isMark⟩ : ∃ marks u us,
      TypeExpr.fieldText (propertyKey name) required type =
        (propertyKey name).toList ++ (marks ++ type) ∧ isLooseMarks marks = true ∧
        StopsWord (marks ++ type) ∧ marksOf marks = u :: us ∧ u.Continues ∧
        u.isMark (if required then ':' else '?') = true := by
    cases required with
    | true => exact ⟨[':', ' '], _, _, by simp [TypeExpr.fieldText], by decide, rfl, rfl,
        ⟨rfl, by decide⟩, rfl⟩
    | false => exact ⟨['?', ':', ' '], _, _, by simp [TypeExpr.fieldText], by decide, rfl, rfl,
        ⟨rfl, by decide⟩, rfl⟩
  obtain ⟨punctuation, separates⟩ : Separates inside marks := separates_of_isLooseMarks isMarks
  have behind := (readsAs_punctuation punctuation).append_tokenizes reads
  have shape' := separates.append shape
  rw [first] at behind shape'
  have field := (tokenizes_propertyKey name).append behind ends
  rw [← split] at field
  exact ⟨u, us ++ ts, field, isMark, .key (kind_keyToken_ne _) continues shape'⟩

theorem hasShape_fieldText {key : String} {type : List Char} (isKey : ∃ name, key = propertyKey name)
    (required : Bool) (h : HasShape inside type) :
    HasShape inside (TypeExpr.fieldText key required type) := by
  obtain ⟨name, rfl⟩ := isKey
  obtain ⟨_, _, field, -, shape⟩ := exists_fieldTokens name required h
  refine ⟨⟨_, field, shape⟩, ?_⟩
  have key := noBreak_propertyKey name
  cases required <;> simp [TypeExpr.fieldText, key, h.line]

theorem HasShape.parenthesizeUnion (h : HasShape inside a) :
    HasShape inside (TypeExpr.parenthesizeUnion a) := by
  unfold TypeExpr.parenthesizeUnion
  split
  · have opened : HasShape inside ('(' :: a) := h.behind (show isLooseMarks ['('] = true by decide)
    exact opened.before (by decide) rfl
  · exact h

theorem HasShape.arrayText (h : HasShape inside a) : HasShape inside (TypeExpr.arrayText a) := by
  unfold TypeExpr.arrayText
  split
  · have opened : HasShape inside ('(' :: a) := h.behind (show isLooseMarks ['('] = true by decide)
    exact opened.before (by decide) rfl
  · exact h.before (by decide) rfl

theorem HasShape.orNullText (h : HasShape inside a) : HasShape inside (TypeExpr.orNullText a) := by
  unfold TypeExpr.orNullText
  split
  · exact h
  · have null : HasShape inside "null".toList := hasShape_keyword rfl (by decide)
    have alternative : HasShape inside " | null".toList :=
      null.behind (show isLooseMarks [' ', '|', ' '] = true by decide)
    exact h.parenthesizeUnion.append alternative rfl

theorem HasShape.recordText (h : HasShape inside a) :
    HasShape inside ("Record<string, ".toList ++ a ++ ['>']) := by
  have record : HasShape inside "Record".toList := hasShape_keyword rfl (by decide)
  have key : HasShape inside "string".toList := hasShape_keyword rfl (by decide)
  have opened := record.append (key.behind (show isLooseMarks ['<'] = true by decide)) rfl
  have start := opened.append (h.behind (show isLooseMarks [',', ' '] = true by decide)) rfl
  have whole := start.before (show isLooseMarks ['>'] = true by decide) rfl
  simpa using whole

theorem HasShape.braces (h : HasShape true a) :
    HasShape inside ('\x7b' :: ' ' :: a ++ [' ', '\x7d']) := by
  obtain ⟨⟨ts, reads, shape⟩, line⟩ := h
  have opens : ReadsAs ['\x7b', ' '] [.mark [] '\x7b'] := readsAs_marks (by decide)
  have closes : ReadsAs [' ', '\x7d'] [.mark [] '\x7d'] := readsAs_marks (by decide)
  refine ⟨⟨_, opens.append_tokenizes (reads.append closes.tokenizes rfl), .braces shape⟩, ?_⟩
  simp [line]

/-- The names of models in the type are words. -/
def TypeExpr.HasWords (t : TypeExpr) : Prop :=
  ∀ n ∈ t.names, Token.IsName n

theorem isBuilt_hasShape :
    IsBuilt fun t => t.HasWords → ∀ inside, HasShape inside t.text where
  named path words _ :=
    hasShape_name (words _ (List.mem_singleton_self _)) (typeName_ne (by decide) _)
      (typeName_ne (by decide) _)
  builtin name mem _ _ := by
    simp only [List.mem_cons, List.not_mem_nil, or_false] at mem
    rcases mem with rfl | rfl | rfl | rfl | rfl | rfl <;> exact hasShape_keyword rfl (by decide)
  literal v _ _ := hasShape_literalType v
  array inItem words inside := (inItem words inside).arrayText
  record inValue words inside := (inValue words inside).recordText
  object {fields} keys inFields words inside := by
    have each : ∀ f ∈ fields, HasShape true (TypeExpr.fieldText f.1 f.2.1 f.2.2.text) :=
      fun f hf => hasShape_fieldText (keys f hf) f.2.1
        (inFields f hf (fun n hn => words n (mem_fieldNames.2 ⟨f, hf, hn⟩)) true)
    rw [TypeExpr.text_object]
    exact (HasShape.intercalate separates_semicolon (.inr rfl) (List.forall_mem_map.2 each)).braces
  intersection {parts} _ inParts words inside := by
    rw [TypeExpr.text_intersection, List.map_map]
    refine HasShape.intercalate (separates_of_isLooseMarks (by decide)) (.inl rfl)
      (List.forall_mem_map.2 fun t ht => ?_)
    exact (inParts t ht (fun n hn => words n (mem_partNames.2 ⟨t, ht, hn⟩)) inside).parenthesizeUnion
  union {parts} _ inParts words inside := by
    rw [TypeExpr.text_union]
    refine HasShape.intercalate (separates_of_isLooseMarks (by decide)) (.inl rfl)
      (List.forall_mem_map.2 fun t ht => ?_)
    exact inParts t ht (fun n hn => words n (mem_partNames.2 ⟨t, ht, hn⟩)) inside
  orNull inBase words inside := (inBase words inside).orNullText

theorem hasShape_typeOf (dialect : Dialect) (s : Schema) (words : (typeOf dialect s).HasWords) :
    HasShape inside (typeOf dialect s).text :=
  isBuilt_hasShape.typeOf dialect s words inside

end HasShape

/-! ### Calm texts -/

theorem isCalm_keyword {name : String} {c : Char} {r : List Char} (text : name.toList = c :: r)
    (h : (!isBlank c && !isQuote c && !c.isDigit && isNameStart c && r.all isNameChar &&
      name != "import" && name != "enum") = true) : IsCalm name.toList :=
  (hasShape_keyword text h).isCalm

theorem isCalm_stringText (s : String) : IsCalm (Json.stringText s) :=
  (hasShape_stringText s).isCalm

theorem isCalm_of_isNumeral {text : List Char} (h : text.all Json.isNumeral = true) : IsCalm text :=
  (hasShape_of_isNumeral h).isCalm

end OpenApiModels.TypeScript
