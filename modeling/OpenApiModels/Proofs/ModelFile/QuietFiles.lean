import OpenApiModels.Proofs.ModelFile.Comments
import OpenApiModels.Proofs.Retyping.ArrangedFiles
import OpenApiModels.Proofs.TypeScript.TypeShape

/-!
# Generated files are arranged

Where no line of a description passes for an import, none of the file does besides its imports
(`isArranged_text`).
-/

namespace OpenApiModels.ModelFile

open TypeScript Text Retyping

/-! ### Lines -/

/-- Whole lines in which no import starts and of which none passes for one. -/
structure IsOrderly (cs : List Char) : Prop where
  reads : ∃ ts, TypeScript.ReadsAs cs ts ∧ Settled ts
  quiet : ∀ rest, isQuiet .lineStart rest = true → isQuiet .lineStart (cs ++ rest) = true

section Lines

variable {a b : List Char} {o : LayoutOptions}

theorem settled_nil : Settled [] :=
  settled_marksOf []

theorem isOrderly_nil : IsOrderly [] :=
  ⟨⟨[], readsAs_nil, settled_nil⟩, fun _ quiet => quiet⟩

theorem IsOrderly.append (first : IsOrderly a) (second : IsOrderly b) : IsOrderly (a ++ b) := by
  obtain ⟨⟨ts, reads, settled⟩, quiet⟩ := first
  obtain ⟨⟨us, reads', settled'⟩, quiet'⟩ := second
  refine ⟨⟨ts ++ us, reads.append reads', settled.append settled'⟩, fun rest h => ?_⟩
  rw [List.append_assoc]
  exact quiet _ (quiet' rest h)

theorem IsOrderly.flatMap {α : Type} {f : α → List Char} {xs : List α}
    (h : ∀ x ∈ xs, IsOrderly (f x)) : IsOrderly (xs.flatMap f) := by
  induction xs with
  | nil => exact isOrderly_nil
  | cons x xs ih =>
    obtain ⟨first, others⟩ := List.forall_mem_cons.1 h
    rw [List.flatMap_cons]
    exact first.append (ih others)

/-- A line that does not start with the word `import` where that counts. -/
theorem IsCalm.isOrderly_line (calm : TypeScript.IsCalm (a ++ b)) (before : 'i' ∉ a)
    (solid : b.head?.all isBlank = false)
    (here : ∀ rest, passesAt (Place.lineStart.behind a) (b ++ '\n' :: rest) = false) :
    IsOrderly (a ++ b ++ ['\n']) := by
  obtain ⟨⟨ts, reads, settled⟩, line⟩ := calm
  refine ⟨⟨ts, reads.line, settled⟩, fun rest quiet => ?_⟩
  cases b with
  | nil => cases solid
  | cons c b =>
    have inLine : '\n' ∉ b := fun mem => line (by simp [mem])
    rw [List.append_assoc, List.append_assoc, isQuiet_plain before, List.singleton_append,
      List.cons_append, isQuiet, ← List.cons_append, here, Place.next_of_not_blank solid,
      isQuiet_inside inLine]
    exact quiet

/-- The text starts with something else than a blank and the first letter of `import`. -/
def startsApart (cs : List Char) : Bool :=
  cs.head?.any fun c => !isBlank c && c != 'i'

theorem IsCalm.isOrderly_apart (calm : TypeScript.IsCalm (a ++ b)) (before : 'i' ∉ a)
    (apart : startsApart b = true) : IsOrderly (a ++ b ++ ['\n']) := by
  cases b with
  | nil => cases apart
  | cons c b =>
    obtain ⟨blank, other⟩ : isBlank c = false ∧ c ≠ 'i' := by simpa [startsApart] using apart
    exact IsCalm.isOrderly_line calm before blank fun _ => passesAt_of_ne other _

theorem isOrderly_newline : IsOrderly ['\n'] :=
  ⟨⟨[], readsAs_newline, settled_nil⟩, fun _ quiet => quiet⟩

/-- No line of the description passes for an import. -/
def IsQuietComment (o : LayoutOptions) (description : Option String) : Prop :=
  ∀ text ∈ described o description, isQuiet .inside text = true

theorem isOrderly_declarationComment {description : Option String}
    (h : IsQuietComment o description) : IsOrderly (declarationComment o description) where
  reads := ⟨[], readsAs_declarationComment o description, settled_nil⟩
  quiet rest quiet := by
    unfold declarationComment
    split
    · rename_i text shown
      have split : "/**\n * ".toList ++ text ++ "\n */\n".toList ++ rest =
          "/**\n * ".toList ++ (text ++ '\n' :: (" */\n".toList ++ rest)) := by simp
      rw [split, isQuiet_plain (by decide),
        show Place.lineStart.behind "/**\n * ".toList = .inside from rfl,
        isQuiet_append_blank (by decide)]
      refine ⟨h text shown, ?_⟩
      rw [isQuiet, passesAt_of_ne (by decide), Place.next_eq_lineStart_iff.2 rfl,
        isQuiet_plain (by decide)]
      exact quiet
    · exact quiet

theorem isOrderly_fieldComment {description : Option String} (h : IsQuietComment o description) :
    IsOrderly (fieldComment o description) where
  reads := ⟨[], readsAs_fieldComment o description, settled_nil⟩
  quiet rest quiet := by
    unfold fieldComment
    split
    · rename_i text shown
      have split : "    /** ".toList ++ text ++ " */\n".toList ++ rest =
          "    /** ".toList ++ (text ++ ' ' :: ("*/".toList ++ ['\n'] ++ rest)) := by simp
      rw [split, isQuiet_plain (by decide),
        show Place.lineStart.behind "    /** ".toList = .inside from rfl,
        isQuiet_append_blank (by decide)]
      refine ⟨h text shown, ?_⟩
      rw [isQuiet, passesAt_of_ne (by decide), isQuiet_plain (by decide), Place.behind_break]
      exact quiet
    · exact quiet

end Lines

/-! ### Members -/

variable {o : LayoutOptions}

/-- The characters of a name of a member. -/
def isMemberChar (c : Char) : Bool :=
  c != 'i' && c != 'm' && c != '\n'

/-- A member whose name holds neither `import` nor `enum`. -/
structure Member.IsCalm (m : Member) : Prop where
  chars : m.name.toList.all isMemberChar = true
  whole : TypeScript.IsWhole m.name.toList
  literal : TypeScript.IsCalm m.literal.toList
  apart : startsApart m.literal.toList = true

theorem isOrderly_memberLine {m : Member} (calm : m.IsCalm) : IsOrderly (memberLine m) := by
  obtain ⟨chars, whole, literal, apart⟩ := calm
  have missing {c : Char} (other : isMemberChar c = false) : c ∉ m.name.toList := by
    intro mem
    rw [List.all_eq_true.1 chars c mem] at other
    cases other
  have name : TypeScript.IsCalm m.name.toList :=
    isCalm_of_isWhole whole (missing (by decide)) (missing (by decide))
  have assigned : TypeScript.IsCalm (" = ".toList ++ m.literal.toList) := literal.behind (by decide)
  have indented : TypeScript.IsCalm ("    ".toList ++ m.name.toList) := name.behind (by decide)
  have line := (indented.append assigned rfl).before (show isPunctuation [','] = true by decide) rfl
  have before : 'i' ∉ "    ".toList ++ m.name.toList ++ " = ".toList := by
    simp only [List.mem_append, not_or]
    exact ⟨⟨by decide, missing (by decide)⟩, by decide⟩
  have apart' : startsApart (m.literal.toList ++ [',']) = true := by
    cases text : m.literal.toList with
    | nil =>
      rw [text] at apart
      cases apart
    | cons c cs =>
      rw [text] at apart
      exact apart
  have split : "    ".toList ++ m.name.toList ++ (" = ".toList ++ m.literal.toList) ++ [','] =
      ("    ".toList ++ m.name.toList ++ " = ".toList) ++ (m.literal.toList ++ [',']) := by simp
  rw [split] at line
  simpa [memberLine] using IsCalm.isOrderly_apart line before apart'

/-! ### Enums -/

/-- A word that can stand for a declaration. -/
structure IsTypeName (name : String) : Prop where
  isName : Token.IsName name
  capital : name.toList.head?.any Char.isLower = false

theorem IsTypeName.ne {name word : String} (h : IsTypeName name)
    (small : word.toList.head?.any Char.isLower = true) : name ≠ word := by
  rintro rfl
  rw [h.capital] at small
  cases small

theorem IsTypeName.hasShape {name : String} (h : IsTypeName name) {inside : Bool} :
    HasShape inside name.toList :=
  hasShape_name h.isName (h.ne (by decide)) (h.ne (by decide))

theorem isCalm_export : TypeScript.IsCalm "export".toList :=
  isCalm_keyword rfl (by decide)

theorem isOrderly_export {text : List Char} (calm : TypeScript.IsCalm text)
    (ends : StopsWord text) : IsOrderly ("export".toList ++ text ++ ['\n']) := by
  have line := isCalm_export.append calm ends
  exact IsCalm.isOrderly_apart (a := []) line List.not_mem_nil rfl

theorem isOrderly_closing : IsOrderly ['\x7d', '\n'] :=
  IsCalm.isOrderly_apart (a := []) (b := ['\x7d']) (isCalm_punctuation (by decide))
    List.not_mem_nil rfl

theorem isCalm_enumOpening {name : String} (h : IsTypeName name) :
    TypeScript.IsCalm (" enum ".toList ++ name.toList ++ " \x7b".toList) where
  reads := by
    have word : Tokenizes "enum".toList [.word [] "enum"] :=
      tokenizes_name (Token.isName_of_chars rfl (by decide))
    have keyword : Tokenizes (' ' :: "enum".toList) [.word [] "enum"] :=
      (readsAs_blank (by decide)).append_tokenizes word
    have named : Tokenizes (' ' :: name.toList) [.word [] name] :=
      (readsAs_blank (by decide)).append_tokenizes (tokenizes_name h.isName)
    have brace : Tokenizes " \x7b".toList [.mark [] '\x7b'] :=
      (readsAs_punctuation (by decide)).tokenizes
    have reads := (keyword.append named rfl).append brace rfl
    have own (word : String) (small : word.toList.head?.any Char.isLower = true) :
        (Token.word [] name).isWord word = false := by
      rw [Bool.eq_false_iff, Ne, isWord_word]
      exact h.ne small
    refine ⟨_, reads, ?_, ?_⟩
    · refine followed_of_not (List.forall_mem_cons.2 ⟨rfl, List.forall_mem_cons.2 ⟨?_, ?_⟩⟩)
      · exact own "import" (by decide)
      · exact List.forall_mem_singleton.2 rfl
    · refine followed_cons.2 ⟨fun _ => ⟨_, _, rfl, fun _ => h.capital⟩, ?_⟩
      refine followed_of_not (List.forall_mem_cons.2 ⟨?_, List.forall_mem_singleton.2 rfl⟩)
      exact own "enum" (by decide)
  line := by
    have inName := noBreak_isName h.isName
    simp [inName]

/-- An enum of calm members. -/
structure EnumType.IsCalm (e : EnumType) : Prop where
  name : IsTypeName e.name
  members : ∀ m ∈ e.members, m.IsCalm

theorem isOrderly_enumText {e : EnumType} (calm : e.IsCalm)
    (comment : IsQuietComment o e.description) : IsOrderly (enumText o e) := by
  have opening := isOrderly_export (isCalm_enumOpening calm.name) rfl
  have each := IsOrderly.flatMap fun m hm => isOrderly_memberLine (calm.members m hm)
  have whole := (((isOrderly_declarationComment comment).append opening).append each).append
    isOrderly_closing
  simpa [enumText] using whole

/-! ### Fields -/

/-- A field whose type is written like one. -/
structure Field.IsCalm (f : Field) : Prop where
  key : ∃ name, f.key = propertyKey name
  type : HasShape false f.type.text

/-- In an indented line the word counts only in front of a blank. -/
theorem passesAt_indented {y : List Char} {c : Char} (solid : ∀ d ∈ y, isBlank d = false)
    (last : y.getLast? = some c) (other : c ∉ "import".toList) (b : List Char) :
    passesAt .indented (y ++ b) = false := by
  rw [passesAt_append last other, passesAt]
  cases found : stripStart? "import".toList y with
  | none => rfl
  | some rest =>
    obtain rfl := stripStart?_eq_some_iff.1 found
    cases rest with
    | nil =>
      rw [List.append_nil] at last
      exact absurd (List.mem_of_getLast? last) other
    | cons d rest => exact solid d (by simp)

/-- A key is not taken for an import, even one that is called so. -/
theorem passesAt_propertyKey (name : String) {c : Char} (mark : c = ':' ∨ c = '?')
    (b : List Char) : passesAt .indented ((propertyKey name).toList ++ c :: b) = false := by
  unfold propertyKey
  split
  · rename_i bare
    rw [isBareKey, Bool.and_eq_true, List.all_eq_true] at bare
    have solid : ∀ d ∈ name.toList ++ [c], isBlank d = false := by
      refine List.forall_mem_append.2 ⟨fun d hd => ?_, List.forall_mem_singleton.2 ?_⟩
      · exact (isNameChar_of_isAsciiNameChar (bare.2 d hd)).2
      · rcases mark with rfl | rfl <;> decide
    have other : c ∉ "import".toList := by
      rcases mark with rfl | rfl <;> decide
    have here := passesAt_indented solid List.getLast?_concat other b
    rwa [List.append_assoc] at here
  · rw [String.toList_ofList]
    exact passesAt_of_ne (by decide) _

theorem head?_propertyKey (name : String) :
    (propertyKey name).toList.head?.all isBlank = false := by
  unfold propertyKey
  split
  · rename_i bare
    rw [isBareKey, Bool.and_eq_true, List.all_eq_true] at bare
    cases text : name.toList with
    | nil =>
      rw [text] at bare
      cases bare.1
    | cons c cs => exact (isNameChar_of_isAsciiNameChar (bare.2 c (by simp [text]))).2
  · rw [String.toList_ofList]
    rfl

theorem isOrderly_fieldLine {f : Field} (calm : f.IsCalm) : IsOrderly (fieldLine f) := by
  obtain ⟨name, isKey⟩ := calm.key
  have field := (hasShape_fieldText ⟨name, isKey⟩ (!f.isOptional) calm.type).isCalm
  have marked : TypeExpr.fieldText f.key (!f.isOptional) f.type.text =
      f.key.toList ++ ((if f.isOptional then "?" else "") ++ ": ").toList ++ f.type.text := by
    cases f.isOptional <;> simp [TypeExpr.fieldText]
  have stop {cs : List Char} (calm : TypeScript.IsCalm cs) : TypeScript.IsCalm (cs ++ [';']) :=
    calm.before (by decide) rfl
  cases readOnly : f.readOnly with
  | true =>
    have keyword : TypeScript.IsCalm "readonly".toList := isCalm_keyword rfl (by decide)
    have modified := keyword.append (field.behind (show isPunctuation [' '] = true by decide)) rfl
    have line := stop (modified.behind (show isPunctuation "    ".toList = true by decide))
    rw [List.append_assoc] at line
    have whole := IsCalm.isOrderly_apart line (by decide) rfl
    rw [marked] at whole
    simpa [fieldLine, readOnly] using whole
  | false =>
    have line := stop (field.behind (show isPunctuation "    ".toList = true by decide))
    rw [List.append_assoc] at line
    obtain ⟨c, more, isMark, text⟩ : ∃ c more, (c = ':' ∨ c = '?') ∧
        TypeExpr.fieldText f.key (!f.isOptional) f.type.text = f.key.toList ++ c :: more := by
      cases f.isOptional with
      | false => exact ⟨':', ' ' :: f.type.text, .inl rfl, by simp [TypeExpr.fieldText]⟩
      | true => exact ⟨'?', ':' :: ' ' :: f.type.text, .inr rfl, by simp [TypeExpr.fieldText]⟩
    have solid : (f.key.toList ++ c :: more ++ [';']).head?.all isBlank = false := by
      have start := head?_propertyKey name
      rw [isKey]
      cases keyText : (propertyKey name).toList with
      | nil =>
        rw [keyText] at start
        cases start
      | cons d cs =>
        rw [keyText] at start
        exact start
    have here (rest : List Char) : passesAt (Place.lineStart.behind "    ".toList)
        (f.key.toList ++ c :: more ++ [';'] ++ '\n' :: rest) = false := by
      rw [isKey, List.append_assoc, List.append_assoc]
      exact passesAt_propertyKey name isMark _
    rw [← text] at solid
    rw [← text] at here
    have whole := IsCalm.isOrderly_line line (by decide) solid here
    rw [marked] at whole
    simpa [fieldLine, readOnly] using whole

theorem isOrderly_fieldLines {f : Field} (calm : f.IsCalm)
    (comment : IsQuietComment o f.description) : IsOrderly (fieldLines o f) := by
  rw [fieldLines_eq]
  exact (isOrderly_fieldComment comment).append (isOrderly_fieldLine calm)

/-! ### Files -/

def Body.IsCalm : Body → Prop
  | .enum members => ∀ m ∈ members, m.IsCalm
  | .interface fields _ => ∀ f ∈ fields, f.IsCalm
  | .alias target => TypeScript.IsCalm target.text

/-- A file whose names and types hold no import. -/
structure IsCalm (f : ModelFile) : Prop where
  name : IsTypeName f.name
  body : f.body.IsCalm
  enums : ∀ e ∈ f.enums, e.IsCalm

def Body.descriptions : Body → List (Option String)
  | .interface fields _ => fields.map (·.description)
  | .enum _ | .alias _ => []

/-- What the comments of a file say. -/
def descriptions (f : ModelFile) : List (Option String) :=
  f.description :: (f.body.descriptions ++ f.enums.map (·.description))

/-- What stands below the imports of a file. -/
def statements (o : LayoutOptions) (f : ModelFile) : List Char :=
  '\n' :: (declarationComment o f.description ++ bodyText o f ++
    f.enums.flatMap fun e => '\n' :: enumText o e)

theorem isCalm_opening {name : String} (h : IsTypeName name) :
    TypeScript.IsCalm (" interface ".toList ++ name.toList ++ " \x7b".toList) := by
  have keyword : TypeScript.IsCalm "interface".toList := isCalm_keyword rfl (by decide)
  have named := keyword.append
    (h.hasShape.isCalm.behind (show isPunctuation [' '] = true by decide)) rfl
  have opened := named.before (show isPunctuation " \x7b".toList = true by decide) rfl
  have whole := opened.behind (show isPunctuation [' '] = true by decide)
  simpa using whole

theorem isCalm_alias {name : String} {target : List Char} (h : IsTypeName name)
    (type : TypeScript.IsCalm target) :
    TypeScript.IsCalm (" type ".toList ++ name.toList ++ " = ".toList ++ target ++ [';']) := by
  have keyword : TypeScript.IsCalm "type".toList := isCalm_keyword rfl (by decide)
  have named := keyword.append
    (h.hasShape.isCalm.behind (show isPunctuation [' '] = true by decide)) rfl
  have typed := named.append (type.behind (show isPunctuation " = ".toList = true by decide)) rfl
  have ended := typed.before (show isPunctuation [';'] = true by decide) rfl
  have whole := ended.behind (show isPunctuation [' '] = true by decide)
  simpa using whole

theorem isOrderly_further : IsOrderly "    [key: string]: unknown;\n".toList := by
  have line : TypeScript.IsCalm ("    ".toList ++ "[key: string]: unknown;".toList) :=
    isCalm_plain (by decide)
  exact IsCalm.isOrderly_apart line (by decide) rfl

theorem isOrderly_bodyText {f : ModelFile} (calm : f.IsCalm)
    (quiet : ∀ d ∈ f.descriptions, IsQuietComment o d) : IsOrderly (bodyText o f) := by
  obtain ⟨own, others⟩ := List.forall_mem_cons.1 quiet
  obtain ⟨named, parts, -⟩ := calm
  obtain ⟨name, description, body, enums⟩ := f
  rcases body with members | ⟨fields, isOpen⟩ | target
  · exact isOrderly_enumText ⟨named, parts⟩ own
  · have opening := isOrderly_export (isCalm_opening named) rfl
    have each : IsOrderly (fields.flatMap (fieldLines o)) := IsOrderly.flatMap fun f hf =>
      isOrderly_fieldLines (parts f hf)
        (others _ (List.mem_append_left _ (List.mem_map_of_mem hf)))
    cases isOpen with
    | true =>
      have whole := ((opening.append each).append isOrderly_further).append isOrderly_closing
      simpa [bodyText] using whole
    | false =>
      have whole := (opening.append each).append isOrderly_closing
      simpa [bodyText] using whole
  · simpa [bodyText] using isOrderly_export (isCalm_alias named parts) rfl

theorem isOrderly_statements {f : ModelFile} (calm : f.IsCalm)
    (quiet : ∀ d ∈ f.descriptions, IsQuietComment o d) : IsOrderly (statements o f) := by
  have own := (List.forall_mem_cons.1 quiet).1
  have enums : IsOrderly (f.enums.flatMap fun e => '\n' :: enumText o e) := by
    refine IsOrderly.flatMap fun e he => ?_
    have comment := quiet e.description
      (List.mem_cons_of_mem _ (List.mem_append_right _ (List.mem_map_of_mem he)))
    exact isOrderly_newline.append (isOrderly_enumText (calm.enums e he) comment)
  exact isOrderly_newline.append
    (((isOrderly_declarationComment own).append (isOrderly_bodyText calm quiet)).append enums)

/-- What a file declares is exported. -/
theorem exists_export (o : LayoutOptions) (f : ModelFile) :
    ∃ comment rest, TypeScript.ReadsAs comment [] ∧
      bodyText o f = comment ++ ("export".toList ++ ' ' :: rest) := by
  obtain ⟨name, description, body, enums⟩ := f
  rcases body with members | ⟨fields, isOpen⟩ | target
  · refine ⟨declarationComment o description, ("enum " ++ name ++ " \x7b\n").toList ++
      members.flatMap memberLine ++ ['\x7d', '\n'], readsAs_declarationComment o description, ?_⟩
    simp [bodyText, enumText]
  · exact ⟨[], _, readsAs_nil, by
      simp only [bodyText, String.toList_append, List.append_assoc]
      rfl⟩
  · exact ⟨[], _, readsAs_nil, by
      simp only [bodyText, String.toList_append, List.append_assoc]
      rfl⟩

theorem isBelow_statements {f : ModelFile} (calm : f.IsCalm)
    (quiet : ∀ d ∈ f.descriptions, IsQuietComment o d) : IsBelow (statements o f) := by
  obtain ⟨⟨ts, reads, settled⟩, quietly⟩ := isOrderly_statements calm quiet
  obtain ⟨comment, rest, nothing, text⟩ := exists_export o f
  -- the first token is the keyword
  have front := (readsAs_newline.append (readsAs_declarationComment o f.description)).append nothing
  have keyword : Tokenizes "export".toList [.word [] "export"] :=
    tokenizes_name (Token.isName_of_chars rfl (by decide))
  have first : ∃ us, ts = .word [] "export" :: us := by
    have split : statements o f = ['\n'] ++ declarationComment o f.description ++ comment ++
        ("export".toList ++ ' ' :: (rest ++ f.enums.flatMap fun e => '\n' :: enumText o e)) := by
      simp [statements, text]
    have stop (cs : List Char) : StopsWord (' ' :: cs) := rfl
    have whole := reads.bareTokens
    rw [split, front, keyword _ (stop _), Option.map_map] at whole
    obtain ⟨us, -, rfl⟩ := Option.map_eq_some_iff.1 whole
    exact ⟨us, rfl⟩
  obtain ⟨us, rfl⟩ := first
  have quiet' := quietly [] rfl
  rw [List.append_nil] at quiet'
  exact ⟨rfl, quiet', _, _, reads.bareTokens, settled, rfl⟩

/-! ### Arrangement -/

/-- The import of a model that stands in the same directory. -/
def importOf (name : String) : Import :=
  (name, "./" ++ name)

theorem isHeader_headerLine (oneLine : IsOneLine o) : IsHeader (headerLine o) :=
  ⟨said o, oneLine, headerLine_eq o⟩

theorem module_importOf {name : String} (isName : Token.IsName name) :
    ∀ c ∈ (importOf name).2.toList, isNameChar c = true ∨ c = '.' ∨ c = '/' := by
  have split : (importOf name).2.toList = '.' :: '/' :: name.toList := by simp [importOf]
  rw [split, List.forall_mem_cons, List.forall_mem_cons]
  exact ⟨.inr (.inl rfl), .inr (.inr rfl), fun c hc => .inl (isNameChar_of_isName isName c hc)⟩

theorem importLine_eq {name : String} (isName : Token.IsName name) :
    importLine name = (importOf name).line := by
  have module := stringLiteral_module (module_importOf isName)
  unfold importOf at module
  unfold importLine Import.line Import.text importOf
  dsimp only at module ⊢
  rw [module]
  simp

theorem text_eq_fileText {f : ModelFile} (imports : ∀ n ∈ f.imports, (importOf n).OfModel) :
    f.text o = fileText (headerLine o) (f.imports.map importOf) (statements o f) := by
  have lines : f.imports.flatMap importLine = (f.imports.map importOf).flatMap Import.line := by
    rw [List.flatMap_map]
    exact List.flatMap_congr fun n hn => importLine_eq (imports n hn).name
  rw [text, lines, fileText, statements]
  simp

/-- Where no line of a description passes for an import, none of the file does besides its
imports. -/
theorem isArranged_text {f : ModelFile} (calm : f.IsCalm)
    (imports : ∀ n ∈ f.imports, (importOf n).OfModel) (oneLine : IsOneLine o)
    (quiet : ∀ d ∈ f.descriptions, IsQuietComment o d) :
    IsArranged (headerLine o) (f.imports.map importOf) (statements o f) where
  isHeader := isHeader_headerLine oneLine
  ofModel := List.forall_mem_map.2 imports
  isBelow := isBelow_statements calm quiet

end OpenApiModels.ModelFile
