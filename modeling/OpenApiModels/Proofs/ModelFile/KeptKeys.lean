import OpenApiModels.Generation
import OpenApiModels.Proofs.ModelFile.CalmFiles
import OpenApiModels.Proofs.ModelFile.UnionValues
import OpenApiModels.Proofs.Retyping.KeptInterfaces

/-!
# The keys of generated interfaces behind a run

A run of the default transforms keeps the fields of a generated interface in order, and which of
them can be missing. Names are followed in keys too, though: a key stays just if it is quoted or no
enum is renamed from it (`keys_behind_run`).
-/

namespace OpenApiModels.ModelFile

open TypeScript Text Retyping

variable {f : ModelFile} (o : LayoutOptions)

/-! ### Opening -/

theorem readsAs_importLine {name : String} (isName : Token.IsName name) :
    TypeScript.ReadsAs (importLine name) (importOf name).bare := by
  rw [importLine_eq isName]
  exact Retyping.readsAs_line isName

theorem IsTypeName.leads {name : String} (h : IsTypeName name) (gap : List Char) :
    (Token.word gap name).Leads := by
  refine .inr fun _ small => ?_
  have capital := h.capital
  rw [show name.toList.head? = some 'i' from small] at capital
  cases capital

theorem IsTypeName.isWord {name word : String} (h : IsTypeName name) (gap : List Char)
    (small : word.toList.head?.any Char.isLower = true) :
    (Token.word gap name).isWord word = false := by
  rw [Bool.eq_false_iff, Ne, isWord_word]
  exact h.ne small

/-- The tokens up to the brace of an interface. -/
def openingTokens (imports : List String) (name : String) : List Token :=
  (imports.flatMap fun n => (importOf n).bare) ++
    [.word [] "export", .word [] "interface", .word [] name, .mark [] '\x7b']

theorem bare_importOf (name : String) : (importOf name).bare = [.word [] "import",
    .word [] "type", .mark [] '\x7b', .word [] name, .mark [] '\x7d', .word [] "from",
    .literal [] (importOf name).2, .mark [] ';'] :=
  rfl

theorem leads_importOf {name : String} (h : IsTypeName name) :
    ∀ t ∈ (importOf name).bare, t.Leads := by
  have other (t : Token) (h : t.kind = .word → t.text.head? ≠ some 'i') : t.Leads := .inr h
  rw [bare_importOf]
  simp only [List.forall_mem_cons]
  exact ⟨.inl rfl, other _ fun _ => by decide, other _ nofun, h.leads [], other _ nofun,
    other _ fun _ => by decide, other _ nofun, other _ nofun, nofun⟩

theorem isWord_importOf {name : String} (h : IsTypeName name) :
    ∀ t ∈ (importOf name).bare, t.isWord "enum" = false := by
  rw [bare_importOf]
  simp only [List.forall_mem_cons]
  exact ⟨rfl, rfl, rfl, h.isWord [] (by decide), rfl, rfl, rfl, rfl, nofun⟩

theorem readsAs_opening {name : String} (h : IsTypeName name) :
    TypeScript.ReadsAs ("export interface " ++ name ++ " \x7b\n").toList
      [.word [] "export", .word [] "interface", .word [] name, .mark [] '\x7b'] := by
  have blank : TypeScript.ReadsAs [' '] [] := readsAs_blank (by decide)
  have keyword : Tokenizes "export".toList [.word [] "export"] :=
    tokenizes_name (Token.isName_of_chars rfl (by decide))
  have interface : Tokenizes "interface".toList [.word [] "interface"] :=
    tokenizes_name (Token.isName_of_chars rfl (by decide))
  have brace : TypeScript.ReadsAs [' ', '\x7b'] [.mark [] '\x7b'] := readsAs_marks (by decide)
  have line := (keyword.append (blank.append_tokenizes (interface.append (blank.append_tokenizes
    ((tokenizes_name h.isName).append brace.tokenizes rfl)) rfl)) rfl).line
  simpa using line

/-! ### Fields -/

theorem exists_fieldGroup {field : Field} (calm : field.IsCalm) : ∃ group,
    TypeScript.ReadsAs (fieldLine field) (group ++ [.mark [] ';']) ∧ Shape false group ∧
      IsField (keyToken field.key) field.isOptional group := by
  obtain ⟨⟨name, isKey⟩, type⟩ := calm
  obtain ⟨mark, rest, reads, isMark, shape⟩ := exists_fieldTokens name (!field.isOptional) type
  have isMark' : mark.isMark (if field.isOptional then '?' else ':') = true := by
    cases optional : field.isOptional <;> simpa [optional] using isMark
  have indent : TypeScript.ReadsAs "    ".toList [] := readsAs_marks (by decide)
  have semicolon : TypeScript.ReadsAs [';'] [.mark [] ';'] := readsAs_marks (by decide)
  have ended := reads.append semicolon.tokenizes rfl
  have text : TypeExpr.fieldText field.key (!field.isOptional) field.type.text =
      field.key.toList ++ ((if field.isOptional then "?" else "") ++ ": ").toList ++
        field.type.text := by
    cases field.isOptional <;> simp [TypeExpr.fieldText]
  rw [← isKey] at ended shape
  rw [text] at ended
  have notMark := kind_keyToken_ne field.key
  cases readOnly : field.readOnly with
  | true =>
    have readonly : Tokenizes "readonly".toList [.word [] "readonly"] :=
      tokenizes_name (Token.isName_of_chars rfl (by decide))
    have blank : TypeScript.ReadsAs [' '] [] := readsAs_blank (by decide)
    have line := (indent.append_tokenizes
      (readonly.append (blank.append_tokenizes ended) rfl)).line
    refine ⟨.word [] "readonly" :: keyToken field.key :: mark :: rest, ?_, ?_,
      ⟨notMark, mark, rest, isMark', .inr ⟨_, rfl, rfl⟩⟩⟩
    · simpa [fieldLine, readOnly] using line
    · exact Shape.append (.loose ⟨rfl, rfl, fun c hc => rfl⟩) shape
  | false =>
    have line := (indent.append_tokenizes ended).line
    refine ⟨keyToken field.key :: mark :: rest, ?_, shape,
      ⟨notMark, mark, rest, isMark', .inl rfl⟩⟩
    simpa [fieldLine, readOnly] using line

theorem exists_fieldGroups {fields : List Field} (calm : ∀ field ∈ fields, field.IsCalm) :
    ∃ groups : List (List Token),
      TypeScript.ReadsAs (fields.flatMap (fieldLines o)) (groups.flatMap (· ++ [.mark [] ';'])) ∧
      (∀ group ∈ groups, Shape false group) ∧
      List.Forall₂ (fun field group => IsField (keyToken field.key) field.isOptional group)
        fields groups := by
  induction fields with
  | nil => exact ⟨[], readsAs_nil, nofun, .nil⟩
  | cons field fields ih =>
    obtain ⟨first, others⟩ := List.forall_mem_cons.1 calm
    obtain ⟨group, reads, shape, isField⟩ := exists_fieldGroup first
    obtain ⟨groups, reads', shapes, areFields⟩ := ih others
    refine ⟨group :: groups, ?_, List.forall_mem_cons.2 ⟨shape, shapes⟩, .cons isField areFields⟩
    rw [List.flatMap_cons, List.flatMap_cons, fieldLines_eq]
    exact ((readsAs_fieldComment o field.description).append reads).append reads'

/-- The field for all further properties has no key. -/
def furtherGroup : List Token :=
  [.mark [] '[', .word [] "key", .mark [] ':', .word [] "string", .mark [] ']', .mark [] ':',
    .word [] "unknown"]

theorem readsAs_further : TypeScript.ReadsAs "    [key: string]: unknown;\n".toList
    (furtherGroup ++ [.mark [] ';']) := by
  have key : Tokenizes "key".toList [.word [] "key"] :=
    tokenizes_name (Token.isName_of_chars rfl (by decide))
  have string : Tokenizes "string".toList [.word [] "string"] :=
    tokenizes_name (Token.isName_of_chars rfl (by decide))
  have unknown : Tokenizes "unknown".toList [.word [] "unknown"] :=
    tokenizes_name (Token.isName_of_chars rfl (by decide))
  have opens : TypeScript.ReadsAs "    [".toList [.mark [] '['] := readsAs_marks (by decide)
  have colon : TypeScript.ReadsAs [':', ' '] [.mark [] ':'] := readsAs_marks (by decide)
  have closes : TypeScript.ReadsAs [']', ':', ' '] [.mark [] ']', .mark [] ':'] :=
    readsAs_marks (by decide)
  have semicolon : TypeScript.ReadsAs [';'] [.mark [] ';'] := readsAs_marks (by decide)
  have line := ((((opens.append_tokenizes key).append (colon.append_tokenizes string) rfl).append
    (closes.append_tokenizes unknown) rfl).append semicolon.tokenizes rfl).line
  simpa [furtherGroup] using line

/-- The fields without key of an interface. -/
def furtherGroups (isOpen : Bool) : List (List Token) :=
  if isOpen then [furtherGroup] else []

theorem readsAs_furtherGroups (isOpen : Bool) :
    TypeScript.ReadsAs (if isOpen then "    [key: string]: unknown;\n".toList else [])
      ((furtherGroups isOpen).flatMap (· ++ [.mark [] ';'])) := by
  cases isOpen with
  | true => exact readsAs_further
  | false => exact readsAs_nil

theorem shape_of_mem_furtherGroups {isOpen : Bool} :
    ∀ group ∈ furtherGroups isOpen, Shape false group := by
  cases isOpen with
  | true =>
    refine List.forall_mem_singleton.2 (.of_loose fun t ht => ?_)
    simp only [furtherGroup, List.mem_cons, List.not_mem_nil, or_false] at ht
    rcases ht with rfl | rfl | rfl | rfl | rfl | rfl | rfl <;>
      exact ⟨rfl, rfl, by simp [Token.isMark, Token.mark, Token.word]⟩
  | false => exact fun _ none => absurd none List.not_mem_nil

theorem isKeyless_of_mem_furtherGroups {isOpen : Bool} :
    ∀ group ∈ furtherGroups isOpen, IsKeyless group := by
  cases isOpen with
  | true => exact List.forall_mem_singleton.2 ⟨_, _, _, rfl, rfl, rfl⟩
  | false => exact fun _ none => absurd none List.not_mem_nil

/-! ### Interfaces -/

/-- The tokens of an interface with these fields, and of what stands before it. -/
def interfaceTokens (imports : List String) (name : String) (groups : List (List Token)) :
    List Token :=
  openingTokens imports name ++ (groups.flatMap (· ++ [.mark [] ';']) ++ [.mark [] '\x7d'])

theorem endsInterface {imports : List String} {name : String} {groups : List (List Token)}
    (areNames : ∀ n ∈ imports, IsTypeName n) (isName : IsTypeName name)
    (shapes : ∀ group ∈ groups, Shape false group) :
    EndsInterface (interfaceTokens imports name groups) groups where
  fields behind := by
    have leads : ∀ t ∈ (imports.flatMap fun n => (importOf n).bare) ++ [.word [] "export"],
        t.Leads := by
      refine List.forall_mem_append.2 ⟨fun t ht => ?_, List.forall_mem_singleton.2 ?_⟩
      · obtain ⟨n, hn, here⟩ := List.mem_flatMap.1 ht
        exact leads_importOf (areNames n hn) t here
      · exact .inr fun _ => by decide
    have interface : HasInterface (_ ++ .word [] "interface" :: .word [] name :: .mark [] '\x7b' ::
        (groups.flatMap (· ++ [.mark [] ';']) ++ .mark [] '\x7d' :: behind)) _ :=
      .intro leads rfl rfl
    rw [fieldGroups_flatMap shapes] at interface
    simpa [interfaceTokens, openingTokens] using interface
  enums := by
    have opening : ∀ t ∈ openingTokens imports name, t.isWord "enum" = false := by
      refine List.forall_mem_append.2 ⟨fun t ht => ?_, ?_⟩
      · obtain ⟨n, hn, here⟩ := List.mem_flatMap.1 ht
        exact isWord_importOf (areNames n hn) t here
      · simp only [List.forall_mem_cons]
        exact ⟨rfl, rfl, isName.isWord [] (by decide), rfl, nofun⟩
    have close : TypeScript.Followed "enum" Token.Continues [.mark [] '\x7d'] :=
      followed_of_not (List.forall_mem_singleton.2 rfl)
    refine (followed_of_not opening).append (TypeScript.Followed.append ?_ close)
    refine followed_flatMap fun group hg => ?_
    exact (shapes group hg).enums.append (followed_of_not (List.forall_mem_singleton.2 rfl))
  closed := by
    rw [interfaceTokens, ← List.append_assoc, List.getLast?_concat]

theorem readsAs_interface {imports : List String} (areNames : ∀ n ∈ imports, IsTypeName n)
    (calm : f.IsCalm) {fields : List Field} {isOpen : Bool}
    (body : f.body = .interface fields isOpen) : ∃ groups : List (List Token),
      TypeScript.ReadsAs (imports.flatMap importLine ++ ['\n'] ++
          declarationComment o f.description ++ bodyText o f)
        (interfaceTokens imports f.name (groups ++ furtherGroups isOpen)) ∧
      (∀ group ∈ groups ++ furtherGroups isOpen, Shape false group) ∧
      List.Forall₂ (fun field group => IsField (keyToken field.key) field.isOptional group)
        fields groups := by
  have calmBody := calm.body
  rw [body] at calmBody
  obtain ⟨groups, reads, shapes, areFields⟩ := exists_fieldGroups o calmBody
  have lines : TypeScript.ReadsAs (imports.flatMap importLine)
      (imports.flatMap fun n => (importOf n).bare) :=
    TypeScript.ReadsAs.flatMap fun n hn => readsAs_importLine (areNames n hn).isName
  have front := ((lines.append readsAs_newline).append
    (readsAs_declarationComment o f.description)).append (readsAs_opening calm.name)
  have closing : TypeScript.ReadsAs ['\x7d', '\n'] [.mark [] '\x7d'] :=
    readsAs_marks (by decide)
  have whole := front.append (reads.append ((readsAs_furtherGroups isOpen).append closing))
  refine ⟨groups, ?_, List.forall_mem_append.2 ⟨shapes, shape_of_mem_furtherGroups⟩, areFields⟩
  simp only [List.append_nil, List.append_assoc] at whole
  rw [bodyText, body]
  simp only [interfaceTokens, openingTokens, List.flatMap_append, List.append_assoc]
  exact whole

/-! ### Enums of properties -/

/-- An enum that is declared for the values of a property. -/
structure EnumType.OfProperty (model : String) (e : EnumType) : Prop where
  name : ∃ property, e.name = enumName model property
  members : ∃ values, e.members = membersOf values

theorem ofProperty_of_mem_enums {dialect : Dialect} {model : String} {s : Schema} {e : EnumType}
    (h : e ∈ (ofSchema dialect model s).enums) : e.OfProperty model := by
  cases s with
  | ref path => cases h
  | inline k properties additional items allOf oneOf anyOf =>
    rw [ofSchema] at h
    split at h
    · cases h
    split at h
    · obtain ⟨⟨name, s⟩, -, declares⟩ := List.mem_filterMap.1 h
      cases s with
      | ref path => cases declares
      | inline k' properties' additional' items' allOf' oneOf' anyOf' =>
        rw [enumOf?] at declares
        split at declares
        · cases declares
          exact ⟨⟨name, rfl⟩, ⟨_, rfl⟩⟩
        · cases declares
    · cases h

theorem exists_row {e : EnumType} (isName : Token.IsName e.name) {values : List Json}
    (members : e.members = membersOf values) : ∃ body,
      TypeScript.ReadsAs (enumText o e) (exportedEnum (e.name, body)) ∧
      braces 0 body = some 0 := by
  obtain ⟨body, reads, balanced, -⟩ := exists_body values
  rw [← members] at reads
  have declared := (readsAs_declarationText isName reads).append readsAs_newline
  rw [List.append_nil] at declared
  refine ⟨body, ?_, balanced⟩
  rw [enumText_eq]
  exact (readsAs_declarationComment o e.description).append declared

theorem exists_rows {model : String} (nonempty : model.toList ≠ []) {enums : List EnumType}
    (h : ∀ e ∈ enums, e.OfProperty model ∧ Token.IsName e.name) :
    ∃ rows : List (String × List Token),
      TypeScript.ReadsAs (enums.flatMap fun e => '\n' :: enumText o e)
        (rows.flatMap exportedEnum) ∧
      (∀ row ∈ rows, braces 0 row.2 = some 0) ∧ ∀ row ∈ rows, baseName row.1 ≠ row.1 := by
  induction enums with
  | nil => exact ⟨[], readsAs_nil, nofun, nofun⟩
  | cons e enums ih =>
    obtain ⟨⟨⟨⟨property, name⟩, values, members⟩, isName⟩, others⟩ := List.forall_mem_cons.1 h
    obtain ⟨body, reads, balanced⟩ := exists_row o isName members
    obtain ⟨rows, reads', areBalanced, suffixed⟩ := ih others
    refine ⟨(e.name, body) :: rows, ?_, List.forall_mem_cons.2 ⟨balanced, areBalanced⟩,
      List.forall_mem_cons.2 ⟨?_, suffixed⟩⟩
    · exact (readsAs_newline.append reads).append reads'
    · have base : (model ++ typeName property).toList ≠ [] := by simp [nonempty]
      change baseName e.name ≠ e.name
      rw [name, enumName, baseName_append base]
      intro same
      have lengths := congrArg (·.toList.length) same
      simp at lengths

/-! ### Files -/

variable {o} {dialect : Dialect} {m : Model} {fields : List Field} {isOpen : Bool}

/-- A generated interface stands on top of its file, with the fields of the model. -/
theorem exists_declaresInterface (hf : f ∈ ofModel dialect m) (words : f.HasWords)
    (oneLine : IsOneLine o) (body : f.body = .interface fields isOpen) : ∃ front groups rows,
      DeclaresInterface (f.text o) front (groups ++ furtherGroups isOpen) rows ∧
      List.Forall₂ (fun field group => IsField (keyToken field.key) field.isOptional group)
        fields groups := by
  have calm := isCalm_of_mem_ofModel hf words
  have areNames : ∀ n ∈ f.imports, IsTypeName n := fun n hn => isTypeName_of_mem_imports hf words hn
  obtain ⟨groups, reads, shapes, areFields⟩ := readsAs_interface o areNames calm body
  have ofProperty : ∀ e ∈ f.enums, e.OfProperty f.name ∧ Token.IsName e.name := by
    intro e he
    refine ⟨?_, words _ (List.mem_append_left _ (List.mem_cons_of_mem _ (List.mem_map_of_mem he)))⟩
    rw [ofModel_eq] at hf
    obtain ⟨s, -, rfl⟩ := List.mem_map.1 hf
    rw [name_ofSchema]
    exact ofProperty_of_mem_enums he
  have nonempty : f.name.toList ≠ [] := by
    obtain ⟨c, r, text, -⟩ := calm.name.isName
    rw [text]
    exact List.cons_ne_nil c r
  obtain ⟨rows, readsEnums, balanced, suffixed⟩ := exists_rows o nonempty ofProperty
  refine ⟨interfaceTokens f.imports f.name (groups ++ furtherGroups isOpen), groups, rows,
    ⟨?_, endsInterface areNames calm.name shapes, balanced, suffixed⟩, areFields⟩
  have whole := ((readsAs_headerLine oneLine).append reads).append readsEnums
  have text : f.text o = headerLine o ++ (f.imports.flatMap importLine ++ ['\n'] ++
      declarationComment o f.description ++ bodyText o f) ++
        f.enums.flatMap fun e => '\n' :: enumText o e := by
    simp [ModelFile.text]
  rw [text]
  exact whole.bareTokens

/-! ### Keys -/

theorem filterMap_fieldKey? {keyOf : Field → Token} {groups further : List (List Token)}
    (areFields : List.Forall₂ (fun field group => IsField (keyOf field) field.isOptional group)
      fields groups) (keyless : ∀ group ∈ further, IsKeyless group) :
    (groups ++ further).filterMap fieldKey? =
      fields.map fun field => ⟨(keyOf field).text, field.isOptional⟩ := by
  induction areFields with
  | nil => exact List.filterMap_eq_nil_iff.2 fun group hg => (keyless group hg).fieldKey?
  | cons isField _ ih =>
    rw [List.cons_append, List.filterMap_cons, isField.fieldKey?, ih, List.map_cons]

theorem areFields_renamed {renames : List Rename} (drops : ∀ r ∈ renames, DropsSuffix r)
    {keyOf : Field → Token} {groups : List (List Token)}
    (h : List.Forall₂ (fun field group => IsField (keyOf field) field.isOptional group)
      fields groups) :
    List.Forall₂ (fun field group =>
      IsField ((keyOf field).renameName renames false) field.isOptional group)
      fields (groups.map (renameTokens renames false)) :=
  List.forall₂_map_right_iff.2 (h.imp fun _ _ isField => isField.rename drops)

theorem keyless_renamed {renames : List Rename} {groups : List (List Token)}
    (h : ∀ group ∈ groups, IsKeyless group) :
    ∀ group ∈ groups.map (renameTokens renames false), IsKeyless group :=
  List.forall_mem_map.2 fun group hg => (h group hg).rename

theorem keysIn_of_hasInterface {cs : List Char} {ts : List Token} {groups : List (List Token)}
    (reads : bareTokens cs = some ts) (interface : HasInterface ts groups) :
    keysIn cs = some (groups.filterMap fieldKey?) := by
  rw [keysIn, reads, Option.map_some, interface.interfaceFields]

/-- A key that is followed twice comes back just if it is quoted or no rename concerns it. -/
theorem text_renameName_keyToken {own renames : List Rename}
    (drops : ∀ r ∈ renames, DropsSuffix r) (subset : own ⊆ renames) (key : String) :
    (((keyToken key).renameName own false).renameName renames false).text = key.toList ↔
      (isBareKey key.toList = true → ∀ r ∈ renames, r.old ≠ key) := by
  unfold keyToken
  split
  · rename_i bare
    rw [renameName_word_eq, renameName_word_eq]
    change (renamed renames (renamed own key)).toList = key.toList ↔ _
    rw [String.toList_inj, renamed_renamed_eq_self_iff drops subset]
    exact ⟨fun none _ => none, fun none => none bare⟩
  · rename_i quoted
    exact ⟨fun _ bare => absurd bare quoted, fun _ => rfl⟩

/-- What becomes of the key of a field where these renames are followed. -/
structure KeyFollows (renames : List Rename) (field : Field) (key : FieldKey) : Prop where
  isOptional : key.isOptional = field.isOptional
  text : key.text = field.key.toList ↔
    (isBareKey field.key.toList = true → ∀ rename ∈ renames, rename.old ≠ field.key)

variable {files : List TreeFile} {done later : List (String × List Char)} {path : String}
  {limit : Nat} {mode : EnumMode}

/-- A run of the default transforms keeps the fields of a generated interface in order, and which of
them can be missing. A key stays as it was written just if it is quoted or the run renames no enum
from it. -/
theorem keys_behind_run (hf : f ∈ ofModel dialect m) (words : f.HasWords) (oneLine : IsOneLine o)
    (body : f.body = .interface fields isOpen)
    (split : decoded files = done ++ (path, f.text o) :: later) :
    keysIn (f.text o) = some (fields.map fun field => ⟨field.key.toList, field.isOptional⟩) ∧
    ∃ r keys, (filesAfter (defaultTransforms limit mode) files)[done.length]? = some r ∧
      r.failed = false ∧ keysIn r.current = some keys ∧
      List.Forall₂
        (KeyFollows (transformAll (defaultTransforms limit mode) files).value.renames)
        fields keys := by
  obtain ⟨front, groups, rows, declares, areFields⟩ :=
    exists_declaresInterface hf words oneLine body
  constructor
  · rw [keysIn_of_hasInterface declares.reads (declares.ends.fields _),
      filterMap_fieldKey? areFields isKeyless_of_mem_furtherGroups]
    simp only [text_keyToken]
  obtain ⟨r, own, ts, result, notFailed, subset, reads, interface⟩ :=
    declares.exists_interface_after split
  have drops : ∀ rename ∈ (transformAll (defaultTransforms limit mode) files).value.renames,
      DropsSuffix rename := fun rename hr =>
    ((transformAll_visits _ files).safe rename hr).toDropsSuffix
  refine ⟨r, _, result, notFailed, keysIn_of_hasInterface reads interface, ?_⟩
  rw [List.map_append, List.map_append, filterMap_fieldKey?
    (areFields_renamed drops (areFields_renamed (fun _ hr => drops _ (subset hr)) areFields))
    (keyless_renamed (keyless_renamed isKeyless_of_mem_furtherGroups))]
  exact List.forall₂_map_right_iff.2 (List.forall₂_same.2 fun field _ =>
    ⟨rfl, text_renameName_keyToken drops subset field.key⟩)

/-! ### A property that is called like an enum -/

/-- A spec with an order that has a property called like listed statuses. -/
def statusOrders : Model where
  info := {}
  components := [("Order", .inline { types := [.object] }
      [("StatusEnum", .inline { types := [.string] } [] none none [] [] [])] none none [] [] []),
    ("StatusEnum", statusSchema [.string "active"])]
  definitions := []

def statusLayout : LayoutOptions :=
  ⟨"T", "1", true⟩

/-- The files that are generated for the spec. -/
def statusTree : List TreeFile :=
  (ofModel .openapi30 statusOrders).map
      (fun f => ⟨Generation.modelPath f.name, some (f.text statusLayout)⟩) ++
    [⟨"models/index.ts", some (indexText ["Order", "StatusEnum"])⟩]

theorem keys_behind_run_orders : ∃ f fields isOpen later,
    f ∈ ofModel .openapi30 statusOrders ∧ f.HasWords ∧ IsOneLine statusLayout ∧
    f.body = .interface fields isOpen ∧
    decoded statusTree = [] ++ (Generation.modelPath f.name, f.text statusLayout) :: later ∧
    keysIn (f.text statusLayout) =
      some (fields.map fun field => ⟨field.key.toList, field.isOptional⟩) ∧
    ∃ r keys, (filesAfter (defaultTransforms 5 .branded) statusTree)[0]? = some r ∧
      r.failed = false ∧ keysIn r.current = some keys ∧
      List.Forall₂
        (KeyFollows (transformAll (defaultTransforms 5 .branded) statusTree).value.renames)
        fields keys := by
  obtain ⟨f, more, fields, isOpen, files, body⟩ : ∃ f more fields isOpen,
      ofModel .openapi30 statusOrders = f :: more ∧ f.body = .interface fields isOpen :=
    ⟨_, _, _, _, rfl, rfl⟩
  have hf : f ∈ ofModel .openapi30 statusOrders := by
    rw [files]
    exact List.mem_cons_self
  have names : (ofModel .openapi30 statusOrders).map (fun f => f.declared ++ f.references) =
      [["Order"], ["StatusEnum"]] := by decide +kernel
  rw [files] at names
  have own : f.declared ++ f.references = ["Order"] := (List.cons.inj names).1
  have words : f.HasWords := by
    rw [HasWords, own]
    exact List.forall_mem_singleton.2 (Token.isName_of_chars rfl (by decide))
  have oneLine : IsOneLine statusLayout := by decide
  obtain ⟨later, split⟩ : ∃ later, decoded statusTree =
      [] ++ (Generation.modelPath f.name, f.text statusLayout) :: later := by
    rw [statusTree, files]
    exact ⟨_, rfl⟩
  exact ⟨f, fields, isOpen, later, hf, words, oneLine, body, split,
    keys_behind_run hf words oneLine body split⟩

/-- The key is followed like the name of the enum. -/
theorem key_follows_enum : ∃ f r, f ∈ ofModel .openapi30 statusOrders ∧
    (decoded statusTree)[0]? = some (Generation.modelPath f.name, f.text statusLayout) ∧
    keysIn (f.text statusLayout) = some [⟨"StatusEnum".toList, true⟩] ∧
    (filesAfter (defaultTransforms 5 .branded) statusTree)[0]? = some r ∧ r.failed = false ∧
    keysIn r.current = some [⟨"Status".toList, true⟩] := by
  have before : (ofModel .openapi30 statusOrders).map (fun f => keysIn (f.text statusLayout)) =
      [some [⟨"StatusEnum".toList, true⟩], some []] := by decide +kernel
  have after : (filesAfter (defaultTransforms 5 .branded) statusTree)[0]?.map
      (fun r => (r.failed, keysIn r.current)) = some (false, some [⟨"Status".toList, true⟩]) := by
    decide +kernel
  obtain ⟨f, more, files⟩ : ∃ f more, ofModel .openapi30 statusOrders = f :: more := ⟨_, _, rfl⟩
  obtain ⟨r, result, same⟩ := Option.map_eq_some_iff.1 after
  obtain ⟨notFailed, keys⟩ := Prod.mk.inj same
  have first : (decoded statusTree)[0]? =
      some (Generation.modelPath f.name, f.text statusLayout) := by
    rw [statusTree, files]
    rfl
  rw [files] at before
  refine ⟨f, r, ?_, first, (List.cons.inj before).1, result, notFailed, keys⟩
  rw [files]
  exact List.mem_cons_self

end OpenApiModels.ModelFile
