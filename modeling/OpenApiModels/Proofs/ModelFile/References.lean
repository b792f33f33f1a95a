import OpenApiModels.Proofs.ModelFile.Emitted

/-!
# References and the files they lead to

A reference is named by the last segment of its pointer as it is written. That is the name of the
schema it points to if nothing in it is escaped, and then the modules that a file imports are among
the files of the spec (`imports_emitted`). With escapes they need not be (`escaped_reference`).
-/

namespace OpenApiModels

open TypeScript

/-! ### References of a schema -/

mutual

/-- The pointers of the references in a schema. -/
def Schema.refs : Schema → List String
  | .ref path => [path]
  | .inline _ properties additional items allOf oneOf anyOf =>
    propertyRefs properties ++ additionalRefs additional ++ itemRefs items ++ partRefs allOf ++
      partRefs oneOf ++ partRefs anyOf

def Schema.partRefs : List Schema → List String
  | [] => []
  | s :: rest => s.refs ++ partRefs rest

def Schema.propertyRefs : List (String × Schema) → List String
  | [] => []
  | (_, s) :: rest => s.refs ++ propertyRefs rest

def Schema.additionalRefs : Option (Additional Schema) → List String
  | some (.schema s) => s.refs
  | some (.allowed _) | none => []

def Schema.itemRefs : Option Schema → List String
  | some s => s.refs
  | none => []

end

def Model.refs (m : Model) : List String :=
  m.schemas.flatMap fun s => s.2.refs

/-- The model that a reference is taken for. -/
def refType (path : String) : String :=
  typeName (refName path)

/-! ### Names in types -/

namespace TypeScript

theorem names_nullableType (dialect : Dialect) (k : Keywords) (base : TypeExpr) :
    (nullableType dialect k base).names = base.names := by
  unfold nullableType
  split
  · rw [TypeExpr.names]
  · rfl

theorem partNames_literals (values : List Json) :
    TypeExpr.partNames (values.map literalType) = [] := by
  induction values with
  | nil => rfl
  | cons v values ih =>
    have first : (literalType v).names = [] := by cases v <;> rfl
    rw [List.map_cons, TypeExpr.partNames, first, ih, List.append_nil]

/-- The names in the types of the subschemas of an inline schema. -/
def innerNames (fields : List (String × Bool × TypeExpr)) (additional item : Option TypeExpr)
    (allOf oneOf anyOf : List TypeExpr) : List String :=
  TypeExpr.fieldNames fields ++ additional.elim [] TypeExpr.names ++
    item.elim [] TypeExpr.names ++ TypeExpr.partNames allOf ++ TypeExpr.partNames oneOf ++
    TypeExpr.partNames anyOf

variable {k : Keywords} {fields : List (String × Bool × TypeExpr)}
  {additional item : Option TypeExpr} {allOf oneOf anyOf : List TypeExpr} {n : String}

theorem mem_innerNames : n ∈ innerNames fields additional item allOf oneOf anyOf ↔
    n ∈ TypeExpr.fieldNames fields ∨ n ∈ additional.elim [] TypeExpr.names ∨
      n ∈ item.elim [] TypeExpr.names ∨ n ∈ TypeExpr.partNames allOf ∨
      n ∈ TypeExpr.partNames oneOf ∨ n ∈ TypeExpr.partNames anyOf := by
  simp only [innerNames, List.mem_append, or_assoc]

theorem mem_names_getD {t : Option TypeExpr} (h : n ∈ (t.getD .unknown).names) :
    n ∈ t.elim [] TypeExpr.names := by
  cases t with
  | none => cases h
  | some t => exact h

theorem names_declaredType (h : n ∈ (declaredType k fields additional item).names) :
    n ∈ innerNames fields additional item allOf oneOf anyOf := by
  rw [mem_innerNames]
  unfold declaredType at h
  split at h
  · rw [TypeExpr.names] at h
    exact .inr (.inr (.inl (mem_names_getD h)))
  · split at h
    · rw [TypeExpr.names] at h
      exact .inr (.inl (mem_names_getD h))
    · rw [TypeExpr.names] at h
      exact .inl h
  · split at h
    · cases h
    · rw [TypeExpr.names] at h
      exact .inl h
  · rename_i scalar _ _ _
    cases scalar with
    | string =>
      rw [scalarType] at h
      split at h <;> cases h
    | _ => cases h

theorem names_inlineType {dialect : Dialect}
    (h : n ∈ (inlineType dialect k fields additional item allOf oneOf anyOf).names) :
    n ∈ innerNames fields additional item allOf oneOf anyOf := by
  unfold inlineType at h
  split at h
  · rename_i value _
    cases value <;> cases h
  · split at h
    · rw [TypeExpr.names] at h
      exact mem_innerNames.2 (.inr (.inr (.inr (.inl h))))
    split at h
    · rw [TypeExpr.names] at h
      exact mem_innerNames.2 (.inr (.inr (.inr (.inr (.inl h)))))
    split at h
    · rw [TypeExpr.names] at h
      exact mem_innerNames.2 (.inr (.inr (.inr (.inr (.inr h)))))
    · cases listed : enumType? k.enumValues with
      | none =>
        rw [listed] at h
        exact names_declaredType h
      | some t =>
        rw [listed] at h
        unfold enumType? at listed
        split at listed
        · cases listed
        · cases listed
          rw [Option.getD_some, TypeExpr.names, partNames_literals] at h
          cases h

theorem subset_append {a a' b b' : List String} (left : a ⊆ a') (right : b ⊆ b') :
    a ++ b ⊆ a' ++ b' :=
  List.append_subset.2 ⟨List.Subset.trans left (List.subset_append_left a' b'),
    List.Subset.trans right (List.subset_append_right a' b')⟩

mutual

/-- A type mentions only models that its schema refers to. -/
theorem names_typeOf (dialect : Dialect) :
    ∀ s : Schema, (typeOf dialect s).names ⊆ s.refs.map refType
  | .ref path => by
    rw [typeOf, TypeExpr.names, Schema.refs]
    exact fun _ h => h
  | .inline k properties additional items allOf oneOf anyOf => by
    rw [typeOf, names_nullableType, Schema.refs]
    simp only [List.map_append]
    intro n h
    simp only [List.mem_append]
    rcases mem_innerNames.1 (names_inlineType h) with h | h | h | h | h | h
    · exact .inl (.inl (.inl (.inl (.inl (fieldNames_fieldTypes dialect _ properties h)))))
    · exact .inl (.inl (.inl (.inl (.inr (names_additionalType dialect additional h)))))
    · exact .inl (.inl (.inl (.inr (names_itemType dialect items h))))
    · exact .inl (.inl (.inr (partNames_typesOf dialect allOf h)))
    · exact .inl (.inr (partNames_typesOf dialect oneOf h))
    · exact .inr (partNames_typesOf dialect anyOf h)

theorem partNames_typesOf (dialect : Dialect) : ∀ parts : List Schema,
    TypeExpr.partNames (typesOf dialect parts) ⊆ (Schema.partRefs parts).map refType
  | [] => fun _ h => h
  | s :: rest => by
    rw [typesOf, TypeExpr.partNames, Schema.partRefs, List.map_append]
    exact subset_append (names_typeOf dialect s) (partNames_typesOf dialect rest)

theorem fieldNames_fieldTypes (dialect : Dialect) (required : List String) :
    ∀ properties : List (String × Schema),
      TypeExpr.fieldNames (fieldTypes dialect required properties) ⊆
        (Schema.propertyRefs properties).map refType
  | [] => fun _ h => h
  | (name, s) :: rest => by
    rw [fieldTypes, TypeExpr.fieldNames, Schema.propertyRefs, List.map_append]
    exact subset_append (names_typeOf dialect s) (fieldNames_fieldTypes dialect required rest)

theorem names_additionalType (dialect : Dialect) : ∀ additional : Option (Additional Schema),
    (additionalType dialect additional).elim [] TypeExpr.names ⊆
      (Schema.additionalRefs additional).map refType
  | some (.schema s) => by
    rw [additionalType, Schema.additionalRefs]
    exact names_typeOf dialect s
  | some (.allowed _) => by
    rw [additionalType]
    exact fun _ h => nomatch h
  | none => by
    rw [additionalType]
    exact fun _ h => nomatch h

theorem names_itemType (dialect : Dialect) : ∀ items : Option Schema,
    (itemType dialect items).elim [] TypeExpr.names ⊆ (Schema.itemRefs items).map refType
  | some s => by
    rw [itemType, Schema.itemRefs]
    exact names_typeOf dialect s
  | none => by
    rw [itemType]
    exact fun _ h => nomatch h

end

end TypeScript

namespace ModelFile

/-! ### Imports -/

theorem names_fieldType (dialect : Dialect) (model name : String) (s : Schema) :
    (fieldType dialect model name s).names ⊆ s.refs.map refType := by
  cases s with
  | ref path => exact names_typeOf dialect (.ref path)
  | inline k properties additional items allOf oneOf anyOf =>
    simp only [fieldType]
    split
    · rw [names_nullableType, TypeExpr.names]
      exact List.nil_subset _
    · exact names_typeOf dialect _

theorem names_fields (dialect : Dialect) (model : String) (required : List String)
    (properties : List (String × Schema)) :
    ((properties.map (fieldOf dialect model required)).map (·.type)).flatMap TypeExpr.names ⊆
      (Schema.propertyRefs properties).map refType := by
  induction properties with
  | nil => exact List.nil_subset _
  | cons p rest ih =>
    obtain ⟨name, s⟩ := p
    rw [Schema.propertyRefs, List.map_append, List.map_cons, List.map_cons, List.flatMap_cons]
    exact subset_append (names_fieldType dialect model name s) ih

/-- A file refers only to models that its schema refers to. -/
theorem references_ofSchema (dialect : Dialect) (name : String) (s : Schema) :
    (ofSchema dialect name s).references ⊆ s.refs.map refType := by
  cases s with
  | ref path => simpa [ofSchema, references, Body.types] using names_typeOf dialect (.ref path)
  | inline k properties additional items allOf oneOf anyOf =>
    simp only [ofSchema, references]
    split
    · exact List.nil_subset _
    split
    · refine List.Subset.trans (names_fields dialect name k.required properties)
        (List.map_subset _ ?_)
      rw [Schema.refs]
      simp only [List.append_assoc]
      exact List.subset_append_left _ _
    · simpa [Body.types] using names_typeOf dialect
        (.inline k properties additional items allOf oneOf anyOf)

theorem mem_leaders {seen : List String} {schemas : List (String × Schema)} {s : String × Schema}
    (h : s ∈ leaders seen schemas) : ∃ name, typeName name = s.1 ∧ (name, s.2) ∈ schemas := by
  induction schemas generalizing seen with
  | nil => cases h
  | cons first rest ih =>
    obtain ⟨name, schema⟩ := first
    rw [leaders] at h
    split at h
    · obtain ⟨name, type, later⟩ := ih h
      exact ⟨name, type, List.mem_cons_of_mem _ later⟩
    · rcases List.mem_cons.1 h with rfl | h
      · exact ⟨name, rfl, List.mem_cons_self⟩
      · obtain ⟨name, type, later⟩ := ih h
        exact ⟨name, type, List.mem_cons_of_mem _ later⟩

/-- Every import comes from a reference in the spec. -/
theorem exists_ref_of_mem_imports {dialect : Dialect} {m : Model} {f : ModelFile}
    (hf : f ∈ ofModel dialect m) {n : String} (h : n ∈ f.imports) :
    ∃ path ∈ m.refs, refType path = n := by
  rw [ofModel_eq] at hf
  obtain ⟨s, hs, rfl⟩ := List.mem_map.1 hf
  obtain ⟨name, -, declared⟩ := mem_leaders hs
  obtain ⟨path, hpath, type⟩ :=
    List.mem_map.1 (references_ofSchema dialect s.1 s.2 (mem_imports.1 h).1)
  exact ⟨path, List.mem_flatMap.2 ⟨_, declared, hpath⟩, type⟩

end ModelFile

/-! ### Pointers -/

namespace Model

/-- How a name is written as a segment of a pointer: a tilde as `~0`, a slash as `~1`. -/
inductive Segment : List Char → List Char → Prop where
  | nil : Segment [] []
  | char (c : Char) {written name : List Char} (tilde : c ≠ '~') (slash : c ≠ '/') :
    Segment written name → Segment (c :: written) (c :: name)
  | tilde {written name : List Char} :
    Segment written name → Segment ('~' :: '0' :: written) ('~' :: name)
  | slash {written name : List Char} :
    Segment written name → Segment ('~' :: '1' :: written) ('/' :: name)

/-- A byte behind a percent sign, by two hexadecimal digits of either case. -/
def IsPercent (byte : UInt8) (written : List Char) : Prop :=
  ∃ high low, written = ['%', high, low] ∧ Text.hexValue? [high, low] = some byte.toNat

/-- How a text is written in a URI: some characters by the percent codes of their bytes. -/
inductive Encoded : List Char → List Char → Prop where
  | nil : Encoded [] []
  | char (c : Char) {written text : List Char} (percent : c ≠ '%') :
    Encoded written text → Encoded (c :: written) (c :: text)
  | bytes (c : Char) {codes : List (List Char)} {written text : List Char} :
    List.Forall₂ IsPercent (String.utf8EncodeChar c) codes → Encoded written text →
      Encoded (codes.flatten ++ written) (c :: text)

/-- The segment, possibly with escapes, writes the name. -/
def Writes (segment : List Char) (name : String) : Prop :=
  ∃ written, Encoded segment written ∧ Segment written name.toList

/-- The pointer leads to the schema that the spec declares under the name. -/
inductive PointsTo (m : Model) (path name : String) : Prop where
  | component (segment : List Char)
    (isPath : path.toList = "#/components/schemas".toList ++ '/' :: segment)
    (writes : Writes segment name) (declared : name ∈ m.components.map (·.1))
  | definition (segment : List Char)
    (isPath : path.toList = "#/definitions".toList ++ '/' :: segment)
    (writes : Writes segment name) (declared : name ∈ m.definitions.map (·.1))

/-- Nothing in the pointer is escaped. -/
def IsPlain (path : String) : Prop :=
  '~' ∉ path.toList ∧ '%' ∉ path.toList

theorem Encoded.eq {written text : List Char} (h : Encoded written text)
    (plain : '%' ∉ written) : text = written := by
  induction h with
  | nil => rfl
  | char c _ _ ih => rw [ih fun mem => plain (List.mem_cons_of_mem _ mem)]
  | @bytes c codes _ _ hcodes _ _ =>
    have length := String.length_utf8EncodeChar c
    have size := c.utf8Size_pos
    revert hcodes
    generalize String.utf8EncodeChar c = bytes at length
    rintro (_ | ⟨⟨high, low, rfl, -⟩, -⟩)
    · rw [List.length_nil] at length
      omega
    · exact absurd (by simp) plain

theorem Segment.eq {written name : List Char} (h : Segment written name)
    (plain : '~' ∉ written) : name = written ∧ '/' ∉ name := by
  induction h with
  | nil => exact ⟨rfl, List.not_mem_nil⟩
  | char c _ slash _ ih =>
    obtain ⟨same, unbroken⟩ := ih fun mem => plain (List.mem_cons_of_mem _ mem)
    exact ⟨by rw [same], fun mem => (List.mem_cons.1 mem).elim (Ne.symm slash) unbroken⟩
  | tilde => exact absurd List.mem_cons_self plain
  | slash => exact absurd List.mem_cons_self plain

theorem encoded_self {cs : List Char} (h : '%' ∉ cs) : Encoded cs cs := by
  induction cs with
  | nil => exact .nil
  | cons c cs ih =>
    obtain ⟨ne, rest⟩ := not_or.1 (mt List.mem_cons.2 h)
    exact .char c (Ne.symm ne) (ih rest)

theorem segment_self {cs : List Char} (tilde : '~' ∉ cs) (slash : '/' ∉ cs) : Segment cs cs := by
  induction cs with
  | nil => exact .nil
  | cons c cs ih =>
    obtain ⟨notTilde, tilde⟩ := not_or.1 (mt List.mem_cons.2 tilde)
    obtain ⟨notSlash, slash⟩ := not_or.1 (mt List.mem_cons.2 slash)
    exact .char c (Ne.symm notTilde) (Ne.symm notSlash) (ih tilde slash)

theorem writes_self {name : String} (percent : '%' ∉ name.toList) (tilde : '~' ∉ name.toList)
    (slash : '/' ∉ name.toList) : Writes name.toList name :=
  ⟨name.toList, encoded_self percent, segment_self tilde slash⟩

theorem refName_of_segment {path : String} {start segment : List Char}
    (h : path.toList = start ++ '/' :: segment) (unbroken : '/' ∉ segment) :
    refName path = String.ofList segment := by
  have keep : ∀ c ∈ segment.reverse, (c != '/') = true := by
    intro c hc
    rw [bne_iff_ne]
    rintro rfl
    exact unbroken (List.mem_reverse.1 hc)
  rw [refName, h, Text.afterLast, List.reverse_append, List.reverse_cons, List.append_assoc,
    List.takeWhile_append_of_pos keep]
  simp

/-- Without escapes a reference is named like the schema that it points to. -/
theorem PointsTo.refName {m : Model} {path name : String} (h : m.PointsTo path name)
    (plain : IsPlain path) : refName path = name := by
  have last : ∀ start segment, path.toList = start ++ '/' :: segment → Writes segment name →
      OpenApiModels.refName path = name := by
    rintro start segment isPath ⟨written, encoded, segments⟩
    have inside : ∀ c ∈ segment, c ∈ path.toList := fun c hc => by simp [isPath, hc]
    have same := encoded.eq fun mem => plain.2 (inside _ mem)
    subst same
    obtain ⟨same, unbroken⟩ := segments.eq fun mem => plain.1 (inside _ mem)
    rw [same] at unbroken
    rw [refName_of_segment isPath unbroken, ← same, String.ofList_toList]
  cases h with
  | component segment isPath writes _ => exact last _ segment isPath writes
  | definition segment isPath writes _ => exact last _ segment isPath writes

theorem PointsTo.mem_schemas {m : Model} {path name : String} (h : m.PointsTo path name) :
    ∃ s, (name, s) ∈ m.schemas := by
  cases h with
  | component _ _ _ declared =>
    obtain ⟨⟨_, s⟩, mem, rfl⟩ := List.mem_map.1 declared
    exact ⟨s, List.mem_append_left _ mem⟩
  | definition _ _ _ declared =>
    by_cases component : Keyed.hasKey name m.components = true
    · obtain ⟨⟨other, s⟩, mem, same⟩ := List.any_eq_true.1 component
      obtain rfl : other = name := by simpa using same
      exact ⟨s, List.mem_append_left _ mem⟩
    · obtain ⟨⟨_, s⟩, mem, rfl⟩ := List.mem_map.1 declared
      exact ⟨s, List.mem_append_right _ (List.mem_filter.2 ⟨mem, by simpa using component⟩)⟩

end Model

/-- Where every reference points to a schema of the spec and none is escaped, references are named
like the schemas they point to, and every module that a file imports is one of the files. -/
theorem Generation.imports_emitted (adapter : Adapter) (comments : Bool) (m : Model)
    (points : ∀ path ∈ m.refs, ∃ name, m.PointsTo path name)
    (plain : ∀ path ∈ m.refs, Model.IsPlain path) (w : Workspace) :
    (∀ path ∈ m.refs, ∀ name, m.PointsTo path name → refType path = typeName name) ∧
    ∃ files, ((render adapter (standard comments) m).outcome w).value = (.ok files, w) ∧
      ∀ f ∈ ModelFile.ofModel adapter.dialect m, ∀ n ∈ f.imports,
        ∃ file ∈ files, file.path = modelPath n := by
  refine ⟨fun path hpath name leads => by rw [refType, leads.refName (plain path hpath)],
    _, value_render adapter comments m w, fun f hf n hn => ?_⟩
  obtain ⟨path, hpath, rfl⟩ := ModelFile.exists_ref_of_mem_imports hf hn
  obtain ⟨name, leads⟩ := points path hpath
  obtain ⟨s, declared⟩ := leads.mem_schemas
  have emits := (ModelFile.mem_names_iff adapter.dialect m (typeName name)).2 ⟨_, declared, rfl⟩
  obtain ⟨g, hg, type⟩ := List.mem_map.1 emits
  refine ⟨fileOf (layoutOf m.info comments) g,
    List.mem_append_left _ (List.mem_map.2 ⟨g, hg, rfl⟩), ?_⟩
  rw [refType, leads.refName (plain path hpath), ← type]
  rfl

section Example

/-- A spec with a schema of strings and an object that refers to one. -/
def linked (name pointer : String) : Json :=
  .object [("openapi", .string "3.0.3"),
    ("info", .object [("title", .string "T"), ("version", .string "1")]),
    ("components", .object [("schemas", .object
      [(name, .object [("type", .string "string")]),
        ("C", .object [("type", .string "object"), ("properties", .object
          [("x", .object [("$ref", .string pointer)])])])])])]

theorem Generation.imports_emitted_blank :
    ∃ m, Model.ofJson? (linked "a b" "#/components/schemas/a b") = some m ∧
      (∀ path ∈ m.refs, ∀ name, m.PointsTo path name → refType path = typeName name) ∧
      ∃ files, ((render .openapi31 (standard true) m).outcome {}).value = (.ok files, {}) ∧
        ∀ f ∈ ModelFile.ofModel .openapi31 m, ∀ n ∈ f.imports,
          ∃ file ∈ files, file.path = modelPath n := by
  refine ⟨_, rfl, Generation.imports_emitted .openapi31 true _ ?_ ?_ {}⟩
  · intro path hpath
    obtain rfl := List.mem_singleton.1 hpath
    exact ⟨"a b", .component "a b".toList rfl
      (Model.writes_self (by decide) (by decide) (by decide)) (by decide)⟩
  · intro path hpath
    obtain rfl := List.mem_singleton.1 hpath
    exact ⟨by decide, by decide⟩

/-- The slash in the name of a schema is written as `~1` in a pointer and read as the digit. -/
theorem escaped_reference :
    ∃ m, Model.ofJson? (linked "a/b" "#/components/schemas/a~1b") = some m ∧
      (∀ path ∈ m.refs, ∃ name, m.PointsTo path name) ∧
      ¬ (∀ path ∈ m.refs, ∀ name, m.PointsTo path name → refType path = typeName name) ∧
      ¬ (∀ f ∈ ModelFile.ofModel .openapi30 m, ∀ n ∈ f.imports,
        ∃ file ∈ Generation.emitted .openapi30 true m, file.path = Generation.modelPath n) := by
  have leads (m : Model) (declared : "a/b" ∈ m.components.map (·.1)) :
      m.PointsTo "#/components/schemas/a~1b" "a/b" :=
    .component "a~1b".toList rfl ⟨"a~1b".toList, Model.encoded_self (by decide),
      .char 'a' (by decide) (by decide) (.slash (.char 'b' (by decide) (by decide) .nil))⟩ declared
  refine ⟨_, rfl, ?_, fun named => ?_, fun emits => ?_⟩
  · intro path hpath
    obtain rfl := List.mem_singleton.1 hpath
    exact ⟨"a/b", leads _ (by decide)⟩
  · exact absurd (named _ (List.mem_singleton.2 rfl) "a/b" (leads _ (by decide))) (by decide)
  · exact absurd emits (by decide +kernel)

end Example

end OpenApiModels
