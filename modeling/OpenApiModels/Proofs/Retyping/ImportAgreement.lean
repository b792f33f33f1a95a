import OpenApiModels.Proofs.Retyping.KeptNames
import OpenApiModels.Proofs.Retyping.Tracing
import OpenApiModels.Proofs.TypeScript.TopLevel

/-!
# Imports and what they import

A name that one file declares at its top level and another one imports is still declared there
under the name that the import has behind a run (`imports_agree`), if every rename of it in one of
the two files is followed in all files. A declaration that is exported by a statement of its own is
renamed in its file only (`import_left`).
-/

namespace OpenApiModels.Retyping

open Text TypeScript

/-! ### Names at the top level -/

/-- The words that declare a name, and those that may stand in front of an enum. -/
def reservedNames : List String :=
  declaringKeywords ++ ["export", "declare"]

variable {name : String} {is is' : List Item} {depth : Nat}

/-- An import line declares nothing. -/
theorem topNames_importTokens (path : String) (depth : Nat) (is : List Item) :
    topNames depth (tokenItems (importTokens [] path) ++ is) = topNames depth is := by
  cases depth <;> rfl

theorem ItemEdit.mem_topNames {path : String} (edit : ItemEdit path is is')
    (h : name ∈ topNames depth is) : name ∈ topNames depth is' := by
  cases edit with
  | near near => rwa [topNames_near near]
  | @between a b ts p before after parses apart =>
    subst before after
    have noKeyword (t : Token) (last : a.getLast? = some (.token t))
        (keyword : t.isDeclaringKeyword = true) : False := by
      have word := (Token.isDeclaringKeyword_iff.1 keyword).1
      obtain ⟨u, lastToken, rfl⟩ := parses.getLast? last
      rcases apart u lastToken with literal | ⟨mark, -⟩
      · cases literal.symm.trans word
      · cases mark.symm.trans word
    have behind (depth : Nat) (mem : name ∈ topNames depth b) : ∃ n, name = n ∧
        n ∈ topNames depth (tokenItems (importTokens [] path) ++ b) :=
      ⟨name, rfl, by rwa [topNames_importTokens path depth b]⟩
    obtain ⟨_, rfl, mem⟩ := exists_mem_topNames_behind rfl
      (fun t last keyword => (noKeyword t last keyword).elim) behind h
    exact mem
  | @inside a b other values values' before after =>
    subst before after
    have behind (depth : Nat) (mem : name ∈ topNames depth (.enum other values :: b)) :
        ∃ n, name = n ∧ n ∈ topNames depth (.enum other values' :: b) := ⟨name, rfl, mem⟩
    obtain ⟨_, rfl, mem⟩ := exists_mem_topNames_behind rfl
      (fun _ _ _ here => (List.not_mem_nil here).elim) behind h
    exact mem

/-! ### Declarations that are replaced -/

/-- Braces aside, tokens in front of items take away no name. -/
theorem mem_topNames_behind {ts : List Token} (noBrace : ∀ t ∈ ts, ∀ d, bracesBehind d t = d)
    (h : name ∈ topNames depth is) : name ∈ topNames depth (tokenItems ts ++ is) := by
  induction ts with
  | nil => exact h
  | cons t ts ih =>
    have inner := ih fun u hu => noBrace u (List.mem_cons_of_mem t hu)
    rw [tokenItems_cons, List.cons_append, topNames,
      show bracesBehind depth t.bare = depth from noBrace t List.mem_cons_self depth]
    exact List.mem_append_right _ inner

theorem bracesBehind_typeTokens (gap : List Char) (exported : Bool) (name : String)
    (type : NewType) : ∀ t ∈ typeTokens gap exported name type, ∀ d, bracesBehind d t = d := by
  have marks (g : List Char) : ∀ c ∈ ['=', '|', '<', ',', '>', ';'], ∀ d,
      bracesBehind d (.mark g c) = d := by
    simp only [List.forall_mem_cons]
    exact ⟨fun _ => rfl, fun _ => rfl, fun _ => rfl, fun _ => rfl, fun _ => rfl, fun _ => rfl,
      fun c hc => absurd hc List.not_mem_nil⟩
  have each : EachToken (fun t => ∀ d, bracesBehind d t = d) gap name :=
    ⟨fun _ _ _ _ _ => rfl, fun _ _ _ _ _ => rfl, fun _ => rfl, fun g _ => marks g, fun _ _ => rfl⟩
  exact each.of_mem_typeTokens exported type

/-- A type is declared where it stands outside of braces. -/
theorem mem_topNames_typeTokens (gap : List Char) (exported : Bool) (type : NewType)
    (plain : name ∉ declaringKeywords) (is : List Item) :
    name ∈ topNames 0 (tokenItems (typeTokens gap exported name type) ++ is) := by
  have own : (Token.word [' '] name).bare.name = name := String.ofList_toList
  have notKeyword : (Token.word [' '] name).bare.isDeclaringKeyword = false := by
    rw [Bool.eq_false_iff]
    intro keyword
    exact plain (own ▸ (Token.isDeclaringKeyword_iff.1 keyword).2)
  have declares (gap : List Char) (is : List Item) : name ∈ topNames 0
      (.token (Token.word gap "type").bare :: .token (Token.word [' '] name).bare :: is) := by
    have keyword : (Token.word gap "type").bare.isDeclaringKeyword = true := rfl
    rw [topNames, keyword, if_pos ⟨rfl, rfl⟩, nameNext, notKeyword, own, if_pos ⟨rfl, rfl⟩]
    exact List.mem_append_left _ (List.mem_singleton_self name)
  cases exported with
  | false => exact declares gap _
  | true =>
    have behind : bracesBehind 0 (Token.word gap "export").bare = 0 := rfl
    simp only [typeTokens, if_true, List.cons_append, List.nil_append, tokenItems_cons]
    rw [topNames, behind]
    exact List.mem_append_right _ (declares [' '] _)

theorem name_mem_reservedNames {t : Token} (h : t.isModifier = true) : t.name ∈ reservedNames := by
  simp only [Token.isModifier, Bool.or_eq_true, Token.isWord_iff] at h
  rcases h with (⟨-, text⟩ | ⟨-, text⟩) | ⟨-, text⟩ <;>
  · rw [Token.name, text]
    decide

section Modifiers

variable {ms : List Token} {other : String} {values : List String}

theorem not_mem_nameNext_modifiers (plain : name ∉ reservedNames)
    (modifiers : ∀ m ∈ ms, m.isModifier = true) :
    name ∉ nameNext (tokenItems ms ++ .enum other values :: is) := by
  intro h
  cases ms with
  | nil => cases h
  | cons m ms =>
    rw [tokenItems_cons, List.cons_append, nameNext] at h
    split at h
    · rw [List.mem_singleton.1 h] at plain
      exact plain (name_mem_reservedNames (modifiers m List.mem_cons_self))
    · cases h

/-- What stands in front of an enum and its keyword declare no other name. -/
theorem topNames_modifiers (plain : name ∉ reservedNames)
    (modifiers : ∀ m ∈ ms, m.isModifier = true)
    (h : name ∈ topNames depth (tokenItems ms ++ .enum other values :: is)) :
    (depth = 0 ∧ other = name) ∨ name ∈ topNames depth is := by
  induction ms with
  | nil =>
    rw [tokenItems_nil, List.nil_append, topNames, List.mem_append] at h
    rcases h with here | there
    · split at here
      · rename_i top
        exact .inl ⟨top.1, (List.mem_singleton.1 here).symm⟩
      · cases here
    · exact .inr there
  | cons m ms ih =>
    have later : ∀ u ∈ ms, u.isModifier = true := fun u hu =>
      modifiers u (List.mem_cons_of_mem m hu)
    have word : m.bare.kind = .word :=
      (EnumTokens.opener_of_isModifier (modifiers m List.mem_cons_self)).1
    rw [tokenItems_cons, List.cons_append, topNames, bracesBehind_of_word word,
      List.mem_append] at h
    rcases h with here | there
    · split at here
      · exact absurd here (not_mem_nameNext_modifiers plain later)
      · cases here
    · exact ih later there

end Modifiers

/-- The name of a declaration, or one under which it is retyped. -/
def NameIn (choose : Choice) (pieces : Pieces) (name name' : String) : Prop :=
  name' = name ∨ ∃ p ∈ pieces, p.2.decl.name = name ∧ ∃ type, choose p.2.decl = some (name', type)

/-- A name at the top level is still declared there, under its own name or under the one that it is
retyped under. -/
theorem exists_mem_topNames_retypedItems {choose : Choice} (plain : name ∉ reservedNames)
    {pieces : Pieces} {rest : List Token}
    (free : ∀ name', NameIn choose pieces name name' → name' ∉ declaringKeywords)
    (h : name ∈ topNames depth (retypedItems (fun _ => none) pieces rest)) :
    ∃ name', NameIn choose pieces name name' ∧
      name' ∈ topNames depth (retypedItems choose pieces rest) := by
  induction pieces generalizing depth with
  | nil => exact ⟨name, .inl rfl, h⟩
  | cons p pieces ih =>
    obtain ⟨lead, e⟩ := p
    have more {name' : String} (inside : NameIn choose pieces name name') :
        NameIn choose ((lead, e) :: pieces) name name' := by
      rcases inside with same | ⟨p, hp, found⟩
      · exact .inl same
      · exact .inr ⟨p, List.mem_cons_of_mem _ hp, found⟩
    have items (more : List Item) : declItems e ++ more =
        tokenItems e.modifiers ++ .enum e.decl.name e.decl.strings :: more :=
      List.append_assoc _ _ _
    have noBrace : ∀ m ∈ e.modifiers, ∀ d, bracesBehind d m = d := fun m hm d =>
      bracesBehind_of_word (EnumTokens.opener_of_isModifier (e.isModifier_of_mem m hm)).1 d
    rw [retypedItems_cons] at h ⊢
    rw [show Choice.items (fun _ => none) e = declItems e from rfl, items] at h
    refine exists_mem_topNames_behind (.inl rfl) (fun _ _ _ next => ?_) (fun depth mem => ?_) h
    · exact absurd next (not_mem_nameNext_modifiers plain e.isModifier_of_mem)
    · have split := topNames_modifiers plain e.isModifier_of_mem mem
      cases chosen : choose e.decl with
      | none =>
        rw [show choose.items e = declItems e by rw [Choice.items, chosen], items]
        rcases split with ⟨rfl, rfl⟩ | there
        · refine ⟨_, .inl rfl, mem_topNames_behind noBrace (List.mem_append_left _ ?_)⟩
          rw [if_pos ⟨rfl, free _ (.inl rfl)⟩]
          exact List.mem_singleton_self _
        · obtain ⟨name', inside, mem'⟩ := ih (fun n inside => free n (more inside)) there
          exact ⟨name', more inside, mem_topNames_behind noBrace (List.mem_append_right _ mem')⟩
      | some new =>
        obtain ⟨name', type⟩ := new
        rw [show choose.items e = tokenItems (typeTokens e.first.gap e.decl.exported name' type) by
          rw [Choice.items, chosen]]
        rcases split with ⟨rfl, own⟩ | there
        · have retyped : NameIn choose ((lead, e) :: pieces) name name' :=
            .inr ⟨_, List.mem_cons_self, own, type, chosen⟩
          exact ⟨name', retyped, mem_topNames_typeTokens _ _ _ (free name' retyped) _⟩
        · obtain ⟨name'', inside, mem'⟩ := ih (fun n inside => free n (more inside)) there
          exact ⟨name'', more inside, mem_topNames_behind (bracesBehind_typeTokens _ _ _ _) mem'⟩

/-! ### One pass -/

variable {transform : Transform} {file : FileContext} {cs : List Char} {r : Retyped}

/-- A name is declared at the top level of a text. -/
def DeclaredAtTop (name : String) (cs : List Char) : Prop :=
  ∃ names, declaredNames cs = .ok names ∧ name ∈ names

theorem declaredAtTop_iff : DeclaredAtTop name cs ↔
    ∃ s, Source.ofText? cs = .ok s ∧ name ∈ declaredFrom 0 s.tokens := by
  unfold DeclaredAtTop declaredNames
  cases Source.ofText? cs with
  | error e => simp [Except.map]
  | ok s => simp [Except.map]

theorem Cut.rename_mem {cut : Cut cs} {choose : Choice} {p : List Token × EnumTokens}
    (hp : p ∈ cut.pieces) {name : String} {type : NewType}
    (chosen : choose p.2.decl = some (name, type)) (differ : name ≠ p.2.decl.name) :
    ⟨p.2.decl.name, name⟩ ∈ cut.renames choose := by
  have planned : choose.candidate? p.2.decl =
      some (candidate p.2.decl name (typeText p.2.decl.exported name type) type.isBranded) := by
    rw [Choice.candidate?, chosen]
    rfl
  refine List.mem_filterMap.2 ⟨_, List.mem_reverse.2 (List.mem_filterMap.2 ⟨p, hp, planned⟩), ?_⟩
  rw [candidate, if_neg differ]

/-- A name that is retyped differs from its own where a rename of it is followed. -/
theorem Cut.renamed_of_nameIn {cut : Cut cs} {choose : Choice} (sound : choose.Sound)
    {name' : String} (h : NameIn choose cut.pieces name name') :
    name' = name ∨ renamed (cut.renames choose) name = name' := by
  rcases h with same | ⟨p, hp, rfl, type, chosen⟩
  · exact .inl same
  by_cases differ : name' = p.2.decl.name
  · exact .inl differ
  have mem := cut.rename_mem hp chosen differ
  have drops : ∀ r ∈ cut.renames choose, DropsSuffix r := fun _ => cut.dropsSuffix_of_mem sound
  have new : name' = baseName p.2.decl.name := (drops _ mem).new
  rcases renamed_of_dropsSuffix drops p.2.decl.name with same | base
  · exact absurd rfl ((renamed_eq_self_iff drops).1 same _ mem)
  · exact .inr (base.trans new.symm)

theorem PassItems.mem_topNames {cut : Cut cs} (pass : PassItems transform file cut r)
    (plain : name ∉ reservedNames)
    (plain' : renamed (transform.renamesIn file cs) name ∉ reservedNames)
    (once : renamed (transform.renamesIn file cs) (renamed (transform.renamesIn file cs) name) =
      renamed (transform.renamesIn file cs) name)
    (h : name ∈ topNames 0 (retypedItems (fun _ => none) cut.pieces cut.rest)) :
    renamed (transform.renamesIn file cs) name ∈ topNames 0 pass.items := by
  have sound : (transform.choose cut.source.words file).Sound := transform.sound_choose
  have drops : ∀ r ∈ transform.renamesIn file cs, DropsSuffix r := by
    rw [cut.renamesIn_eq]
    exact fun _ => cut.dropsSuffix_of_mem sound
  have keyword {n : String} (h : n ∉ reservedNames) : n ∉ declaringKeywords := fun mem =>
    h (List.mem_append_left _ mem)
  have names {n : String}
      (inside : NameIn (transform.choose cut.source.words file) cut.pieces name n) :
      n = name ∨ renamed (transform.renamesIn file cs) name = n := by
    rw [cut.renamesIn_eq]
    exact Cut.renamed_of_nameIn sound inside
  have free (n : String)
      (inside : NameIn (transform.choose cut.source.words file) cut.pieces name n) :
      n ∉ declaringKeywords := by
    rcases names inside with rfl | rfl
    · exact keyword plain
    · exact keyword plain'
  obtain ⟨n, inside, mem⟩ := exists_mem_topNames_retypedItems plain free h
  have same : renamed (transform.renamesIn file cs) n =
      renamed (transform.renamesIn file cs) name := by
    rcases names inside with rfl | rfl
    · rfl
    · exact once
  have keywords : ∀ k ∈ declaringKeywords, renamed (transform.renamesIn file cs) k = k :=
    fun k hk => renamed_of_baseName_eq drops (by revert k; decide)
  have after := mem_topNames_renameItems keywords (same ▸ keyword plain') mem false
  rw [same] at after
  have isAfter : cut.itemsAfter (transform.choose cut.source.words file) =
      renameItems (transform.renamesIn file cs) false
        (retypedItems (transform.choose cut.source.words file) cut.pieces cut.rest) := by
    rw [cut.renamesIn_eq]
    rfl
  rw [← isAfter] at after
  rcases pass.edit with same | edit
  · rwa [same]
  · exact edit.mem_topNames after

/-- A pass leaves names at the top level, under new names where it follows renames. -/
theorem DeclaredAtTop.apply (h : DeclaredAtTop name cs)
    (apply : (transform.apply file cs).value = .ok (some r)) (placed : WellPlaced file.path r.text)
    (plain : name ∉ reservedNames)
    (plain' : renamed (transform.renamesIn file cs) name ∉ reservedNames)
    (once : renamed (transform.renamesIn file cs) (renamed (transform.renamesIn file cs) name) =
      renamed (transform.renamesIn file cs) name) :
    DeclaredAtTop (renamed (transform.renamesIn file cs) name) r.text := by
  obtain ⟨cut, ⟨pass⟩⟩ := exists_passItems apply placed
  obtain ⟨s, read, mem⟩ := declaredAtTop_iff.1 h
  obtain rfl : cut.source = s := Except.ok.inj (cut.read.symm.trans read)
  rw [cut.parses_source.declaredFrom_eq] at mem
  refine declaredAtTop_iff.2 ⟨pass.source, pass.read, ?_⟩
  rw [pass.parses.declaredFrom_eq]
  exact pass.mem_topNames plain plain' once mem

/-! ### Imports -/

/-- The tokens of an import of one name, up to that name. -/
def importFront (typed : Bool) (name : String) : List Token :=
  .word [] "import" :: ((if typed then [.word [] "type"] else []) ++
    [.mark [] '\x7b', .word [] name])

/-- The tokens of an import of one name, up to the closing brace. -/
def importHead (typed : Bool) (name : String) : List Token :=
  importFront typed name ++ [.mark [] '\x7d']

theorem kind_of_mem_importFront {typed : Bool} {t : Token} (h : t ∈ importFront typed name) :
    t.kind = .word ∨ t = .mark [] '\x7b' := by
  cases typed <;>
    simp only [importFront, if_true, if_false, Bool.false_eq_true, List.cons_append,
      List.nil_append, List.mem_cons, List.not_mem_nil, or_false] at h
  · rcases h with rfl | rfl | rfl
    · exact .inl rfl
    · exact .inr rfl
    · exact .inl rfl
  · rcases h with rfl | rfl | rfl | rfl
    · exact .inl rfl
    · exact .inl rfl
    · exact .inr rfl
    · exact .inl rfl

/-- A name is imported outside of enum declarations. -/
def ImportedIn (typed : Bool) (name : String) (cs : List Char) : Prop :=
  ∃ s is, Source.ofText? cs = .ok s ∧ Parses false s.tokens is ∧
    tokenItems (importHead typed name) <:+: is

/-- No import line stands behind a brace that is opened. -/
def OutsideBraces (path : String) (cs : List Char) : Prop :=
  ∀ s, Source.ofText? cs = .ok s →
    ¬ (Token.mark [] '\x7b' :: importTokens [] path).map Token.bare <:+: s.tokens.map Token.bare

instance (path : String) (cs : List Char) : Decidable (OutsideBraces path cs) :=
  decidable_of_iff (∀ s ∈ (Source.ofText? cs).toOption,
      ¬ (Token.mark [] '\x7b' :: importTokens [] path).map Token.bare <:+: s.tokens.map Token.bare)
    (forall_congr' fun _ => imp_congr_left mem_toOption)

theorem imports_renameItems {renames : List Rename} (drops : ∀ r ∈ renames, DropsSuffix r)
    {typed : Bool} (h : tokenItems (importHead typed name) <:+: is) (afterPoint : Bool) :
    tokenItems (importHead typed (renamed renames name)) <:+:
      renameItems renames afterPoint is := by
  have importKept : renamed renames "import" = "import" := renamed_of_baseName_eq drops (by decide)
  have typeKept : renamed renames "type" = "type" := renamed_of_baseName_eq drops (by decide)
  have own : (Token.word [] name).bare.name = name := String.ofList_toList
  have named : (Token.word [] name).bare.renameName renames false =
      (Token.word [] (renamed renames name)).bare := by
    rw [Token.renameName, if_pos ⟨rfl, rfl⟩, own]
    rfl
  obtain ⟨a, b, rfl⟩ := h
  rw [List.append_assoc]
  obtain ⟨p, split⟩ :=
    renameItems_append renames afterPoint a (tokenItems (importHead typed name) ++ b)
  have head : renameItems renames p (tokenItems (importHead typed name) ++ b) =
      tokenItems (importHead typed (renamed renames name)) ++ renameItems renames false b := by
    cases typed <;>
      simp only [importHead, importFront, if_true, if_false, Bool.false_eq_true, List.cons_append,
        List.nil_append, tokenItems_cons, tokenItems_nil, renameItems, renameName_word importKept,
        renameName_word typeKept]
    · exact congrArg _ (congrArg _ (congrArg₂ _ (congrArg _ named) rfl))
    · exact congrArg _ (congrArg _ (congrArg _ (congrArg₂ _ (congrArg _ named) rfl)))
  rw [split, head]
  exact ⟨_, _, List.append_assoc _ _ _⟩

/-- A pass leaves imports, under new names where it follows renames. -/
theorem ImportedIn.apply {typed : Bool} (h : ImportedIn typed name cs)
    (apply : (transform.apply file cs).value = .ok (some r)) (placed : WellPlaced file.path r.text)
    (outside : OutsideBraces file.path r.text) :
    ImportedIn typed (renamed (transform.renamesIn file cs) name) r.text := by
  obtain ⟨cut, ⟨pass⟩⟩ := exists_passItems apply placed
  obtain ⟨s, is, read, parses, imports⟩ := h
  obtain rfl : cut.source = s := Except.ok.inj (cut.read.symm.trans read)
  obtain rfl := parses.unique cut.parses_source
  refine ⟨pass.source, pass.items, pass.read, pass.parses, ?_⟩
  have drops : ∀ r ∈ transform.renamesIn file cs, DropsSuffix r := by
    rw [cut.renamesIn_eq]
    exact fun _ => cut.dropsSuffix_of_mem transform.sound_choose
  have retyped : tokenItems (importHead typed name) <:+:
      retypedItems (transform.choose cut.source.words file) cut.pieces cut.rest := by
    exact infix_retypedItems (by decide) imports
  have after := imports_renameItems drops retyped false
  rw [cut.renamesIn_eq] at after ⊢
  rcases pass.edit with same | edit
  · rwa [same]
  refine edit.infix (fun t ht literal => ?_) (fun d t e split more => ?_) after
  · rcases List.mem_append.1 ht with front | last
    · rcases kind_of_mem_importFront front with word | rfl
      · cases word.symm.trans literal
      · cases literal
    · rw [List.mem_singleton.1 last] at literal
      cases literal
  · obtain ⟨e, last, rfl⟩ := (List.eq_nil_or_concat e).resolve_left more
    rw [List.concat_eq_append, ← List.cons_append, ← List.append_assoc] at split
    have front := (List.append_inj' split rfl).1
    rcases kind_of_mem_importFront (front ▸ List.mem_append_right d List.mem_cons_self) with
      word | rfl
    · exact .inl word
    · refine .inr fun ⟨a, b, tiles⟩ => outside _ pass.read ?_
      have parses := pass.parses
      rw [← tiles, List.append_assoc] at parses
      exact parses.infix_of_tokenItems

/-! ### All passes -/

/-- The renames that the transforms follow in a file, one transform after the other. -/
def renamesOver (file : FileContext) : List Transform → List Char → List Rename
  | [], _ => []
  | t :: ts, cs =>
    match (t.apply file cs).value with
    | .ok none => renamesOver file ts cs
    | .ok (some r) => t.renamesIn file cs ++ renamesOver file ts r.text
    | .error _ => []

/-- Every text that the transforms make of a file, one after the other, has the property. -/
def EachText (P : List Char → Prop) (file : FileContext) : List Transform → List Char → Prop
  | [], _ => True
  | t :: ts, cs =>
    match (t.apply file cs).value with
    | .ok none => EachText P file ts cs
    | .ok (some r) => P r.text ∧ EachText P file ts r.text
    | .error _ => True

variable {transforms : List Transform}

theorem PlacesWell.eachText (placed : PlacesWell transforms file cs) :
    EachText (WellPlaced file.path) file transforms cs := by
  induction transforms generalizing cs with
  | nil => trivial
  | cons t ts ih =>
    unfold EachText
    split
    · rename_i apply
      exact ih (placed.same apply)
    · rename_i apply
      obtain ⟨here, later⟩ := placed.retyped apply
      exact ⟨here, ih later⟩
    · trivial

theorem EachText.and {P Q : List Char → Prop} (h : EachText P file transforms cs)
    (h' : EachText Q file transforms cs) :
    EachText (fun text => P text ∧ Q text) file transforms cs := by
  induction transforms generalizing cs with
  | nil => trivial
  | cons t ts ih =>
    unfold EachText at h h' ⊢
    split at h
    · rename_i apply
      rw [apply] at h'
      exact ih h h'
    · rename_i apply
      rw [apply] at h'
      exact ⟨⟨h.1, h'.1⟩, ih h.2 h'.2⟩
    · trivial

instance EachText.decidable (P : List Char → Prop) [DecidablePred P] (file : FileContext) :
    (transforms : List Transform) → (cs : List Char) → Decidable (EachText P file transforms cs)
  | [], _ => isTrue trivial
  | t :: ts, cs =>
    match apply : (t.apply file cs).value with
    | .ok none =>
      have := EachText.decidable P file ts cs
      decidable_of_iff (EachText P file ts cs) (by rw [EachText, apply])
    | .ok (some r) =>
      have := EachText.decidable P file ts r.text
      decidable_of_iff (P r.text ∧ EachText P file ts r.text) (by rw [EachText, apply])
    | .error _ => isTrue (by rw [EachText, apply]; trivial)

/-- What the renames of a file have to do with those of all files, as far as a name goes: a rename
of it is one that is followed in all files, and none goes on from its base name. -/
structure FollowsAlike (all renames : List Rename) (name : String) : Prop where
  followed : ∀ r ∈ renames, r.old = name → r ∈ all
  once : ∀ r ∈ renames, r.old ≠ baseName name

theorem FollowsAlike.of_subset {all renames fewer : List Rename}
    (h : FollowsAlike all renames name) (subset : fewer ⊆ renames) :
    FollowsAlike all fewer name :=
  ⟨fun r hr => h.followed r (subset hr), fun r hr => h.once r (subset hr)⟩

theorem FollowsAlike.step {all renames : List Rename} (h : FollowsAlike all renames name)
    (drops : ∀ r ∈ renames, DropsSuffix r) (dropsAll : ∀ r ∈ all, DropsSuffix r) {n : String}
    (isName : n = name ∨ n = renamed all name) :
    (renamed renames n = name ∨ renamed renames n = renamed all name) ∧
      renamed renames (renamed renames n) = renamed renames n := by
  have fixed : renamed renames (baseName name) = baseName name :=
    (renamed_eq_self_iff drops).2 h.once
  have own : (renamed renames name = name ∨ renamed renames name = renamed all name) ∧
      renamed renames (renamed renames name) = renamed renames name := by
    rcases renamed_eq_or renames name with same | ⟨r, hr, old, new⟩
    · rw [same]
      exact ⟨.inl rfl, same⟩
    · have base : renamed renames name = baseName name := by rw [new, (drops r hr).new, old]
      have followed : renamed all name ≠ name := fun same =>
        (renamed_eq_self_iff dropsAll).1 same r (h.followed r hr old) old
      have baseAll := (renamed_of_dropsSuffix dropsAll name).resolve_left followed
      rw [base, baseAll]
      exact ⟨.inr rfl, fixed⟩
  rcases isName with rfl | rfl
  · exact own
  rcases renamed_of_dropsSuffix dropsAll name with same | base
  · rw [same]
    rw [same] at own
    exact own
  · rw [base, fixed]
    exact ⟨.inr rfl, fixed⟩

theorem Passes.dropsSuffix {cs' : List Char} {renames : List Rename}
    (passes : Passes file transforms cs cs' renames) :
    ∀ r ∈ renamesOver file transforms cs, DropsSuffix r := by
  induction passes with
  | nil => exact fun _ none => nomatch none
  | same apply _ ih =>
    rw [renamesOver, apply]
    exact ih
  | @retyped t ts cs cs' renames r apply _ ih =>
    rw [renamesOver, apply]
    intro rename mem
    rcases List.mem_append.1 mem with here | later
    · obtain ⟨cut⟩ := exists_cut apply
      rw [cut.renamesIn_eq] at here
      exact cut.dropsSuffix_of_mem t.sound_choose here
    · exact ih rename later

/-- What every pass keeps of a name, under a new name where it follows a rename, all passes keep. -/
theorem Passes.keep {P : String → List Char → Prop} {Q : List Char → Prop} {all : List Rename}
    {cs' : List Char} {renames : List Rename} {n : String}
    (step : ∀ {t : Transform} {cs : List Char} {r : Retyped} {n : String}, P n cs →
      (t.apply file cs).value = .ok (some r) → Q r.text → (n = name ∨ n = renamed all name) →
      (renamed (t.renamesIn file cs) n = name ∨
        renamed (t.renamesIn file cs) n = renamed all name) →
      renamed (t.renamesIn file cs) (renamed (t.renamesIn file cs) n) =
        renamed (t.renamesIn file cs) n → P (renamed (t.renamesIn file cs) n) r.text)
    (dropsAll : ∀ r ∈ all, DropsSuffix r) (passes : Passes file transforms cs cs' renames)
    (alike : FollowsAlike all (renamesOver file transforms cs) name)
    (each : EachText Q file transforms cs) (isName : n = name ∨ n = renamed all name)
    (h : P n cs) : ∃ n', (n' = name ∨ n' = renamed all name) ∧ P n' cs' := by
  have drops := passes.dropsSuffix
  induction passes generalizing n with
  | nil => exact ⟨n, isName, h⟩
  | same apply _ ih =>
    rw [renamesOver, apply] at alike drops
    rw [EachText, apply] at each
    exact ih alike each isName h drops
  | @retyped t ts cs cs' renames r apply _ ih =>
    rw [renamesOver, apply] at alike drops
    rw [EachText, apply] at each
    have here := alike.of_subset (List.subset_append_left _ _)
    have later := alike.of_subset (List.subset_append_right _ _)
    obtain ⟨isName', fixed⟩ :=
      here.step (fun r hr => drops r (List.mem_append_left _ hr)) dropsAll isName
    exact ih later each.2 isName' (step h apply each.1 isName isName' fixed)
      fun r hr => drops r (List.mem_append_right _ hr)

/-! ### The renames of all files -/

theorem DeclaredAtTop.followed {renames : List Rename} {f f' : FileState}
    (h : DeclaredAtTop name f.current) (followed : Followed renames f f')
    (found : f'.failed = false) (drops : ∀ r ∈ renames, DropsSuffix r)
    (plain : renamed renames name ∉ declaringKeywords) :
    DeclaredAtTop (renamed renames name) f'.current := by
  obtain ⟨s, read, mem⟩ := declaredAtTop_iff.1 h
  obtain ⟨s', read', same⟩ := followed.ofText? found drops read
  have keywords : ∀ k ∈ declaringKeywords, renamed renames k = k :=
    fun k hk => renamed_of_baseName_eq drops (by revert k; decide)
  refine declaredAtTop_iff.2 ⟨s', read', ?_⟩
  rw [declaredFrom_congr same]
  exact mem_declaredFrom_renameTokens keywords plain mem false

theorem ImportedIn.followed {renames : List Rename} {typed : Bool} {f f' : FileState}
    (h : ImportedIn typed name f.current) (followed : Followed renames f f')
    (found : f'.failed = false) (safe : ∀ r ∈ renames, SafeRename r) :
    ImportedIn typed (renamed renames name) f'.current := by
  have drops : ∀ r ∈ renames, DropsSuffix r := fun r hr => (safe r hr).toDropsSuffix
  obtain ⟨s, is, read, parses, imports⟩ := h
  obtain ⟨s', read', same⟩ := followed.ofText? found drops read
  exact ⟨s', _, read', (parses.rename (keepsEnum safe)).of_bare_eq same.symm,
    imports_renameItems drops imports false⟩

theorem passes_at {files : List TreeFile} {done later : List (String × List Char)} {path : String}
    {stored : List Char} (split : decoded files = done ++ (path, stored) :: later) {f : FileState}
    (result : (filesAfter transforms files)[done.length]? = some f) (found : f.failed = false) :
    ∃ f₀ renames,
      Passes (contextAt transforms files done path) transforms stored f₀.current renames ∧
      Followed (transformAll transforms files).value.renames f₀ f := by
  obtain ⟨f₀, renames, visit, followed⟩ := visit_at split result
  cases visit with
  | same passes | retyped passes => exact ⟨_, _, passes, followed⟩
  | failed =>
    cases followed with
    | same => cases found
    | renamed found => cases found

/-- A name that one file declares and another one imports is declared and imported under one name
behind a run, if the renames of it in both files are followed in all files. -/
theorem imports_agree {files : List TreeFile} {done later done' later' : List (String × List Char)}
    {path path' : String} {stored stored' : List Char}
    (declaring : decoded files = done ++ (path, stored) :: later)
    (importing : decoded files = done' ++ (path', stored') :: later')
    (declared : DeclaredAtTop name stored) {typed : Bool} (imported : ImportedIn typed name stored')
    (plain : name ∉ reservedNames)
    (plain' : renamed (transformAll transforms files).value.renames name ∉ reservedNames)
    (alike : FollowsAlike (transformAll transforms files).value.renames
      (renamesOver (contextAt transforms files done path) transforms stored) name)
    (alike' : FollowsAlike (transformAll transforms files).value.renames
      (renamesOver (contextAt transforms files done' path') transforms stored') name)
    (once : ∀ r ∈ (transformAll transforms files).value.renames, r.old ≠ baseName name)
    (placed : PlacesWell transforms (contextAt transforms files done path) stored)
    (placed' : PlacesWell transforms (contextAt transforms files done' path') stored')
    (outside : EachText (OutsideBraces path') (contextAt transforms files done' path') transforms
      stored')
    {f f' : FileState} (result : (filesAfter transforms files)[done.length]? = some f)
    (result' : (filesAfter transforms files)[done'.length]? = some f')
    (found : f.failed = false) (found' : f'.failed = false) :
    DeclaredAtTop (renamed (transformAll transforms files).value.renames name) f.current ∧
      ImportedIn typed (renamed (transformAll transforms files).value.renames name) f'.current := by
  have safe := (transformAll_visits transforms files).safe
  have drops : ∀ r ∈ (transformAll transforms files).value.renames, DropsSuffix r :=
    fun r hr => (safe r hr).toDropsSuffix
  have last : FollowsAlike (transformAll transforms files).value.renames
      (transformAll transforms files).value.renames name := ⟨fun _ hr _ => hr, once⟩
  have keyword {n : String} (h : n ∉ reservedNames) : n ∉ declaringKeywords := fun mem =>
    h (List.mem_append_left _ mem)
  have ordinary {n : String} (isName : n = name ∨
      n = renamed (transformAll transforms files).value.renames name) : n ∉ reservedNames := by
    rcases isName with rfl | rfl
    · exact plain
    · exact plain'
  have settled {n : String} (isName : n = name ∨
      n = renamed (transformAll transforms files).value.renames name) :
      renamed (transformAll transforms files).value.renames n =
        renamed (transformAll transforms files).value.renames name := by
    rcases isName with rfl | rfl
    · rfl
    · exact (last.step drops drops (.inl rfl)).2
  obtain ⟨f₀, renames, passes, followed⟩ := passes_at declaring result found
  obtain ⟨f₀', renames', passes', followed'⟩ := passes_at importing result' found'
  obtain ⟨n, isName, declared⟩ := passes.keep
    (fun h apply placed isName isName' fixed =>
      DeclaredAtTop.apply h apply placed (ordinary isName) (ordinary isName') fixed)
    drops alike placed.eachText (.inl rfl) declared
  obtain ⟨n', isName', imported⟩ := passes'.keep
    (fun h apply placed _ _ _ => ImportedIn.apply h apply placed.1 placed.2)
    drops alike' (placed'.eachText.and outside) (.inl rfl) imported
  constructor
  · rw [← settled isName]
    exact declared.followed followed found drops (keyword (settled isName ▸ plain'))
  · rw [← settled isName']
    exact imported.followed followed' found' safe

theorem tokenItems_eq_map (ts : List Token) : tokenItems ts = (ts.map Token.bare).map .token :=
  (List.map_map ..).symm

/-- Without enum declarations, imports stand among the tokens. -/
theorem importedIn_of_tokens {s : Source} {typed : Bool} (read : Source.ofText? cs = .ok s)
    (noEnum : ∀ t ∈ s.tokens, t.isWord "enum" = false)
    (imports : (importHead typed name).map Token.bare <:+: s.tokens.map Token.bare) :
    ImportedIn typed name cs := by
  refine ⟨s, tokenItems s.tokens, read, ?_, ?_⟩
  · have parses := Parses.behind_others (p := false) noEnum (.nil : Parses _ [] [])
    rwa [List.append_nil, List.append_nil] at parses
  · rw [tokenItems_eq_map, tokenItems_eq_map]
    exact imports.map _

theorem ImportedIn.tokens {typed : Bool} (h : ImportedIn typed name cs) {s : Source}
    (read : Source.ofText? cs = .ok s) :
    (importHead typed name).map Token.bare <:+: s.tokens.map Token.bare := by
  obtain ⟨s', _, read', parses, a, b, rfl⟩ := h
  obtain rfl := Except.ok.inj (read.symm.trans read')
  rw [List.append_assoc] at parses
  exact parses.infix_of_tokenItems

section Example

instance (all renames : List Rename) (name : String) : Decidable (FollowsAlike all renames name) :=
  decidable_of_iff ((∀ r ∈ renames, r.old = name → r ∈ all) ∧ ∀ r ∈ renames, r.old ≠ baseName name)
    ⟨fun h => ⟨h.1, h.2⟩, fun h => ⟨h.followed, h.once⟩⟩

def declaringText : List Char :=
  "export enum StateEnum \x7b Open = \"open\" \x7d\n".toList

def importingText : List Char :=
  ("import type \x7b StateEnum \x7d from \"./state\";\n" ++
    "export type Uses = StateEnum[];\n").toList

theorem imports_agree_states : ∃ f f',
    (filesAfter (defaultTransforms 3 .auto) stateFiles)[0]? = some f ∧
      (filesAfter (defaultTransforms 3 .auto) stateFiles)[1]? = some f' ∧
      DeclaredAtTop "State" f.current ∧ ImportedIn true "State" f'.current := by
  have renames : (transformAll (defaultTransforms 3 .auto) stateFiles).value.renames =
      [⟨"StateEnum", "State"⟩] := by decide +kernel
  have after : ((filesAfter (defaultTransforms 3 .auto) stateFiles)[0]?.map (·.failed),
      (filesAfter (defaultTransforms 3 .auto) stateFiles)[1]?.map (·.failed)) =
      (some false, some false) := by decide +kernel
  obtain ⟨after, after'⟩ := Prod.mk.inj after
  obtain ⟨f, result, found⟩ := Option.map_eq_some_iff.1 after
  obtain ⟨f', result', found'⟩ := Option.map_eq_some_iff.1 after'
  have declaring : decoded stateFiles =
      [] ++ ("state.ts", declaringText) :: [("uses.ts", importingText)] := rfl
  have importing : decoded stateFiles =
      [("state.ts", declaringText)] ++ ("uses.ts", importingText) :: [] := rfl
  have declared : DeclaredAtTop "StateEnum" declaringText :=
    ⟨["StateEnum"], by decide +kernel, List.mem_singleton_self _⟩
  have tokens : (Source.ofText? importingText).toOption.map (fun s =>
      decide ((∀ t ∈ s.tokens, t.isWord "enum" = false) ∧
        (importHead true "StateEnum").map Token.bare <:+: s.tokens.map Token.bare)) =
      some true := by decide +kernel
  obtain ⟨s, read, facts⟩ := Option.map_eq_some_iff.1 tokens
  obtain ⟨noEnum, imports⟩ := of_decide_eq_true facts
  have imported := importedIn_of_tokens (mem_toOption.1 read) noEnum imports
  have new : renamed (transformAll (defaultTransforms 3 .auto) stateFiles).value.renames
      "StateEnum" = "State" := by
    rw [renames]
    rfl
  have agree := imports_agree declaring importing declared imported (by decide)
    (by rw [new]; decide) (by decide +kernel) (by decide +kernel) (by rw [renames]; decide)
    (by decide +kernel) (by decide +kernel) (by decide +kernel) result result' found found'
  rw [new] at agree
  exact ⟨f, f', result, result', agree⟩

end Example

/-! ### An export by a statement of its own -/

/-- An enum that is exported by a statement of its own. -/
def statusText : List Char :=
  "enum StatusEnum \x7b A = \"a\" \x7d\nexport \x7b StatusEnum \x7d;\n".toList

def firstText : List Char :=
  ("import \x7b StatusEnum \x7d from \"./A\";\n" ++
    "export const first = StatusEnum;\n").toList

def statusFiles : List TreeFile :=
  [⟨"A.ts", some statusText⟩, ⟨"B.ts", some firstText⟩]

/-- The tokens of an export of one name. -/
def exportTokens (name : String) : List Token :=
  [.word [] "export", .mark [] '\x7b', .word [] name, .mark [] '\x7d']

/-- The enum gets a new name in its own file, and the import keeps the old one. -/
theorem import_left : ¬ ∀ (transforms : List Transform) (files : List TreeFile) (name : String)
    (typed : Bool) (f f' : FileState) (s : Source),
    (∀ g ∈ filesAfter transforms files, g.failed = false) →
    (filesAfter transforms files)[0]? = some f → (filesAfter transforms files)[1]? = some f' →
    Source.ofText? f.stored = .ok s → name ∈ declaredFrom 0 s.tokens →
    (exportTokens name).map Token.bare <:+: s.tokens.map Token.bare →
    ImportedIn typed name f'.stored →
    ∃ name', ImportedIn typed name' f'.current ∧ DeclaredAtTop name' f.current := by
  intro importFollows
  have after : (filesAfter (defaultTransforms 3 .auto) statusFiles).map (fun f =>
      (f.failed, f.stored, f.current)) =
      [(false, statusText, "type Status = \"a\";\nexport \x7b Status \x7d;\n".toList),
        (false, firstText, firstText)] := by decide +kernel
  have noFailure : ∀ g ∈ filesAfter (defaultTransforms 3 .auto) statusFiles, g.failed = false := by
    intro g hg
    have mem := List.mem_map_of_mem (f := fun f : FileState => (f.failed, f.stored, f.current)) hg
    rw [after] at mem
    simp only [List.mem_cons, Prod.mk.injEq, List.not_mem_nil, or_false] at mem
    rcases mem with ⟨found, -⟩ | ⟨found, -⟩ <;> exact found
  have first := congrArg (·[0]?) after
  have second := congrArg (·[1]?) after
  simp only [List.getElem?_map, List.getElem?_cons_zero, List.getElem?_cons_succ,
    Option.map_eq_some_iff, Prod.mk.injEq] at first second
  obtain ⟨f, result, -, stored, current⟩ := first
  obtain ⟨f', result', -, stored', current'⟩ := second
  have exports : (Source.ofText? statusText).toOption.map (fun s =>
      decide ("StatusEnum" ∈ declaredFrom 0 s.tokens ∧
        (exportTokens "StatusEnum").map Token.bare <:+: s.tokens.map Token.bare)) = some true := by
    decide +kernel
  obtain ⟨s, read, facts⟩ := Option.map_eq_some_iff.1 exports
  obtain ⟨declared, exported⟩ := of_decide_eq_true facts
  have imports : (Source.ofText? firstText).toOption.map (fun s =>
      decide ((∀ t ∈ s.tokens, t.isWord "enum" = false) ∧
        (importHead false "StatusEnum").map Token.bare <:+: s.tokens.map Token.bare ∧
        ¬ (importHead false "Status").map Token.bare <:+: s.tokens.map Token.bare)) =
      some true := by decide +kernel
  obtain ⟨s', read', facts'⟩ := Option.map_eq_some_iff.1 imports
  obtain ⟨noEnum, imported, notNew⟩ := of_decide_eq_true facts'
  obtain ⟨name', importedAfter, names, isNames, mem⟩ :=
    importFollows (defaultTransforms 3 .auto) statusFiles "StatusEnum" false f f' s noFailure result
      result' (stored ▸ mem_toOption.1 read) declared exported
      (stored' ▸ importedIn_of_tokens (mem_toOption.1 read') noEnum imported)
  have only : declaredNames "type Status = \"a\";\nexport \x7b Status \x7d;\n".toList =
      .ok ["Status"] := by decide +kernel
  rw [current, only] at isNames
  obtain rfl := Except.ok.inj isNames
  rw [List.mem_singleton.1 mem, current'] at importedAfter
  exact notNew (importedAfter.tokens (mem_toOption.1 read'))

end OpenApiModels.Retyping
