import Mathlib.Data.List.Infix
import OpenApiModels.Proofs.Retyping.Settling

/-!
# Names that declarations keep

An enum that is retyped under its own name is declared under that name for the rest of the run,
except where a rename of another declaration of the same name is followed in its file
(`kept_declaration`).
-/

namespace OpenApiModels.TypeScript

theorem Parses.unique {p : Bool} {ts : List Token} {is is' : List Item} (h : Parses p ts is)
    (h' : Parses p ts is') : is = is' := by
  induction h generalizing is' with
  | nil =>
    cases h'
    rfl
  | @enum p keyword name brace close body rest is starts balanced closes _ ih =>
    generalize all : keyword :: name :: brace :: (body ++ close :: rest) = ts at h'
    cases h' with
    | nil => cases all
    | @enum _ _ _ _ close' body' rest' is' starts' balanced' closes' more' =>
      simp only [List.cons.injEq] at all
      obtain ⟨rfl, rfl, rfl, tail⟩ := all
      have split : splitBody 1 (body ++ close :: rest) = some (body, close, rest) :=
        splitBody_iff.2 ⟨rfl, closes, balanced⟩
      rw [tail, splitBody_iff.2 ⟨rfl, closes', balanced'⟩] at split
      simp only [Option.some.injEq, Prod.mk.injEq] at split
      obtain ⟨rfl, rfl, rfl⟩ := split
      rw [ih more']
    | token other =>
      rw [← all] at other
      exact absurd starts other
  | @token p t ts is other _ ih =>
    cases h' with
    | enum starts => exact absurd starts other
    | token _ more => rw [ih more]

/-- The last token is the last item, if that is a token. -/
theorem Parses.getLast? {p : Bool} {ts : List Token} {is : List Item} (h : Parses p ts is)
    {t : Token} (last : is.getLast? = some (.token t)) :
    ∃ u, ts.getLast? = some u ∧ u.bare = t := by
  induction h with
  | nil => cases last
  | @enum p keyword name brace close body rest is _ _ _ _ ih =>
    cases is with
    | nil => cases last
    | cons item is =>
      rw [List.getLast?_cons_cons] at last
      obtain ⟨u, inner, bare⟩ := ih last
      refine ⟨u, ?_, bare⟩
      rw [show keyword :: name :: brace :: (body ++ close :: rest) =
        (keyword :: name :: brace :: (body ++ [close])) ++ rest by simp, List.getLast?_append, inner]
      rfl
  | @token p t ts is _ more ih =>
    cases is with
    | nil =>
      cases more
      obtain rfl := Item.token.inj (Option.some.inj last)
      exact ⟨t, rfl, rfl⟩
    | cons item is =>
      rw [List.getLast?_cons_cons] at last
      obtain ⟨u, inner, bare⟩ := ih last
      exact ⟨u, by rw [List.getLast?_cons, inner]; rfl, bare⟩

theorem Parses.prefix_of_tokenItems {p : Bool} {ts us : List Token} {b : List Item}
    (h : Parses p ts (tokenItems us ++ b)) : us.map Token.bare <+: ts.map Token.bare := by
  induction us generalizing p ts with
  | nil => exact List.nil_prefix
  | cons u us ih =>
    generalize all : tokenItems (u :: us) ++ b = is at h
    cases h with
    | nil => cases all
    | enum => cases all
    | token _ more =>
      obtain ⟨same, rfl⟩ := List.cons.inj all
      rw [List.map_cons, List.map_cons, ← Item.token.inj same, List.prefix_cons_inj]
      exact ih more

theorem Parses.infix_of_tokenItems {p : Bool} {ts us : List Token} {a b : List Item}
    (h : Parses p ts (a ++ (tokenItems us ++ b))) : us.map Token.bare <:+: ts.map Token.bare := by
  induction a generalizing p ts with
  | nil => exact (Parses.prefix_of_tokenItems h).isInfix
  | cons item a ih =>
    generalize all : item :: a ++ (tokenItems us ++ b) = is at h
    cases h with
    | nil => cases all
    | @enum _ keyword name brace close body rest is _ _ _ more =>
      obtain ⟨-, rfl⟩ := List.cons.inj all
      have later : rest <:+ keyword :: name :: brace :: (body ++ close :: rest) :=
        ⟨keyword :: name :: brace :: (body ++ [close]), by simp⟩
      exact (ih more).trans (later.map _).isInfix
    | @token _ t ts is _ more =>
      obtain ⟨-, rfl⟩ := List.cons.inj all
      exact (ih more).trans (List.suffix_cons t.bare _).isInfix

end OpenApiModels.TypeScript

namespace OpenApiModels.Retyping

open Text TypeScript

section Infix

variable {α : Type} {l u v : List α} {x : α}

theorem infix_of_not_mem (h : x ∉ l) (inside : l <:+: u ++ x :: v) : l <:+: u ∨ l <:+: v := by
  obtain ⟨a, b, whole⟩ := inside
  rcases List.append_eq_append_iff.1 whole with ⟨c, rfl, -⟩ | ⟨c, first, second⟩
  · exact .inl ⟨a, c, rfl⟩
  cases c with
  | nil => exact .inl ⟨a, [], by rw [first]; simp⟩
  | cons y c =>
    obtain ⟨rfl, rfl⟩ := List.cons.inj second
    rcases List.append_eq_append_iff.1 first with ⟨d, rfl, rfl⟩ | ⟨d, rfl, tail⟩
    · exact absurd (List.mem_append_right d List.mem_cons_self) h
    · cases d with
      | nil => exact absurd (by rw [← show _ = l from tail]; exact List.mem_cons_self) h
      | cons z d =>
        obtain ⟨rfl, rfl⟩ := List.cons.inj tail
        exact .inr ⟨d, b, by simp⟩

theorem infix_of_last_not_mem (h : x ∉ v) (inside : l ++ [x] <:+: u ++ v) : l ++ [x] <:+: u := by
  obtain ⟨a, b, whole⟩ := inside
  rw [← List.append_assoc, List.append_assoc] at whole
  rcases List.append_eq_append_iff.1 whole with ⟨c, rfl, tail⟩ | ⟨c, -, rfl⟩
  · cases c with
    | nil => exact absurd (by rw [← show _ = v from tail]; exact List.mem_cons_self) h
    | cons y c =>
      obtain ⟨rfl, -⟩ := List.cons.inj tail
      exact ⟨a, c, by simp⟩
  · exact absurd (List.mem_append_right c List.mem_cons_self) h

end Infix

/-! ### Type declarations among the items -/

/-- The items with which the declaration of a type starts. -/
def typeHead (name : String) : List Item :=
  tokenItems [.word [] "type", .word [] name, .mark [] '=']

/-- A type of that name is declared. -/
def Declares (name : String) (is : List Item) : Prop :=
  typeHead name <:+: is

theorem declares_typeTokens (gap : List Char) (exported : Bool) (name : String) (type : NewType) :
    Declares name (tokenItems (typeTokens gap exported name type)) := by
  cases exported with
  | true => exact ⟨tokenItems [.word [] "export"], tokenItems (type.tokens ++ [.mark [] ';']), by
      simp [typeTokens, typeHead]; exact ⟨rfl, rfl, rfl, rfl⟩⟩
  | false => exact ⟨[], tokenItems (type.tokens ++ [.mark [] ';']), by
      simp [typeTokens, typeHead]; exact ⟨rfl, rfl, rfl⟩⟩

variable {name : String} {choose : Choice} {renames : List Rename}

/-- Tokens in a row stay where declarations are replaced, unless the last one is a modifier. -/
theorem infix_retypedItems {front : List Token} {last : Token} (notModifier : last.isModifier = false)
    {pieces : Pieces} {rest : List Token}
    (h : tokenItems (front ++ [last]) <:+: retypedItems (fun _ => none) pieces rest) :
    tokenItems (front ++ [last]) <:+: retypedItems choose pieces rest := by
  induction pieces with
  | nil => exact h
  | cons p pieces ih =>
    obtain ⟨lead, e⟩ := p
    rw [retypedItems_cons] at h ⊢
    have decl : Item.enum e.decl.name e.decl.strings ∉ tokenItems (front ++ [last]) := by
      simp [tokenItems]
    have split : tokenItems lead ++ (Choice.items (fun _ => none) e ++
        retypedItems (fun _ => none) pieces rest) =
      (tokenItems lead ++ tokenItems e.modifiers) ++ .enum e.decl.name e.decl.strings ::
        retypedItems (fun _ => none) pieces rest := by
      simp [Choice.items, declItems]
    rw [split] at h
    rcases infix_of_not_mem decl h with before | behind
    · have outside : Item.token last.bare ∉ tokenItems e.modifiers := by
        intro mem
        obtain ⟨t, ht, bare⟩ := List.mem_map.1 mem
        have same := congrArg Token.isModifier (Item.token.inj bare)
        rw [show t.bare.isModifier = true from e.isModifier_of_mem t ht,
          show last.bare.isModifier = false from notModifier] at same
        cases same
      rw [tokenItems_append] at before ⊢
      have inLead := infix_of_last_not_mem outside before
      exact List.IsInfix.trans inLead (List.prefix_append _ _).isInfix
    · have later := ih behind
      exact List.IsInfix.trans later ((List.suffix_append _ _).trans (List.suffix_append _ _)).isInfix

theorem declares_retypedItems {pieces : Pieces} {rest : List Token}
    (h : Declares name (retypedItems (fun _ => none) pieces rest)) :
    Declares name (retypedItems choose pieces rest) := by
  have head : typeHead name =
      tokenItems ([.word [] "type", .word [] name] ++ [.mark [] '=']) := rfl
  rw [Declares, head] at h ⊢
  exact infix_retypedItems (by decide) h

theorem renameItems_append (renames : List Rename) (afterPoint : Bool) (a b : List Item) :
    ∃ afterPoint', renameItems renames afterPoint (a ++ b) =
      renameItems renames afterPoint a ++ renameItems renames afterPoint' b := by
  induction a generalizing afterPoint with
  | nil => exact ⟨afterPoint, rfl⟩
  | cons item a ih =>
    cases item with
    | token t =>
      obtain ⟨p, split⟩ := ih (t.isMark '.')
      exact ⟨p, by simp [renameItems, split]⟩
    | enum name values =>
      obtain ⟨p, split⟩ := ih false
      exact ⟨p, by simp [renameItems, split]⟩

theorem renameName_word {word : String} (fixed : renamed renames word = word) (afterPoint : Bool) :
    (Token.word [] word).bare.renameName renames afterPoint = (Token.word [] word).bare := by
  unfold Token.renameName
  split
  · have same : (Token.word [] word).bare.name = word := String.ofList_toList
    rw [same, fixed]
    rfl
  · rfl

theorem renameItems_typeHead (name : String) (type : renamed renames "type" = "type")
    (afterPoint : Bool) (b : List Item) : ∃ b', renameItems renames afterPoint (typeHead name ++ b) =
      typeHead (renamed renames name) ++ b' := by
  refine ⟨renameItems renames false b, ?_⟩
  have own : (Token.word [] name).bare.name = name := String.ofList_toList
  simp only [typeHead, tokenItems_cons, tokenItems_nil, List.cons_append, List.nil_append,
    renameItems, renameName_word type]
  simp only [Token.renameName, own]
  rfl

theorem declares_renameItems (type : renamed renames "type" = "type") {is : List Item}
    (h : Declares name is) (afterPoint : Bool) :
    Declares (renamed renames name) (renameItems renames afterPoint is) := by
  obtain ⟨a, b, rfl⟩ := h
  rw [List.append_assoc]
  obtain ⟨p, split⟩ := renameItems_append renames afterPoint a (typeHead name ++ b)
  obtain ⟨b', head⟩ := renameItems_typeHead name type p b
  rw [split, head]
  exact ⟨_, b', List.append_assoc _ _ _⟩

theorem eq_of_near {R : List Char → List Char → Prop} {t : Token} {item : Item}
    (h : Item.Near R (.token t.bare) item) (notLiteral : t.kind ≠ .literal) :
    item = .token t.bare := by
  generalize first : Item.token t.bare = start at h
  cases h with
  | @token u u' near =>
    obtain same := Item.token.inj first
    obtain ⟨kind, text⟩ := Token.bare_eq_iff.1 same
    refine congrArg Item.token (Token.bare_eq_iff.2 ⟨near.kind, ?_⟩)
    rw [kind] at notLiteral
    by_cases word : u.kind = .word
    · exact near.word word
    · exact near.text word notLiteral
  | enum => cases first

theorem tokenItems_near {R : List Char → List Char → Prop} {ts : List Token} {is : List Item}
    (noLiteral : ∀ t ∈ ts, t.kind ≠ .literal) (h : List.Forall₂ (Item.Near R) (tokenItems ts) is) :
    is = tokenItems ts := by
  induction ts generalizing is with
  | nil =>
    cases h
    rfl
  | cons t ts ih =>
    obtain _ | ⟨first, rest⟩ := h
    rw [eq_of_near first (noLiteral t List.mem_cons_self),
      ih (fun u hu => noLiteral u (List.mem_cons_of_mem t hu)) rest, tokenItems_cons]

/-- An import line leaves tokens in a row, unless it goes between them. That it does not, as each
token but the last is a word or is not what it stands behind. -/
theorem ItemEdit.infix {path : String} {is is' : List Item} (edit : ItemEdit path is is')
    {ts : List Token} (noLiteral : ∀ t ∈ ts, t.kind ≠ .literal)
    (whole : ∀ d t e, ts = d ++ t :: e → e ≠ [] →
      t.kind = .word ∨ ¬ tokenItems (t :: importTokens [] path) <:+: is')
    (h : tokenItems ts <:+: is) : tokenItems ts <:+: is' := by
  cases edit with
  | near near =>
    obtain ⟨a, b, rfl⟩ := h
    obtain ⟨front, b', rfl, nearFront, -⟩ := forall₂_append_left near
    obtain ⟨a', head, rfl, -, nearHead⟩ := forall₂_append_left nearFront
    rw [tokenItems_near noLiteral nearHead]
    exact ⟨a', b', rfl⟩
  | @between a b us p before after parses apart =>
    subst before after
    obtain ⟨x, y, tiles⟩ := h
    have inFront (inside : tokenItems ts <:+: a) :
        tokenItems ts <:+: a ++ (tokenItems (importTokens [] path) ++ b) :=
      List.IsInfix.trans inside (List.prefix_append _ _).isInfix
    have behind (inside : tokenItems ts <:+: b) :
        tokenItems ts <:+: a ++ (tokenItems (importTokens [] path) ++ b) :=
      List.IsInfix.trans inside ((List.suffix_append _ _).trans (List.suffix_append _ _)).isInfix
    rcases List.append_eq_append_iff.1 tiles with ⟨c, rfl, -⟩ | ⟨c, split, rfl⟩
    · exact inFront ⟨x, c, rfl⟩
    rcases List.append_eq_append_iff.1 split with ⟨d, rfl, head⟩ | ⟨d, -, rfl⟩
    rotate_left
    · exact behind ⟨d, y, rfl⟩
    -- the line does not go between the tokens
    obtain ⟨first, second, rfl, isFirst, isSecond⟩ := List.map_eq_append_iff.1 head
    obtain rfl : tokenItems first = d := isFirst
    obtain rfl : tokenItems second = c := isSecond
    by_cases none : second = []
    · subst none
      exact inFront ⟨x, [], by simp⟩
    rcases List.eq_nil_or_concat first with rfl | ⟨first, t, rfl⟩
    · exact behind ⟨[], y, by simp⟩
    rw [List.concat_eq_append] at whole parses ⊢
    rcases whole first t second (by simp) none with word | split
    · obtain ⟨u, last, bare⟩ := parses.getLast? (t := t.bare) (by simp)
      have kind : u.kind = t.kind := (Token.bare_eq_iff.1 bare).1
      rcases apart u last with literal | ⟨mark, -⟩
      · rw [kind, word] at literal
        cases literal
      · rw [kind, word] at mark
        cases mark
    · exact absurd ⟨x ++ tokenItems first, tokenItems second ++ y, by simp⟩ split
  | @inside a b other values values' before after fewer =>
    subst before after
    have notHead : Item.enum other values ∉ tokenItems ts := by simp [tokenItems]
    rcases infix_of_not_mem notHead h with first | second
    · exact List.IsInfix.trans first (List.prefix_append _ _).isInfix
    · exact List.IsInfix.trans second
        ((List.suffix_cons _ _).trans (List.suffix_append _ _)).isInfix

/-- An import line that stands apart leaves declarations of types. -/
theorem ItemEdit.declares {path : String} {is is' : List Item} (edit : ItemEdit path is is')
    (h : Declares name is) : Declares name is' := by
  have noLiteral : ∀ t ∈ [Token.word [] "type", .word [] name, .mark [] '='],
      t.kind ≠ .literal := by
    simp [Token.word, Token.mark]
  refine edit.infix noLiteral (fun d t e split more => .inl ?_) h
  rcases d with _ | ⟨_, _ | ⟨_, _ | ⟨_, d⟩⟩⟩ <;>
    simp only [List.nil_append, List.cons_append, List.cons.injEq] at split
  · rw [← split.1]
    rfl
  · rw [← split.2.1]
    rfl
  · exact absurd split.2.2.2.symm more
  · exact absurd split.2.2.2 (by simp)

/-! ### Type declarations in texts -/

/-- The tokens declare a type of that name. -/
def DeclaresType (name : String) (cs : List Char) : Prop :=
  ∃ s, Source.ofText? cs = .ok s ∧
    [.word [] "type", .word [] name, .mark [] '='] <:+: s.tokens.map Token.bare

instance (name : String) (cs : List Char) : Decidable (DeclaresType name cs) :=
  decidable_of_iff (∃ s ∈ (Source.ofText? cs).toOption,
      [.word [] "type", .word [] name, .mark [] '='] <:+: s.tokens.map Token.bare)
    (exists_congr fun _ => and_congr_left' mem_toOption)

/-- A type of that name is declared outside of enum declarations. -/
def DeclaredIn (name : String) (cs : List Char) : Prop :=
  ∃ s is, Source.ofText? cs = .ok s ∧ Parses false s.tokens is ∧ Declares name is

theorem DeclaredIn.declaresType {cs : List Char} (h : DeclaredIn name cs) :
    DeclaresType name cs := by
  obtain ⟨s, _, read, parses, a, b, rfl⟩ := h
  rw [List.append_assoc] at parses
  exact ⟨s, read, parses.infix_of_tokenItems⟩

/-! ### One pass -/

variable {transform : Transform} {file : FileContext} {cs : List Char} {r : Retyped}

theorem Cut.renamed_type (cut : Cut cs) :
    renamed (cut.renames (transform.choose cut.source.words file)) "type" = "type" :=
  renamed_of_baseName_eq (fun _ hr => cut.dropsSuffix_of_mem transform.sound_choose hr) (by decide)

/-- The items of the old text, with every declaration kept. -/
theorem Cut.parses_source (cut : Cut cs) :
    Parses false cut.source.tokens (retypedItems (fun _ => none) cut.pieces cut.rest) := by
  have parses := parses_retyped (fun _ => none) cut.clear
  rwa [show cut.pieces.retyped (fun _ => none) = cut.pieces.tokens from rfl,
    ← cut.tokens_eq] at parses

theorem PassItems.declaredIn {cut : Cut cs} (pass : PassItems transform file cut r)
    (h : Declares name (retypedItems (transform.choose cut.source.words file) cut.pieces
      cut.rest)) : DeclaredIn (renamed (transform.renamesIn file cs) name) r.text := by
  refine ⟨pass.source, pass.items, pass.read, pass.parses, ?_⟩
  have declares := declares_renameItems
    (cut.renamed_type : renamed (cut.renames (transform.choose _ file)) _ = _) h false
  rw [← cut.renamesIn_eq] at declares
  rcases pass.edit with same | edit
  · rwa [same, Cut.itemsAfter, ← cut.renamesIn_eq]
  · rw [Cut.itemsAfter, ← cut.renamesIn_eq] at edit
    exact edit.declares declares

theorem DeclaredIn.apply (h : DeclaredIn name cs)
    (apply : (transform.apply file cs).value = .ok (some r))
    (placed : WellPlaced file.path r.text) :
    DeclaredIn (renamed (transform.renamesIn file cs) name) r.text := by
  obtain ⟨cut, ⟨pass⟩⟩ := exists_passItems apply placed
  obtain ⟨s, is, read, parses, declares⟩ := h
  obtain rfl : cut.source = s := Except.ok.inj (cut.read.symm.trans read)
  obtain rfl := parses.unique cut.parses_source
  exact pass.declaredIn (declares_retypedItems declares)

/-- A transform retypes a declaration under its own name, as its base name is in use. -/
def Transform.Keeps (transform : Transform) (file : FileContext) (cs : List Char)
    (name : String) : Prop :=
  ∃ s decls, Source.ofText? cs = .ok s ∧ enumDecls [] s.tokens = .ok decls ∧
    ∃ d ∈ decls, d.name = name ∧ baseName name ≠ name ∧
      (transform.plan s.words file d).value.isSome = true ∧
      (targetName d s.words file).value = name

instance (transform : Transform) (file : FileContext) (cs : List Char) (name : String) :
    Decidable (transform.Keeps file cs name) :=
  match read : Source.ofText? cs with
  | .error _ => isFalse fun ⟨_, _, read', _⟩ => by cases read.symm.trans read'
  | .ok s =>
    match scanned : enumDecls [] s.tokens with
    | .error _ => isFalse fun ⟨_, _, read', scanned', _⟩ => by
        cases read.symm.trans read'
        cases scanned.symm.trans scanned'
    | .ok decls =>
      decidable_of_iff (∃ d ∈ decls, d.name = name ∧ baseName name ≠ name ∧
          (transform.plan s.words file d).value.isSome = true ∧
          (targetName d s.words file).value = name)
        ⟨fun h => ⟨s, decls, read, scanned, h⟩, fun ⟨_, _, read', scanned', h⟩ => by
          cases read.symm.trans read'
          cases scanned.symm.trans scanned'
          exact h⟩

/-- No declaration of a name that is kept is renamed. -/
theorem Transform.Keeps.renamed_eq (h : transform.Keeps file cs name) :
    renamed (transform.renamesIn file cs) name = name := by
  obtain ⟨s, decls, read, scanned, d, -, rfl, -, -, target⟩ := h
  obtain ⟨cut⟩ : Nonempty (Cut cs) := exists_cut_of_scan (by rw [scanEnums, read]; exact scanned)
  obtain rfl : cut.source = s := Except.ok.inj (cut.read.symm.trans read)
  rw [cut.renamesIn_eq]
  refine (renamed_eq_self_iff fun _ hr =>
    cut.dropsSuffix_of_mem transform.sound_choose hr).2 fun rename hr same => ?_
  have planned := cut.planned_of_mem hr
  obtain ⟨p, -, name, new⟩ := planned.declared
  -- the target depends on the name only
  have alike : (targetName p.2.decl cut.source.words file).value =
      (targetName d cut.source.words file).value := by
    simp only [targetName, name.trans same]
  exact planned.ne (by rw [← new, alike, target, same])

theorem Transform.Keeps.declaredIn (h : transform.Keeps file cs name)
    (apply : (transform.apply file cs).value = .ok (some r))
    (placed : WellPlaced file.path r.text) : DeclaredIn name r.text := by
  have stays := h.renamed_eq
  obtain ⟨cut, ⟨pass⟩⟩ := exists_passItems apply placed
  obtain ⟨s, decls, read, scanned, d, hd, rfl, -, planned, target⟩ := h
  obtain rfl : cut.source = s := Except.ok.inj (cut.read.symm.trans read)
  obtain rfl := Except.ok.inj (cut.scanned.symm.trans scanned)
  obtain ⟨p, hp, rfl⟩ := List.mem_map.1 hd
  rw [Transform.value_plan, Choice.candidate?, Option.isSome_map,
    Option.isSome_iff_exists] at planned
  obtain ⟨⟨name, type⟩, chosen⟩ := planned
  obtain rfl : name = p.2.decl.name := (Transform.name_of_choose chosen).trans target
  rw [← stays]
  refine pass.declaredIn ?_
  obtain ⟨before, after, split⟩ := List.append_of_mem hp
  have declared := declares_typeTokens p.2.first.gap p.2.decl.exported p.2.decl.name type
  have items : (transform.choose cut.source.words file).items p.2 =
      tokenItems (typeTokens p.2.first.gap p.2.decl.exported p.2.decl.name type) := by
    rw [Choice.items, chosen]
  rw [← items] at declared
  refine declared.trans ?_
  rw [split, retypedItems, List.flatMap_append, List.flatMap_cons]
  simp only [List.append_assoc]
  exact ⟨_ ++ tokenItems p.1, _, by rw [List.append_assoc, List.append_assoc]⟩

/-- A transform that keeps a name has something to retype. -/
theorem Transform.Keeps.apply_ne (h : transform.Keeps file cs name) :
    (transform.apply file cs).value ≠ .ok none := by
  intro apply
  obtain ⟨s, decls, read, scanned, d, hd, -, -, planned, -⟩ := h
  obtain ⟨decls', scanned', settled⟩ := settled_of_apply_none apply
  rw [scanEnums, read] at scanned'
  obtain rfl := Except.ok.inj (scanned.symm.trans scanned')
  have none : transform.choose s.words file d = none :=
    Transform.choose_eq_none_iff.2 (settled d hd)
  rw [Transform.value_plan, Choice.candidate?, none] at planned
  cases planned

/-! ### All passes -/

/-- The name of a declaration behind the transforms of its file. -/
def nameAfter (file : FileContext) : List Transform → List Char → String → String
  | [], _, name => name
  | t :: ts, cs, name =>
    match (t.apply file cs).value with
    | .ok none => nameAfter file ts cs name
    | .ok (some r) => nameAfter file ts r.text (renamed (t.renamesIn file cs) name)
    | .error _ => name

theorem DeclaredIn.passes {transforms : List Transform} {cs' : List Char}
    (h : DeclaredIn name cs) (passes : Passes file transforms cs cs' renames)
    (placed : PlacesWell transforms file cs) :
    DeclaredIn (nameAfter file transforms cs name) cs' := by
  induction passes generalizing name with
  | nil => exact h
  | same apply _ ih =>
    rw [nameAfter, apply]
    exact ih h (placed.same apply)
  | retyped apply _ ih =>
    rw [nameAfter, apply]
    obtain ⟨here, later⟩ := placed.retyped apply
    exact ih (h.apply apply here) later

theorem Transform.Keeps.passes {rest : List Transform} {cs' : List Char}
    (h : transform.Keeps file cs name) (passes : Passes file (transform :: rest) cs cs' renames)
    (placed : PlacesWell (transform :: rest) file cs) :
    DeclaredIn (nameAfter file (transform :: rest) cs name) cs' := by
  cases passes with
  | same apply _ => exact absurd apply h.apply_ne
  | retyped apply more =>
    rw [nameAfter, apply]
    obtain ⟨here, later⟩ := placed.retyped apply
    have declared := h.declaredIn apply here
    rw [h.renamed_eq]
    exact declared.passes more later

theorem PlacesWell.behind {first rest : List Transform} {middle : List Char}
    (placed : PlacesWell (first ++ rest) file cs) (passes : Passes file first cs middle renames) :
    PlacesWell rest file middle := by
  induction passes with
  | nil => exact placed
  | same apply _ ih => exact ih (placed.same apply)
  | retyped apply _ ih => exact ih (placed.retyped apply).2

/-- The tokens of a file in which renames are followed. -/
theorem Followed.ofText? {f f' : FileState} (followed : Followed renames f f')
    (found : f'.failed = false) (drops : ∀ r ∈ renames, DropsSuffix r) {s : Source}
    (read : Source.ofText? f.current = .ok s) :
    ∃ s', Source.ofText? f'.current = .ok s' ∧
      s'.tokens.map Token.bare = (renameTokens renames false s.tokens).map Token.bare := by
  cases followed with
  | same stays =>
    rcases stays with failed | rfl | ⟨e, fails⟩
    · rw [found] at failed
      cases failed
    · exact ⟨s, read, by rw [renameTokens_nil]⟩
    · rw [renameText_eq_ok read] at fails
      cases fails
  | renamed _ rename =>
    rw [renameText_eq_ok read] at rename
    obtain rfl := Except.ok.inj rename
    exact ⟨_, ofText?_rename (fun r hr => (drops r hr).shortens) read, map_bare_rebase 0 _⟩

theorem DeclaredIn.followed {f f' : FileState} (h : DeclaredIn name f.current)
    (followed : Followed renames f f') (found : f'.failed = false)
    (safe : ∀ r ∈ renames, SafeRename r) : DeclaredIn (renamed renames name) f'.current := by
  have drops : ∀ r ∈ renames, DropsSuffix r := fun r hr => (safe r hr).toDropsSuffix
  obtain ⟨s, is, read, parses, declares⟩ := h
  obtain ⟨s', read', same⟩ := followed.ofText? found drops read
  exact ⟨s', _, read', (parses.rename (keepsEnum safe)).of_bare_eq same.symm,
    declares_renameItems (renamed_of_baseName_eq drops (by decide)) declares false⟩

/-- A declaration that is retyped under its own name, as its base name is in use, is declared at
the end of a run under that name as far as the renames go that are followed in its file: those of
later passes over it, then those of all files. -/
theorem kept_declaration {files : List TreeFile} {done later : List (String × List Char)}
    {path : String} {stored : List Char} (split : decoded files = done ++ (path, stored) :: later)
    {transforms first rest : List Transform} (order : transforms = first ++ transform :: rest)
    {combined : Combined}
    (before : (combine (contextAt transforms files done path) stored first ⟨none, []⟩).value =
      .ok combined)
    (keeps : transform.Keeps (contextAt transforms files done path) (combined.text stored) name)
    (placed : PlacesWell transforms (contextAt transforms files done path) stored)
    {f : FileState} (result : (filesAfter transforms files)[done.length]? = some f)
    (found : f.failed = false) :
    DeclaresType (renamed (transformAll transforms files).value.renames
      (nameAfter (contextAt transforms files done path) (transform :: rest)
        (combined.text stored) name)) f.current := by
  obtain ⟨f₀, renames, visit, followed⟩ := visit_at split result
  have safe := (transformAll_visits transforms files).safe
  obtain ⟨_, firstPasses, -⟩ := combine_ok before
  have reached {text : List Char} {renames : List Rename}
      (passes : Passes (contextAt transforms files done path) transforms stored text renames) :
      DeclaredIn (nameAfter (contextAt transforms files done path) (transform :: rest)
        (combined.text stored) name) text := by
    subst order
    obtain ⟨middle, _, _, toMiddle, onward⟩ := passes.split
    obtain rfl := toMiddle.unique firstPasses
    exact keeps.passes onward (placed.behind toMiddle)
  cases visit with
  | same passes => exact ((reached passes).followed followed found safe).declaresType
  | retyped passes => exact ((reached passes).followed followed found safe).declaresType
  | failed =>
    cases followed with
    | same => cases found
    | renamed found => cases found

section Example

/-- A file that declares a base name besides the enum. -/
def kindTree : List TreeFile :=
  [⟨"kinds.ts", some ("export enum ItemEnum \x7b A = \"a\" \x7d\n" ++
    "export type Item = string;\n").toList⟩]

def kindText : List Char :=
  ("export enum ItemEnum \x7b A = \"a\" \x7d\n" ++ "export type Item = string;\n").toList

theorem kept_declaration_kinds : ∃ f,
    (filesAfter (defaultTransforms 3 .auto) kindTree)[0]? = some f ∧
      DeclaresType "ItemEnum" f.current := by
  have after : (filesAfter (defaultTransforms 3 .auto) kindTree)[0]?.map (·.failed) =
      some false := by decide +kernel
  obtain ⟨f, result, found⟩ := Option.map_eq_some_iff.1 after
  have name : renamed (transformAll (defaultTransforms 3 .auto) kindTree).value.renames
      (nameAfter (contextAt (defaultTransforms 3 .auto) kindTree [] "kinds.ts")
        [.union, .bySize 3 .auto] kindText "ItemEnum") = "ItemEnum" := by decide +kernel
  have split : decoded kindTree = [] ++ ("kinds.ts", kindText) :: [] := rfl
  have keeps : Transform.union.Keeps
      (contextAt (defaultTransforms 3 .auto) kindTree [] "kinds.ts") kindText "ItemEnum" := by
    decide +kernel
  have before : (combine (contextAt (defaultTransforms 3 .auto) kindTree [] "kinds.ts") kindText []
      ⟨none, []⟩).value = .ok ⟨none, []⟩ := rfl
  have declared := kept_declaration split
    (show defaultTransforms 3 .auto = [] ++ .union :: [.bySize 3 .auto] from rfl)
    before keeps (by decide +kernel) result found
  rw [show Combined.text ⟨none, []⟩ kindText = kindText from rfl, name] at declared
  exact ⟨f, result, declared⟩

end Example

/-! ### A name that two files declare -/

/-- Two files that declare an enum of the same name. -/
def itemTree : List TreeFile :=
  [⟨"A.ts", some "export enum ItemEnum \x7b A = \"a\" \x7d\n".toList⟩,
    ⟨"B.ts", some "export enum ItemEnum \x7b B = \"b\" \x7d\n".toList⟩]

theorem items_renamed : ¬ ∀ (transforms first rest : List Transform) (t : Transform)
    (files : List TreeFile) (done later : List (String × List Char)) (path : String)
    (stored : List Char) (combined : Combined) (name : String) (f : FileState),
    transforms = first ++ t :: rest → decoded files = done ++ (path, stored) :: later →
    (combine (contextAt transforms files done path) stored first ⟨none, []⟩).value =
      .ok combined →
    t.Keeps (contextAt transforms files done path) (combined.text stored) name →
    (filesAfter transforms files)[done.length]? = some f → f.failed = false →
    DeclaresType name f.current := by
  intro staysDeclared
  have after : (filesAfter (defaultTransforms 3 .auto) itemTree)[1]?.map (fun f =>
      (f.failed, decide (DeclaresType "ItemEnum" f.current))) = some (false, false) := by
    decide +kernel
  obtain ⟨f, result, facts⟩ := Option.map_eq_some_iff.1 after
  obtain ⟨found, undeclared⟩ := Prod.mk.inj facts
  refine of_decide_eq_false undeclared ?_
  exact staysDeclared (defaultTransforms 3 .auto) [] [.bySize 3 .auto] .union itemTree
    [("A.ts", "export enum ItemEnum \x7b A = \"a\" \x7d\n".toList)] [] "B.ts"
    "export enum ItemEnum \x7b B = \"b\" \x7d\n".toList ⟨none, []⟩ "ItemEnum" f rfl rfl rfl
    (by decide +kernel) result found

end OpenApiModels.Retyping
