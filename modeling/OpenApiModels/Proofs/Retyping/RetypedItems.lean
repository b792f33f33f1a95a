import OpenApiModels.Proofs.Retyping.Applying
import OpenApiModels.Proofs.TypeScript.Items

/-!
# Items of retyped texts

Where a transform replaces a declaration, the tokens of a type declaration take its place among
the items. Every other declaration stays one, with its name followed (`Cut.parses_after`).
-/

namespace OpenApiModels.Retyping

open Text TypeScript

/-! ### Items of pieces -/

/-- A declaration among the items, behind its modifiers. -/
def declItems (e : EnumTokens) : List Item :=
  tokenItems e.modifiers ++ [.enum e.decl.name e.decl.strings]

/-- The items of a declaration, or of what replaces it. -/
def Choice.items (choose : Choice) (e : EnumTokens) : List Item :=
  match choose e.decl with
  | none => declItems e
  | some (name, type) => tokenItems (typeTokens e.first.gap e.decl.exported name type)

/-- The items of pieces with declarations replaced. -/
def retypedItems (choose : Choice) (pieces : Pieces) (rest : List Token) : List Item :=
  pieces.flatMap (fun p => tokenItems p.1 ++ choose.items p.2) ++ tokenItems rest

theorem retypedItems_cons (choose : Choice) (lead : List Token) (e : EnumTokens) (pieces : Pieces)
    (rest : List Token) : retypedItems choose ((lead, e) :: pieces) rest =
      tokenItems lead ++ (choose.items e ++ retypedItems choose pieces rest) := by
  simp [retypedItems]

theorem isWord_enum_word (gap : List Char) {text : String} (h : text ≠ "enum") :
    (Token.word gap text).isWord "enum" = false := by
  have differ : text.toList ≠ "enum".toList := fun same => h (String.toList_inj.1 same)
  rw [Token.isWord, Bool.and_eq_false_iff]
  exact .inr (beq_eq_false_iff_ne.2 differ)

theorem isWord_enum_of_kind {t : Token} (h : t.kind ≠ .word) : t.isWord "enum" = false := by
  have differ : (t.kind == TokenKind.word) = false := by simpa using h
  simp [Token.isWord, differ]

theorem isWord_enum_unionTokens (values : List String) :
    ∀ t ∈ NewType.unionTokens values, t.isWord "enum" = false := by
  fun_induction NewType.unionTokens values with
  | case1 => exact fun t ht => absurd ht List.not_mem_nil
  | case2 v =>
    intro t ht
    rw [List.mem_singleton.1 ht]
    exact isWord_enum_of_kind (by simp [Token.literal])
  | case3 v w vs ih =>
    intro t ht
    rcases List.mem_cons.1 ht with rfl | ht
    · exact isWord_enum_of_kind (by simp [Token.literal])
    rcases List.mem_cons.1 ht with rfl | ht
    · exact isWord_enum_of_kind (by decide)
    · exact ih t ht

theorem NewType.isWord_enum_tokens (type : NewType) : ∀ t ∈ type.tokens, t.isWord "enum" = false := by
  cases type with
  | union values => exact isWord_enum_unionTokens values
  | branded tag =>
    intro t ht
    simp only [tokens, List.mem_cons, List.not_mem_nil, or_false] at ht
    rcases ht with rfl | rfl | rfl | rfl | rfl | rfl
    · exact isWord_enum_word _ (by decide)
    · exact isWord_enum_of_kind (by decide)
    · exact isWord_enum_word _ (by decide)
    · exact isWord_enum_of_kind (by decide)
    · exact isWord_enum_of_kind (by simp [Token.literal])
    · exact isWord_enum_of_kind (by decide)

/-- A type declaration is parsed token by token, even if its name is a keyword. -/
theorem parses_typeTokens {p : Bool} (gap : List Char) (exported : Bool) (name : String)
    (type : NewType) {more : List Token} {is : List Item} (h : Parses false more is) :
    Parses p (typeTokens gap exported name type ++ more)
      (tokenItems (typeTokens gap exported name type) ++ is) := by
  have value : ∀ t ∈ Token.mark [' '] '=' :: type.tokens ++ [.mark [] ';'],
      t.isWord "enum" = false := by
    intro t ht
    simp only [List.cons_append, List.mem_cons, List.mem_append, List.not_mem_nil, or_false] at ht
    rcases ht with rfl | ht | rfl
    · exact isWord_enum_of_kind (by decide)
    · exact type.isWord_enum_tokens t ht
    · exact isWord_enum_of_kind (by decide)
  have ends (p : Bool) :
      endsInPoint p (Token.mark [' '] '=' :: type.tokens ++ [.mark [] ';']) = false := by
    rw [endsInPoint_concat]
    rfl
  have named : Parses false (.word [' '] name :: (.mark [' '] '=' :: type.tokens ++
      [.mark [] ';'] ++ more)) (tokenItems (.word [' '] name :: (.mark [' '] '=' :: type.tokens ++
      [.mark [] ';'])) ++ is) := by
    refine .token ?_ (.behind_others value (by rw [ends]; exact h))
    simp only [List.cons_append]
    match type.tokens ++ [.mark [] ';'] ++ more with
    | [] => exact id
    | _ :: _ =>
      rintro ⟨-, -, kind, -⟩
      cases kind
  have export_ : (Token.word gap "export").isWord "enum" = false := isWord_enum_word _ (by decide)
  have type_ (gap : List Char) : (Token.word gap "type").isWord "enum" = false :=
    isWord_enum_word _ (by decide)
  cases exported with
  | true =>
    have parses := Parses.token (p := p) (not_startsDecl export_ _)
      (.token (not_startsDecl (type_ [' ']) _) named)
    simpa [typeTokens] using parses
  | false =>
    have parses := Parses.token (p := p) (not_startsDecl (type_ gap) _) named
    simpa [typeTokens] using parses

theorem noOpening_typeTokens (gap : List Char) (exported : Bool) (name : String) (type : NewType)
    (more : List Token) : NoOpening (typeTokens gap exported name type ++ more) := by
  intro t ht
  cases exported <;>
    simp only [typeTokens, if_true, if_false, Bool.false_eq_true, List.cons_append,
      List.nil_append, List.take_succ_cons, List.take_zero, List.mem_cons, List.not_mem_nil,
      or_false] at ht <;>
    rcases ht with rfl | rfl <;> rfl

theorem EnumTokens.strings_decl (e : EnumTokens) : e.decl.strings = stringsOf e.body :=
  EnumDecl.strings_ofTokens ..

theorem parses_retyped (choose : Choice) {pieces : Pieces} {rest : List Token}
    (clear : pieces.Clear rest) :
    Parses false (pieces.retyped choose ++ rest) (retypedItems choose pieces rest) := by
  induction clear with
  | nil plain => simpa [retypedItems] using parses_of_plain plain
  | @cons lead e pieces rest plain notPoint _ ih =>
    rw [Pieces.retyped_cons, retypedItems_cons, List.append_assoc, List.append_assoc]
    simp only [Choice.tokens, Choice.items]
    cases choose e.decl with
    | none =>
      obtain ⟨-, closes, balanced⟩ := splitBody_iff.1 (e.splitBody_body [])
      have decl : Parses (endsInPoint false (lead ++ e.modifiers))
          (e.keyword :: e.name :: e.brace :: (e.body ++ e.close :: (pieces.retyped choose ++ rest)))
          (.enum e.decl.name e.decl.strings :: retypedItems choose pieces rest) := by
        rw [notPoint, EnumTokens.strings_decl]
        exact .enum ⟨e.isWord_keyword, rfl, e.kind_name, e.isMark_brace⟩ balanced closes ih
      have noOpening : NoOpening (e.keyword :: e.name :: e.brace ::
          (e.body ++ e.close :: (pieces.retyped choose ++ rest))) := by
        have keyword := (Token.isWord_iff.1 e.isWord_keyword).1
        intro t ht
        simp only [List.take_succ_cons, List.take_zero, List.mem_cons, List.not_mem_nil,
          or_false] at ht
        rcases ht with rfl | rfl
        · simp [Token.isMark, keyword]
        · simp [Token.isMark, e.kind_name]
      have parses := Parses.behind_plain plain noOpening decl
      simpa [EnumTokens.tokens, declItems] using parses
    | some chosen =>
      obtain ⟨name, type⟩ := chosen
      exact .behind_plain (plain_of_append plain) (noOpening_typeTokens _ _ _ _ _)
        (parses_typeTokens _ _ _ _ ih)

/-! ### New names -/

/-- A rename that drops a suffix and does not make a keyword of a name. -/
structure SafeRename (r : Rename) : Prop extends DropsSuffix r where
  new_ne_enum : r.new ≠ "enum"

theorem keepsEnum {renames : List Rename} (safe : ∀ r ∈ renames, SafeRename r) :
    KeepsEnum renames := by
  have drops : ∀ r ∈ renames, DropsSuffix r := fun r hr => (safe r hr).toDropsSuffix
  intro name
  constructor
  · intro keyword
    rcases renamed_eq_or renames name with same | ⟨r, hr, -, new⟩
    · rw [← same, keyword]
    · exact absurd (new.symm.trans keyword) (safe r hr).new_ne_enum
  · rintro rfl
    exact renamed_of_baseName_eq drops (by decide)

variable {transform : Transform} {used : List String} {file : FileContext}

theorem Transform.name_of_choose {d : EnumDecl} {name : String} {type : NewType}
    (chosen : transform.choose used file d = some (name, type)) :
    name = (targetName d used file).value := by
  cases transform with
  | union =>
    simp only [Transform.choose] at chosen
    split at chosen <;> cases chosen
    rfl
  | bySize limit mode =>
    simp only [Transform.choose] at chosen
    split at chosen
    · cases chosen
    · split at chosen <;> cases chosen <;> rfl

namespace Cut

variable {cs : List Char} (cut : Cut cs)

/-- What is known of a rename: whose it is, and that its new name was free. -/
structure Planned (used : List String) (file : FileContext) (r : Rename) : Prop
    extends DropsSuffix r where
  declared : ∃ p ∈ cut.pieces, p.2.decl.name = r.old ∧
    (targetName p.2.decl used file).value = r.new
  new_not_mem_used : r.new ∉ used
  new_not_mem_treeNames : r.new ∉ file.treeNames

theorem planned_of_mem {r : Rename} (h : r ∈ cut.renames (transform.choose used file)) :
    cut.Planned used file r := by
  obtain ⟨c, hc, rename⟩ := List.mem_filterMap.1 h
  obtain ⟨p, hp, planned⟩ := List.mem_filterMap.1 (List.mem_reverse.1 hc)
  obtain ⟨⟨name, type⟩, chosen, rfl⟩ := Option.map_eq_some_iff.1 planned
  have target := Transform.name_of_choose chosen
  have drops := cut.dropsSuffix_of_mem transform.sound_choose h
  simp only [candidate] at rename
  split at rename
  · cases rename
  · rename_i differ
    cases rename
    have free : ¬ (used.contains (baseName p.2.decl.name) = true ∨
        file.treeNames.contains (baseName p.2.decl.name) = true) := by
      intro taken
      have other : (baseName p.2.decl.name != p.2.decl.name) = true := by
        rw [bne_iff_ne]
        exact fun same => drops.ne (drops.new.trans same)
      refine differ (target.trans ?_)
      unfold targetName
      dsimp only
      rw [if_pos (by simpa [other] using taken)]
    rw [not_or, List.contains_iff_mem, List.contains_iff_mem, ← show name = _ from drops.new] at free
    exact ⟨drops, ⟨p, hp, rfl, target.symm⟩, free.1, free.2⟩

theorem enum_mem_words {p : List Token × EnumTokens} (h : p ∈ cut.pieces) :
    "enum" ∈ cut.source.words := by
  obtain ⟨isWord, text⟩ := Token.isWord_iff.1 p.2.isWord_keyword
  have mem : p.2.keyword ∈ cut.source.tokens := by
    rw [cut.tokens_eq]
    refine List.mem_append_left _ (List.mem_flatMap.2 ⟨p, h, List.mem_append_right _ ?_⟩)
    simp [EnumTokens.tokens]
  refine List.mem_map.2 ⟨p.2.keyword, List.mem_filter.2 ⟨mem, by simp [isWord]⟩, ?_⟩
  rw [Token.name, text]
  rfl

theorem safeRename_of_mem {r : Rename}
    (h : r ∈ cut.renames (transform.choose cut.source.words file)) : SafeRename r := by
  have planned := cut.planned_of_mem h
  obtain ⟨p, hp, -⟩ := planned.declared
  exact ⟨planned.toDropsSuffix, fun keyword =>
    planned.new_not_mem_used (keyword ▸ cut.enum_mem_words hp)⟩

/-- A transform's text before any import is added is parsed into the old items with types in
place of declarations and with the names followed. -/
theorem parses_after : Parses false (cut.after (transform.choose cut.source.words file))
    (renameItems (cut.renames (transform.choose cut.source.words file)) false
      (retypedItems (transform.choose cut.source.words file) cut.pieces cut.rest)) :=
  (parses_retyped _ cut.clear).rename (keepsEnum fun _ hr => cut.safeRename_of_mem hr)

end Cut

end OpenApiModels.Retyping
