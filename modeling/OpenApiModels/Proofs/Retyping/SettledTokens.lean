import OpenApiModels.Proofs.Retyping.Applying
import OpenApiModels.Proofs.TypeScript.WordSequence

/-!
# Settled tokens, retyped

Among settled tokens no import starts and no declaration has a name with a small first letter. They
stay settled when declarations are replaced and when names are followed (`settled_retyped`,
`settled_renameTokens`).
-/

namespace OpenApiModels.TypeScript

open Retyping

/-! ### Tokens in a row, retyped -/

section Followed

variable {word : String} {P : Token → Prop} {ts us : List Token}

/-- The second part of a row does not help the first one if it starts with another token. -/
theorem Followed.of_append (h : Followed word P (ts ++ us)) (stop : ∀ u ∈ us.head?, ¬ P u) :
    Followed word P ts := by
  rintro a t b rfl isWord
  obtain ⟨u, rest, split, holds⟩ := h a t (b ++ us) (by simp) isWord
  cases b with
  | nil =>
    rw [List.nil_append] at split
    exact absurd holds (stop u (by rw [split]; rfl))
  | cons v b =>
    obtain ⟨rfl, -⟩ := List.cons.inj split
    exact ⟨v, b, rfl, holds⟩

/-- Nor does it help where the first part ends with another token. -/
theorem Followed.of_concat {last : Token} (h : Followed word P (ts ++ [last] ++ us))
    (other : last.isWord word = false) : Followed word P (ts ++ [last]) := by
  intro a t b split isWord
  obtain ⟨u, rest, behind, holds⟩ := h a t (b ++ us) (by simp [split]) isWord
  cases b with
  | nil =>
    obtain ⟨-, same⟩ := List.append_inj' split rfl
    rw [(List.cons.inj same).1, isWord] at other
    cases other
  | cons v b =>
    obtain ⟨rfl, -⟩ := List.cons.inj behind
    exact ⟨v, b, rfl, holds⟩

theorem Followed.behind (h : Followed word P (ts ++ us)) : Followed word P us := by
  intro a t b split
  exact h (ts ++ a) t b (by rw [split, List.append_assoc])

theorem Followed.bare (same : ∀ t : Token, P t.bare → P t)
    (h : Followed word P (ts.map Token.bare)) : Followed word P ts := by
  rintro a t b rfl isWord
  obtain ⟨u, rest, split, holds⟩ := h (a.map Token.bare) t.bare (b.map Token.bare) (by simp) isWord
  cases b with
  | nil => cases split
  | cons v b =>
    obtain ⟨rfl, -⟩ := List.cons.inj split
    exact ⟨v, b, rfl, same v holds⟩

theorem Followed.map_bare (same : ∀ t : Token, P t → P t.bare) (h : Followed word P ts) :
    Followed word P (ts.map Token.bare) := by
  intro a t b split isWord
  obtain ⟨x, y, rfl, rfl, tail⟩ := List.map_eq_append_iff.1 split
  obtain ⟨v, z, rfl, rfl, rfl⟩ := List.map_eq_cons_iff.1 tail
  obtain ⟨u, rest, rfl, holds⟩ := h x v z rfl isWord
  exact ⟨u.bare, rest.map Token.bare, rfl, same u holds⟩

end Followed

theorem settled_bare_iff {ts : List Token} : Settled (ts.map Token.bare) ↔ Settled ts :=
  ⟨fun h => ⟨h.imports.bare fun _ => id, h.enums.bare fun _ => id⟩,
    fun h => ⟨h.imports.map_bare fun _ => id, h.enums.map_bare fun _ => id⟩⟩

theorem Settled.behind {ts us : List Token} (h : Settled (ts ++ us)) : Settled us :=
  ⟨h.imports.behind, h.enums.behind⟩

/-- No word behind `import` or `enum` opens a declaration. -/
theorem Settled.of_append {ts us : List Token} {t : Token} (h : Settled (ts ++ t :: us))
    (word : t.kind = .word) (small : t.text.head?.any Char.isLower = true) : Settled ts where
  imports := h.imports.of_append fun u hu => by
    cases hu
    exact fun mark => by rw [mark.1] at word; cases word
  enums := h.enums.of_append fun u hu => by
    cases hu
    exact fun notSmall => by rw [notSmall word] at small; cases small

/-! ### Declarations -/

theorem EnumTokens.first_opens (e : EnumTokens) :
    e.first.kind = .word ∧ e.first.text.head?.any Char.isLower = true := by
  have opens {t : Token} (h : t.kind = .word ∧ t.text ∈ openers) :
      t.kind = .word ∧ t.text.head?.any Char.isLower = true :=
    ⟨h.1, (show ∀ w ∈ openers, w.head?.any Char.isLower = true by decide) _ h.2⟩
  unfold first
  cases modifiers : e.modifiers with
  | nil =>
    obtain ⟨word, text⟩ := Token.isWord_iff.1 e.isWord_keyword
    exact opens ⟨word, by rw [List.headD_nil, text]; decide⟩
  | cons t more =>
    exact opens (opener_of_isModifier (e.isModifier_of_mem t (by simp [modifiers])))

/-- A declared name does not start with a small letter. -/
theorem EnumTokens.notSmall {e : EnumTokens} {us : List Token}
    (h : Settled (e.tokens ++ us)) : e.name.text.head?.any Char.isLower = false := by
  have tokens : e.tokens ++ us =
      e.modifiers ++ e.keyword :: e.name :: e.brace :: (e.body ++ [e.close] ++ us) := by
    simp [EnumTokens.tokens]
  obtain ⟨u, b, rest, notSmall⟩ := h.enums _ _ _ tokens e.isWord_keyword
  obtain ⟨rfl, -⟩ := List.cons.inj rest
  exact notSmall e.kind_name

variable {choose : Choice}

theorem isWord_word {gap : List Char} {name word : String} :
    (Token.word gap name).isWord word = true ↔ name = word := by
  rw [Token.isWord_iff, and_iff_right (show (Token.word gap name).kind = .word from rfl)]
  exact String.toList_inj

theorem settled_typeTokens (gap : List Char) (exported : Bool) {name : String} (type : NewType)
    (notSmall : name.toList.head?.any Char.isLower = false) :
    Settled (typeTokens gap exported name type) := by
  have words (g : List Char) : ∀ word ∈ ["export", "type", "Branded", "string"],
      (Token.word g word).isWord "import" = false ∧ (Token.word g word).isWord "enum" = false := by
    simp only [Bool.eq_false_iff, Ne, isWord_word]
    decide
  have each : EachToken (fun t => t.isWord "import" = false ∧ t.isWord "enum" = false) gap name :=
    { keyword := fun g _ word hw => words g word (by
        simp only [List.mem_cons] at hw ⊢
        tauto)
      word := fun g _ word hw => words g word (by
        simp only [List.mem_cons] at hw ⊢
        tauto)
      name := by
        simp only [Bool.eq_false_iff, Ne, isWord_word]
        constructor <;>
          · rintro rfl
            exact absurd notSmall (by decide)
      mark := fun g _ c _ => ⟨rfl, rfl⟩
      literal := fun value => ⟨rfl, rfl⟩ }
  exact settled_of_others (each.of_mem_typeTokens exported type)

theorem head?_baseName (name : String) : (baseName name).toList.head? = name.toList.head? := by
  rcases baseName_spec name with same | ⟨nonempty, -⟩
  · rw [same]
  · obtain ⟨rest, split⟩ := toList_baseName_prefix name
    rw [← split, List.head?_append_of_ne_nil _ nonempty]

theorem notSmall_of_chosen (sound : choose.Sound) {e : EnumTokens} {us : List Token}
    (h : Settled (e.tokens ++ us)) {name : String} {type : NewType}
    (chosen : choose e.decl = some (name, type)) :
    name.toList.head?.any Char.isLower = false := by
  have own : e.decl.name.toList = e.name.text := String.toList_ofList
  have declared := EnumTokens.notSmall h
  rcases sound.name chosen with rfl | rfl
  · rwa [own]
  · rwa [head?_baseName, own]

/-- What is settled stays so when declarations are replaced. -/
theorem settled_retyped (sound : choose.Sound) {pieces : Pieces} {rest : List Token}
    (h : Settled (pieces.tokens ++ rest)) : Settled (pieces.retyped choose ++ rest) := by
  induction pieces with
  | nil => exact h
  | cons p pieces ih =>
    obtain ⟨lead, e⟩ := p
    rw [Pieces.tokens_cons, List.append_assoc, List.append_assoc] at h
    rw [Pieces.retyped_cons, List.append_assoc, List.append_assoc]
    obtain ⟨word, small⟩ := e.first_opens
    have front : Settled lead := by
      rw [e.tokens_eq, List.cons_append] at h
      exact h.of_append word small
    have later := ih h.behind.behind
    refine front.append (Settled.append ?_ later)
    unfold Choice.tokens
    cases chosen : choose e.decl with
    | none =>
      have whole := h.behind
      have close : e.close.kind ≠ .word := by
        rw [(Token.isMark_iff.1 e.isMark_close).1]
        exact TokenKind.noConfusion
      exact ⟨whole.imports.of_concat (isWord_of_kind_ne close _),
        whole.enums.of_concat (isWord_of_kind_ne close _)⟩
    | some c => exact settled_typeTokens _ _ c.2 (notSmall_of_chosen sound h.behind chosen)

theorem EnumTokens.exported_of_first {e : EnumTokens} (h : e.first.isWord "export" = true) :
    e.decl.exported = true := by
  unfold EnumTokens.first at h
  have exported : e.decl.exported = e.modifiers.any fun t => t.isWord "export" := rfl
  rw [exported]
  cases modifiers : e.modifiers with
  | nil =>
    rw [modifiers, List.headD_nil, Token.isWord_iff] at h
    obtain ⟨-, keyword⟩ := Token.isWord_iff.1 e.isWord_keyword
    exact absurd (keyword.symm.trans h.2) (by decide)
  | cons t more =>
    rw [modifiers, List.headD_cons] at h
    rw [List.any_cons, h, Bool.true_or]

/-- The gap before the first token stays when declarations are replaced, and so does `export`. -/
theorem exists_head_retyped {pieces : Pieces} {rest us : List Token} {t : Token}
    (h : pieces.tokens ++ rest = t :: us) :
    ∃ t' us', pieces.retyped choose ++ rest = t' :: us' ∧ t'.gap = t.gap ∧
      (t.isWord "export" = true → t'.isWord "export" = true) := by
  cases pieces with
  | nil => exact ⟨t, us, h, rfl, id⟩
  | cons p pieces =>
    obtain ⟨lead, e⟩ := p
    rw [Pieces.tokens_cons] at h
    rw [Pieces.retyped_cons]
    cases lead with
    | cons u lead =>
      obtain ⟨rfl, -⟩ := List.cons.inj h
      exact ⟨u, _, rfl, rfl, id⟩
    | nil =>
      rw [e.tokens_eq] at h
      obtain ⟨rfl, -⟩ := List.cons.inj h
      unfold Choice.tokens
      cases choose e.decl with
      | none =>
        exact ⟨e.first, e.others ++ (Pieces.retyped choose pieces ++ rest), by simp [e.tokens_eq],
          rfl, id⟩
      | some c =>
        obtain ⟨name, type⟩ := c
        dsimp only
        cases exported : e.decl.exported with
        | true => exact ⟨_, _, rfl, rfl, fun _ => rfl⟩
        | false =>
          refine ⟨_, _, rfl, rfl, fun isExport => ?_⟩
          rw [EnumTokens.exported_of_first isExport] at exported
          cases exported

/-- Tokens in front of all declarations stay in front when declarations are replaced. -/
theorem exists_behind_front {pieces : Pieces} {rest front behind : List Token}
    (h : pieces.tokens ++ rest = front ++ behind)
    (enums : Followed "enum" (fun t => t.kind ≠ .word) front)
    (noModifier : ∀ t, front.getLast? = some t → t.isModifier = false) :
    ∃ (pieces' : Pieces) (rest' : List Token), behind = pieces'.tokens ++ rest' ∧
      pieces'.map (·.2) = pieces.map (·.2) ∧
      ∀ choose : Choice, pieces.retyped choose ++ rest =
        front ++ (pieces'.retyped choose ++ rest') := by
  cases pieces with
  | nil => exact ⟨[], behind, rfl, rfl, fun _ => h⟩
  | cons p pieces =>
    obtain ⟨lead, e⟩ := p
    rw [Pieces.tokens_cons, List.append_assoc, List.append_assoc] at h
    suffices ∃ lead', lead = front ++ lead' by
      obtain ⟨lead', rfl⟩ := this
      rw [List.append_assoc] at h
      refine ⟨(lead', e) :: pieces, rest, ?_, rfl, fun choose => ?_⟩
      · rw [← List.append_cancel_left h, Pieces.tokens_cons, List.append_assoc, List.append_assoc]
      · simp only [Pieces.retyped_cons, List.append_assoc]
    rcases List.append_eq_append_iff.1 h with ⟨z, rfl, split⟩ | ⟨lead', rfl, -⟩
    · -- a declaration would start in front
      rcases List.eq_nil_or_concat z with rfl | ⟨init, last, rfl⟩
      · exact ⟨[], by simp⟩
      rw [List.concat_eq_append] at split enums noModifier
      have stops := noModifier last (by simp)
      have tokens : e.tokens ++ (Pieces.tokens pieces ++ rest) = e.modifiers ++ e.keyword ::
          (e.name :: e.brace :: (e.body ++ [e.close] ++ (Pieces.tokens pieces ++ rest))) := by
        simp [EnumTokens.tokens]
      rw [tokens] at split
      rcases List.append_eq_append_iff.1 split with ⟨w, start, tail⟩ | ⟨w, modifiers, -⟩
      · cases w with
        | nil =>
          rw [List.append_nil] at start
          have mem : last ∈ e.modifiers := by
            rw [← start]
            simp
          rw [e.isModifier_of_mem last mem] at stops
          cases stops
        | cons k w =>
          obtain ⟨rfl, inside⟩ := List.cons.inj tail
          obtain ⟨u, b, rfl, notWord⟩ := enums (lead ++ e.modifiers) e.keyword w
            (by rw [start, List.append_assoc]) e.isWord_keyword
          obtain ⟨rfl, -⟩ := List.cons.inj inside
          exact absurd e.kind_name notWord
      · have mem : last ∈ e.modifiers := by
          rw [modifiers]
          simp
        rw [e.isModifier_of_mem last mem] at stops
        cases stops
    · exact ⟨lead', rfl⟩

/-! ### Names that are followed -/

section Rename

variable {renames : List Rename} (drops : ∀ r ∈ renames, DropsSuffix r)
  (notSmall : ∀ r ∈ renames, r.old.toList.head?.any Char.isLower = false)

theorem head?_renamed (drops : ∀ r ∈ renames, DropsSuffix r) (name : String) :
    (renamed renames name).toList.head? = name.toList.head? := by
  rcases renamed_of_dropsSuffix drops name with same | same
  · rw [same]
  · rw [same, head?_baseName]

include drops

theorem head?_renameName (t : Token) (afterPoint : Bool) :
    (t.renameName renames afterPoint).text.head? = t.text.head? := by
  unfold Token.renameName
  split
  · have own : t.name.toList = t.text := String.toList_ofList
    dsimp only
    rw [head?_renamed drops, own]
  · rfl

theorem isWord_renameName {word : String} (own : baseName word = word) {t : Token}
    (h : t.isWord word = true) (afterPoint : Bool) :
    (t.renameName renames afterPoint).isWord word = true := by
  obtain ⟨kind, text⟩ := Token.isWord_iff.1 h
  refine Token.isWord_iff.2 ⟨Token.kind_renameName.trans kind, ?_⟩
  have name : t.name = word := by rw [Token.name, text, String.ofList_toList]
  unfold Token.renameName
  split
  · rw [name, renamed_of_baseName_eq drops own]
  · exact text

include notSmall

/-- No name becomes a word that starts with a small letter. -/
theorem isWord_of_renameName {word : String} (small : word.toList.head?.any Char.isLower = true)
    {t : Token} {afterPoint : Bool} (h : (t.renameName renames afterPoint).isWord word = true) :
    t.isWord word = true := by
  obtain ⟨kind, text⟩ := Token.isWord_iff.1 h
  rw [Token.kind_renameName] at kind
  refine Token.isWord_iff.2 ⟨kind, ?_⟩
  have own : t.name.toList = t.text := String.toList_ofList
  rcases renamed_eq_or renames t.name with same | ⟨r, hr, old, -⟩
  · unfold Token.renameName at text
    split at text
    · dsimp only at text
      rw [← own, ← same, text]
    · exact text
  · have first := notSmall r hr
    rw [old, own, ← head?_renameName drops t afterPoint, text, small] at first
    cases first

theorem Followed.rename {word : String} {P : Token → Prop} {ts : List Token}
    (small : word.toList.head?.any Char.isLower = true)
    (same : ∀ t afterPoint, P t → P (t.renameName renames afterPoint)) (h : Followed word P ts)
    (afterPoint : Bool) : Followed word P (renameTokens renames afterPoint ts) := by
  induction ts generalizing afterPoint with
  | nil => exact h
  | cons t ts ih =>
    rw [followed_cons] at h
    rw [renameTokens_cons, followed_cons]
    refine ⟨fun isWord => ?_, ih h.2 _⟩
    obtain ⟨u, b, rfl, holds⟩ := h.1 (isWord_of_renameName drops notSmall small isWord)
    exact ⟨_, _, rfl, same u _ holds⟩

theorem settled_renameTokens {ts : List Token} (h : Settled ts) (afterPoint : Bool) :
    Settled (renameTokens renames afterPoint ts) where
  imports := h.imports.rename drops notSmall (by decide) (fun t p mark => by
    rw [Token.renameName, if_neg fun word => by rw [mark.1] at word; cases word.1]
    exact mark) afterPoint
  enums := h.enums.rename drops notSmall (by decide) (fun t p capital kind => by
    rw [head?_renameName drops]
    exact capital (by rwa [Token.kind_renameName] at kind)) afterPoint

end Rename

end OpenApiModels.TypeScript
