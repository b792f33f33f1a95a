import OpenApiModels.Proofs.Retyping.LineEdit
import OpenApiModels.Proofs.TypeScript.Items

/-!
# Import lines among the items

An import line that stands apart from the tokens before it adds its tokens to the items, or it
goes into the body of a declaration, which loses at most a value (`Parses.lineEdit`).
-/

namespace OpenApiModels.Retyping

open Text TypeScript

/-- The tokens end with a literal, or with a mark other than a point. -/
def EndsApart (ts : List Token) : Prop :=
  ∀ t, ts.getLast? = some t → t.kind = .literal ∨ t.kind = .mark ∧ t.isMark '.' = false

theorem EndsApart.tail {t : Token} {ts : List Token} (h : EndsApart (t :: ts)) : EndsApart ts := by
  intro u last
  exact h u (by rw [List.getLast?_cons, last]; rfl)

theorem EndsApart.behind {a ts : List Token} (h : EndsApart (a ++ ts)) : EndsApart ts := by
  intro u last
  exact h u (by rw [List.getLast?_append, last]; rfl)

theorem EndsApart.not_word {t : Token} (h : EndsApart [t]) : t.kind ≠ .word := by
  rcases h t rfl with literal | ⟨mark, -⟩
  · simp [literal]
  · simp [mark]

theorem EndsApart.not_point {t : Token} (h : EndsApart [t]) : t.isMark '.' = false := by
  rcases h t rfl with literal | ⟨-, notPoint⟩
  · simp [Token.isMark, literal]
  · exact notPoint

variable {gap : List Char} {path : String}

theorem isWord_enum_importTokens :
    ∀ t ∈ importTokens gap path, t.isWord "enum" = false := by
  intro t ht
  simp only [importTokens, List.mem_cons, List.not_mem_nil, or_false] at ht
  rcases ht with rfl | rfl | rfl | rfl | rfl | rfl | rfl | rfl <;> rfl

/-! ### Bodies -/

theorem braces_importTokens (depth : Nat) : braces depth (importTokens gap path) = some depth := by
  cases depth <;> rfl

/-- The tokens go into one of the groups. -/
theorem splitMembers_insert (gap : List Char) (path : String) (depth : Nat) (a b : List Token) :
    ∃ before x y after, splitMembers depth (a ++ b) = before ++ (x ++ y) :: after ∧
      splitMembers depth (a ++ (importTokens gap path ++ b)) =
        before ++ (x ++ (importTokens gap path ++ y)) :: after := by
  induction a generalizing depth with
  | nil =>
    obtain ⟨group, groups, split⟩ :=
      List.exists_cons_of_ne_nil (splitMembers_ne_nil depth b)
    have cons (t : Token) (notComma : t.isMark ',' = false) (depth : Nat) (ts : List Token) :
        splitMembers depth (t :: ts) = consGroup t (splitMembers (depthAfter depth t) ts) :=
      splitMembers_cons (fun h => by rw [notComma] at h; cases h.1) ts
    refine ⟨[], [], group, groups, split, ?_⟩
    simp only [importTokens, List.cons_append, List.nil_append]
    rw [cons _ rfl, cons _ rfl, cons _ rfl, cons _ rfl, cons _ rfl, cons _ rfl, cons _ rfl,
      cons _ rfl]
    change consGroup _ (consGroup _ (consGroup _ (consGroup _ (consGroup _ (consGroup _
      (consGroup _ (consGroup _ (splitMembers depth b)))))))) = _
    rw [split]
    rfl
  | cons t a ih =>
    by_cases comma : t.isMark ',' = true ∧ depth = 0
    · obtain ⟨isComma, rfl⟩ := comma
      obtain ⟨before, x, y, after, same, edited⟩ := ih 0
      refine ⟨[] :: before, x, y, after, ?_, ?_⟩
      · rw [List.cons_append, splitMembers_cons_comma isComma, same]
        rfl
      · rw [List.cons_append, splitMembers_cons_comma isComma, edited]
        rfl
    · obtain ⟨before, x, y, after, same, edited⟩ := ih (depthAfter depth t)
      simp only [List.cons_append, splitMembers_cons comma, same, edited]
      cases before with
      | nil => exact ⟨[], t :: x, y, after, rfl, rfl⟩
      | cons group before => exact ⟨(t :: group) :: before, x, y, after, rfl, rfl⟩

theorem stringsOf_insert (a b : List Token) :
    (stringsOf (a ++ (importTokens gap path ++ b))).Sublist (stringsOf (a ++ b)) := by
  obtain ⟨before, x, y, after, same, edited⟩ := splitMembers_insert gap path 0 a b
  have none : stringOf? (x ++ (importTokens gap path ++ y)) = none := by
    match x with
    | [] => rfl
    | [_] => rfl
    | [_, _] => rfl
    | _ :: _ :: _ :: x => cases x <;> rfl
  rw [stringsOf, stringsOf, same, edited, List.filterMap_append, List.filterMap_append,
    List.filterMap_cons_none none]
  exact List.Sublist.append_left ((List.sublist_cons_self _ _).filterMap _) _

/-! ### Items -/

/-- What an import line does to the items. -/
inductive ItemEdit (path : String) (is is' : List Item) : Prop where
  | near (h : List.Forall₂ (Item.Near SameTemplate) is is')
  | between {a b : List Item} {ts : List Token} {p : Bool} (before : is = a ++ b)
      (after : is' = a ++ (tokenItems (importTokens [] path) ++ b)) (parses : Parses p ts a)
      (apart : EndsApart ts)
  | inside {a b : List Item} {name : String} {values values' : List String}
      (before : is = a ++ .enum name values :: b) (after : is' = a ++ .enum name values' :: b)
      (fewer : values'.Sublist values)

theorem parses_insert {p : Bool} {ts : List Token} {is : List Item} (h : Parses p ts is)
    {a b : List Token} (split : ts = a ++ b) (apart : EndsApart a) (first : a = [] → p = false) :
    (∃ ia ib, is = ia ++ ib ∧ Parses p a ia ∧
        Parses p (a ++ (importTokens gap path ++ b))
          (ia ++ (tokenItems (importTokens gap path) ++ ib))) ∨
      ∃ ia ib name values values', is = ia ++ .enum name values :: ib ∧ values'.Sublist values ∧
        Parses p (a ++ (importTokens gap path ++ b)) (ia ++ .enum name values' :: ib) := by
  have ends (p : Bool) : endsInPoint p (importTokens gap path) = false := rfl
  -- in front of all tokens
  have front {p : Bool} {is : List Item} (h : Parses false b is) :
      Parses p (importTokens gap path ++ b) (tokenItems (importTokens gap path) ++ is) :=
    .behind_others isWord_enum_importTokens (by rw [ends]; exact h)
  induction h generalizing a with
  | nil =>
    obtain ⟨rfl, rfl⟩ := List.append_eq_nil_iff.1 split.symm
    exact .inl ⟨[], [], rfl, .nil, front .nil⟩
  | @enum p keyword name brace close body rest is starts balanced closes more ih =>
    obtain ⟨word, rfl, kind, opens⟩ := starts
    match a, split, apart, first with
    | [], split, _, _ =>
      rw [List.nil_append] at split
      subst split
      exact .inl ⟨[], _, rfl, .nil, front (.enum ⟨word, rfl, kind, opens⟩ balanced closes more)⟩
    | [_], split, apart, _ =>
      obtain ⟨rfl, -⟩ := List.cons.inj split
      exact absurd (Token.isWord_iff.1 word).1 apart.not_word
    | [_, _], split, apart, _ =>
      simp only [List.cons_append, List.nil_append, List.cons.injEq] at split
      obtain ⟨-, rfl, -⟩ := split
      exact absurd kind (EndsApart.behind (a := [_]) apart).not_word
    | _ :: _ :: _ :: a, split, apart, _ =>
      simp only [List.cons_append, List.cons.injEq] at split
      obtain ⟨rfl, rfl, rfl, split⟩ := split
      -- the line goes into the body, or behind the declaration
      obtain ⟨inner, rfl, rfl⟩ | ⟨later, rfl, rfl⟩ :
          (∃ inner, body = a ++ inner ∧ b = inner ++ close :: rest) ∨
            ∃ later, a = body ++ close :: later ∧ rest = later ++ b := by
        rcases List.append_eq_append_iff.1 split with ⟨c, rfl, closing⟩ | ⟨c, rfl, closing⟩
        · cases c with
          | nil => exact .inl ⟨[], by simp, by simpa using closing.symm⟩
          | cons d c =>
            obtain ⟨rfl, rfl⟩ := List.cons.inj closing
            exact .inr ⟨c, rfl, rfl⟩
        · exact .inl ⟨c, rfl, closing⟩
      · have balanced' : braces 0 (a ++ (importTokens gap path ++ inner)) = some 0 := by
          rw [braces_append] at balanced ⊢
          cases before : braces 0 a with
          | none => rw [before] at balanced; cases balanced
          | some depth =>
            rw [before] at balanced
            rw [Option.bind_some, braces_append, braces_importTokens]
            exact balanced
        have parses : Parses false (keyword :: name :: brace ::
            (a ++ (importTokens gap path ++ inner) ++ close :: rest)) _ :=
          .enum ⟨word, rfl, kind, opens⟩ balanced' closes more
        refine .inr ⟨[], is, name.name, _, stringsOf (a ++ (importTokens gap path ++ inner)), rfl,
          stringsOf_insert a inner, ?_⟩
        simpa using parses
      · have apart : EndsApart later :=
          (apart.behind (a := keyword :: name :: brace :: body)).tail
        rcases ih rfl apart fun _ => rfl with ⟨ia, ib, rfl, before, after⟩ |
          ⟨ia, ib, other, values, values', rfl, fewer, after⟩
        · have first := Parses.enum (p := false) ⟨word, rfl, kind, opens⟩ balanced closes before
          have whole := Parses.enum (p := false) ⟨word, rfl, kind, opens⟩ balanced closes after
          exact .inl ⟨_ :: ia, ib, rfl, first, by simpa using whole⟩
        · have whole := Parses.enum (p := false) ⟨word, rfl, kind, opens⟩ balanced closes after
          exact .inr ⟨_ :: ia, ib, other, values, values', rfl, fewer, by simpa using whole⟩
  | @token p t ts is other more ih =>
    cases a with
    | nil =>
      rw [List.nil_append] at split
      subst split
      obtain rfl := first rfl
      exact .inl ⟨[], _, rfl, .nil, front (.token other more)⟩
    | cons u a =>
      obtain ⟨rfl, rfl⟩ := List.cons.inj split
      have other' : ¬ StartsDecl p (t :: (a ++ (importTokens gap path ++ b))) := by
        match a with
        | [] =>
          rintro ⟨word, -⟩
          exact apart.not_word (Token.isWord_iff.1 word).1
        | [v] =>
          rintro ⟨-, -, -, opens⟩
          cases opens
        | v :: w :: a => exact other
      have first : a = [] → t.isMark '.' = false := by
        rintro rfl
        exact apart.not_point
      rcases ih rfl apart.tail first with ⟨ia, ib, rfl, before, after⟩ |
        ⟨ia, ib, name, values, values', rfl, fewer, after⟩
      · refine .inl ⟨.token t.bare :: ia, ib, rfl, .token ?_ before, .token other' after⟩
        exact fun starts => other (starts.append b)
      · exact .inr ⟨.token t.bare :: ia, ib, name, values, values', rfl, fewer,
          .token other' after⟩

theorem near_sameTemplate_of_bare_eq {ts ts' : List Token}
    (same : ts'.map Token.bare = ts.map Token.bare) :
    List.Forall₂ (Token.Near SameTemplate) ts ts' := by
  rw [← List.forall₂_eq_eq_eq, List.forall₂_map_left_iff, List.forall₂_map_right_iff] at same
  exact same.flip.imp fun t t' h =>
    { Token.near_of_bare_eq h.symm with
      literal := fun literal => congrArg _ ((Token.near_of_bare_eq h.symm).literal literal) }

/-- What an import line does to the items of a text. -/
theorem Parses.lineEdit {p : List Char} {ts ts' : List Token} {is : List Item}
    (h : Parses false ts is) (edit : LineEdit path p ts ts')
    (apart : ∀ a, ReadsAs p a → EndsApart a) :
    ∃ is', Parses false ts' is' ∧ ItemEdit path is is' := by
  have template : ∀ a b, SameTemplate a b → SameTemplate a b := fun _ _ same => same
  have self (t : Token) : t.Near SameTemplate t :=
    ⟨⟨rfl, fun _ _ => rfl, fun _ => rfl⟩, fun _ => rfl⟩
  have refl (ts : List Token) : List.Forall₂ (Token.Near SameTemplate) ts ts :=
    List.forall₂_same.2 fun t _ => self t
  cases edit with
  | within same =>
    obtain ⟨is', parses, near⟩ := h.near template (near_sameTemplate_of_bare_eq same)
    exact ⟨is', parses, .near near⟩
  | @literal a b l l' before after kind kind' same =>
    subst before after
    have changed : l.Near SameTemplate l' :=
      ⟨⟨kind'.trans kind.symm, fun _ other => absurd kind other, fun _ => same⟩,
        fun word => by rw [kind] at word; cases word⟩
    obtain ⟨is', parses, near⟩ := h.near template
      (List.rel_append (refl a) (.cons changed (refl b)))
    exact ⟨is', parses, .near near⟩
  | @between a b b' gap before after same reads =>
    subst before after
    have bare : (a ++ (importTokens gap path ++ b)).map Token.bare =
        (a ++ (importTokens gap path ++ b')).map Token.bare := by
      simp [same]
    rcases parses_insert h rfl (apart a reads) fun _ => rfl with
      ⟨ia, ib, rfl, first, parses⟩ | ⟨ia, ib, name, values, values', rfl, fewer, parses⟩
    · exact ⟨_, parses.of_bare_eq bare, .between rfl rfl first (apart a reads)⟩
    · exact ⟨_, parses.of_bare_eq bare, .inside rfl rfl fewer⟩
  | @glued a t t' before after text kind solid reads =>
    subst before
    have last : EndsApart [t] := (apart _ reads).behind
    rcases solid with word | number
    · exact absurd word last.not_word
    · rcases last t rfl with other | ⟨other, -⟩ <;> rw [number] at other <;> cases other

end OpenApiModels.Retyping
