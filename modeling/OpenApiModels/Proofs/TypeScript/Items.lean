import OpenApiModels.Proofs.TypeScript.Renaming
import OpenApiModels.Proofs.TypeScript.Resemblance

/-!
# Tokens around enum declarations

A scan for enums parses the tokens of a text: into single tokens, and into declarations of which
only the name and the string values matter (`parses_of_enumDecls`, `Parses.enumDecls`). Changes of
tokens are followed on what they are parsed into.
-/

namespace OpenApiModels.TypeScript

open Text

/-- What a scan for enums sees. -/
inductive Item where
  | token (t : Token)
  | enum (name : String) (values : List String)
deriving DecidableEq

/-- The name and the string values of each declaration. -/
def enumsIn : List Item → List (String × List String)
  | [] => []
  | .token _ :: rest => enumsIn rest
  | .enum name values :: rest => (name, values) :: enumsIn rest

theorem enumsIn_append (a b : List Item) : enumsIn (a ++ b) = enumsIn a ++ enumsIn b := by
  induction a with
  | nil => rfl
  | cons item a ih => cases item <;> simp [enumsIn, ih]

theorem mem_enumsIn {name : String} {values : List String} {is : List Item} :
    (name, values) ∈ enumsIn is ↔ Item.enum name values ∈ is := by
  induction is with
  | nil => simp [enumsIn]
  | cons item is ih => cases item <;> simp [enumsIn, ih]

/-- Tokens outside of declarations. -/
def tokenItems (ts : List Token) : List Item :=
  ts.map fun t => .token t.bare

@[simp] theorem tokenItems_nil : tokenItems [] = [] := rfl

@[simp] theorem tokenItems_cons (t : Token) (ts : List Token) :
    tokenItems (t :: ts) = .token t.bare :: tokenItems ts := rfl

@[simp] theorem tokenItems_append (a b : List Token) :
    tokenItems (a ++ b) = tokenItems a ++ tokenItems b :=
  List.map_append

@[simp] theorem enumsIn_tokenItems (ts : List Token) : enumsIn (tokenItems ts) = [] := by
  induction ts with
  | nil => rfl
  | cons t ts ih => exact ih

/-- The items that tokens are parsed into, of which the first may stand behind a point. -/
inductive Parses : Bool → List Token → List Item → Prop where
  | nil {p : Bool} : Parses p [] []
  | enum {p : Bool} {keyword name brace close : Token} {body rest : List Token} {is : List Item}
      (starts : StartsDecl p (keyword :: name :: brace :: (body ++ close :: rest)))
      (balanced : braces 0 body = some 0) (closes : close.isMark '\x7d' = true)
      (more : Parses false rest is) :
      Parses p (keyword :: name :: brace :: (body ++ close :: rest))
        (.enum name.name (stringsOf body) :: is)
  | token {p : Bool} {t : Token} {ts : List Token} {is : List Item}
      (other : ¬ StartsDecl p (t :: ts)) (more : Parses (t.isMark '.') ts is) :
      Parses p (t :: ts) (.token t.bare :: is)

/-! ### Scans -/

/-- What a scan finds are the declarations among the items. -/
theorem parses_of_enumDecls {before ts : List Token} {decls : List EnumDecl}
    (h : enumDecls before ts = .ok decls) :
    ∃ is, Parses (before.head?.any (·.isMark '.')) ts is ∧
      enumsIn is = decls.map fun d => (d.name, d.strings) := by
  fun_induction enumDecls before ts generalizing decls with
  | case1 => cases h
  | case2 => cases h
  | case3 =>
    rename_i before keyword name brace ts isEnum body close rest split _ modifiers decls more ih
    cases h
    obtain ⟨is, parses, same⟩ := ih more
    obtain ⟨rfl, closes, balanced⟩ := splitBody_iff.1 split
    obtain ⟨word, point, kind, opens⟩ := isEnum
    have parses : Parses false rest is := by
      simpa [Token.isMark_eq_false closes] using parses
    refine ⟨_, .enum ⟨word, by simpa using point, kind, opens⟩ balanced closes parses, ?_⟩
    rw [enumsIn, same, List.map_cons, EnumDecl.strings_ofTokens]
    rfl
  | case4 before keyword name brace rest notEnum ih =>
    obtain ⟨is, parses, same⟩ := ih h
    refine ⟨_, .token ?_ parses, same⟩
    rintro ⟨word, point, kind, opens⟩
    exact notEnum ⟨word, by simpa using point, kind, opens⟩
  | case5 before ts short =>
    cases h
    refine ⟨tokenItems ts, ?_, by simp⟩
    rcases ts with - | ⟨t, - | ⟨u, - | ⟨v, ts⟩⟩⟩
    · exact .nil
    · exact .token id .nil
    · exact .token id (.token id .nil)
    · exact absurd rfl (short t u v ts)

theorem enumDecls_short {before ts : List Token} (h : ts.length < 3) :
    enumDecls before ts = .ok [] := by
  match ts with
  | [] | [_] | [_, _] => rw [enumDecls.eq_2]; simp
  | _ :: _ :: _ :: _ => simp only [List.length_cons] at h; omega

/-- What a declaration adds to a scan. -/
theorem enumDecls_enum {before : List Token} {keyword name brace close : Token}
    {body rest : List Token}
    (starts : StartsDecl (before.head?.any (·.isMark '.'))
      (keyword :: name :: brace :: (body ++ close :: rest)))
    (balanced : braces 0 body = some 0) (closes : close.isMark '\x7d' = true)
    {decls : List EnumDecl} (scanned : enumDecls [close] rest = .ok decls) :
    enumDecls before (keyword :: name :: brace :: (body ++ close :: rest)) =
      .ok (.ofTokens (before.takeWhile Token.isModifier).reverse keyword name brace body close ::
        decls) := by
  obtain ⟨word, point, kind, opens⟩ := starts
  rw [enumDecls, if_pos ⟨word, by simpa using point, kind, opens⟩]
  split
  · rename_i unclosed
    rw [splitBody_iff.2 ⟨rfl, closes, balanced⟩] at unclosed
    cases unclosed
  · rename_i found
    rw [splitBody_iff.2 ⟨rfl, closes, balanced⟩] at found
    cases found
    rw [scanned]

/-- A scan passes a token at which no declaration starts. -/
theorem enumDecls_token {before : List Token} {t : Token} {ts : List Token}
    (other : ¬ StartsDecl (before.head?.any (·.isMark '.')) (t :: ts)) :
    enumDecls before (t :: ts) = enumDecls (t :: before) ts := by
  rcases ts with - | ⟨u, - | ⟨v, ts⟩⟩
  · rw [enumDecls_short (by simp), enumDecls_short (by simp)]
  · rw [enumDecls_short (by simp), enumDecls_short (by simp)]
  · rw [enumDecls, if_neg]
    rintro ⟨word, notPoint, kind, opens⟩
    exact other ⟨word, by simpa using notPoint, kind, opens⟩

theorem Parses.enumDecls {p : Bool} {ts : List Token} {is : List Item} (h : Parses p ts is)
    {before : List Token} (point : before.head?.any (·.isMark '.') = p) :
    ∃ decls, TypeScript.enumDecls before ts = .ok decls ∧
      decls.map (fun d => (d.name, d.strings)) = enumsIn is := by
  induction h generalizing before with
  | nil => exact ⟨[], enumDecls_short (by simp), rfl⟩
  | @enum p keyword name brace close body rest is starts balanced closes _ ih =>
    have behind : [close].head?.any (·.isMark '.') = false := by
      simp [Token.isMark_eq_false closes]
    obtain ⟨decls, scanned, same⟩ := ih behind
    refine ⟨_, enumDecls_enum (point ▸ starts) balanced closes scanned, ?_⟩
    rw [List.map_cons, same, EnumDecl.strings_ofTokens]
    rfl
  | @token p t ts is other _ ih =>
    obtain ⟨decls, scanned, same⟩ := ih (show (t :: before).head?.any (·.isMark '.') = _ from rfl)
    exact ⟨decls, by rw [enumDecls_token (point ▸ other), scanned], same⟩

/-! ### Tokens in a row -/

theorem parses_of_plain {p : Bool} {ts : List Token} (plain : Plain p ts) :
    Parses p ts (tokenItems ts) := by
  induction ts generalizing p with
  | nil => exact .nil
  | cons t ts ih =>
    obtain ⟨first, rest⟩ := plain_cons.1 plain
    exact .token first (ih rest)

/-- Tokens with which no declaration starts are parsed one by one. -/
theorem Parses.behind {p : Bool} {ts more : List Token} {is : List Item}
    (other : ∀ a t b, ts = a ++ t :: b → ¬ StartsDecl (endsInPoint p a) (t :: (b ++ more)))
    (h : Parses (endsInPoint p ts) more is) : Parses p (ts ++ more) (tokenItems ts ++ is) := by
  induction ts generalizing p with
  | nil => exact h
  | cons t ts ih =>
    rw [endsInPoint_cons] at h
    refine .token (other [] t ts rfl) (ih (fun a u b at_ => ?_) h)
    rw [← endsInPoint_cons p]
    exact other (t :: a) u b (by rw [at_]; rfl)

/-- No brace that opens a declaration is among the first two tokens. -/
def NoOpening (ts : List Token) : Prop :=
  ∀ t ∈ ts.take 2, t.isMark '\x7b' = false

theorem Parses.behind_plain {p : Bool} {ts more : List Token} {is : List Item}
    (plain : Plain p ts) (noOpening : NoOpening more)
    (h : Parses (endsInPoint p ts) more is) : Parses p (ts ++ more) (tokenItems ts ++ is) := by
  refine .behind (fun a t b at_ starts => ?_) h
  have inside := plain a t b at_
  match b, more, noOpening, starts with
  | _ :: _ :: _, _, _, starts => exact inside starts
  | [_], u :: _, noOpening, ⟨_, _, _, opens⟩ =>
    rw [noOpening u (by simp)] at opens
    cases opens
  | [], _ :: u :: _, noOpening, ⟨_, _, _, opens⟩ =>
    rw [noOpening u (by simp)] at opens
    cases opens

theorem not_startsDecl {p : Bool} {t : Token} (h : t.isWord "enum" = false) (ts : List Token) :
    ¬ StartsDecl p (t :: ts) := by
  match ts with
  | [] | [_] => exact id
  | _ :: _ :: _ =>
    rintro ⟨word, -⟩
    rw [h] at word
    cases word

theorem Parses.behind_others {p : Bool} {ts more : List Token} {is : List Item}
    (others : ∀ t ∈ ts, t.isWord "enum" = false)
    (h : Parses (endsInPoint p ts) more is) : Parses p (ts ++ more) (tokenItems ts ++ is) :=
  .behind (fun a t b at_ => not_startsDecl (others t (at_ ▸ by simp)) _) h

theorem plain_of_append {p : Bool} {a b : List Token} (h : Plain p (a ++ b)) : Plain p a :=
  fun x t y at_ starts => h x t (y ++ b) (by rw [at_]; simp) (starts.append b)

/-! ### Other gaps and other literals -/

/-- Tokens that differ in their gaps only, or in literals that `R` relates. -/
structure Token.Near (R : List Char → List Char → Prop) (t t' : Token) : Prop
    extends t.Resembles R t' where
  word : t.kind = .word → t'.text = t.text

/-- Items of tokens that are near each other. -/
inductive Item.Near (R : List Char → List Char → Prop) : Item → Item → Prop where
  | token {t t' : Token} (h : t.Near R t') : Item.Near R (.token t.bare) (.token t'.bare)
  | enum {name : String} {values values' : List String}
      (h : List.Forall₂ (ValuesBy R) values values') :
      Item.Near R (.enum name values) (.enum name values')

section Near

variable {R : List Char → List Char → Prop}

theorem Token.Near.isWord {t t' : Token} (h : t.Near R t') (word : String) :
    t'.isWord word = t.isWord word := by
  by_cases isWord : t.kind = .word
  · simp [Token.isWord, h.kind, h.word isWord]
  · have differ : (t.kind == TokenKind.word) = false := by simpa using isWord
    simp [Token.isWord, h.kind, differ]

theorem startsDecl_near {p : Bool} {ts ts' : List Token} (h : List.Forall₂ (Token.Near R) ts ts') :
    StartsDecl p ts' ↔ StartsDecl p ts := by
  match ts, ts', h with
  | [], _, .nil => rfl
  | [_], _, .cons _ .nil => rfl
  | [_, _], _, .cons _ (.cons _ .nil) => rfl
  | _ :: _ :: _ :: _, _, .cons keyword (.cons name (.cons brace _)) =>
    simp only [StartsDecl, keyword.isWord, name.kind, brace.isMark]

theorem Parses.near (template : ∀ a b, R a b → SameTemplate a b) {p : Bool} {ts ts' : List Token}
    {is : List Item} (h : Parses p ts is) (near : List.Forall₂ (Token.Near R) ts ts') :
    ∃ is', Parses p ts' is' ∧ List.Forall₂ (Item.Near R) is is' := by
  induction h generalizing ts' with
  | nil =>
    cases near
    exact ⟨[], .nil, .nil⟩
  | @enum p keyword name brace close body rest is starts balanced closes _ ih =>
    have starts' := (startsDecl_near near).2 starts
    obtain _ | ⟨nearKeyword, _ | ⟨nearName, _ | ⟨nearBrace, tail⟩⟩⟩ := near
    obtain ⟨body', _, rfl, bodies, _ | ⟨nearClose, rests⟩⟩ := forall₂_append_left tail
    obtain ⟨is', parses, items⟩ := ih rests
    have resembles : List.Forall₂ (Token.Resembles R) body body' :=
      bodies.imp fun _ _ h => h.toResembles
    refine ⟨_, .enum starts' ?_ ((nearClose.isMark _).trans closes) parses, .cons ?_ items⟩
    · rw [braces_resembles resembles, balanced]
    · have same : Token.name _ = name.name := congrArg String.ofList (nearName.word starts.2.2.1)
      rw [same]
      exact .enum (stringsOf_resembles template resembles)
  | @token p t ts is other _ ih =>
    have other' := fun starts => other ((startsDecl_near near).1 starts)
    obtain _ | ⟨first, rest⟩ := near
    obtain ⟨is', parses, items⟩ := ih rest
    exact ⟨_, .token other' (first.isMark _ ▸ parses), .cons (.token first) items⟩

theorem Token.near_of_bare_eq {t t' : Token} (h : t.bare = t'.bare) : t.Near Eq t' where
  toResembles := resembles_of_bare_eq h
  word := fun _ => (bare_eq_iff.1 h).2.symm

theorem Token.near_eq_iff {t t' : Token} : t.Near Eq t' ↔ t.bare = t'.bare := by
  refine ⟨fun h => bare_eq_iff.2 ⟨h.kind.symm, ?_⟩, near_of_bare_eq⟩
  by_cases word : t.kind = .word
  · exact (h.word word).symm
  by_cases literal : t.kind = .literal
  · exact h.literal literal
  · exact (h.text word literal).symm

/-- Gaps and offsets do not matter to the items. -/
theorem Parses.of_bare_eq {p : Bool} {ts ts' : List Token} {is : List Item} (h : Parses p ts is)
    (same : ts.map Token.bare = ts'.map Token.bare) : Parses p ts' is := by
  have near : List.Forall₂ (Token.Near Eq) ts ts' := by
    rw [← List.forall₂_eq_eq_eq, List.forall₂_map_left_iff, List.forall₂_map_right_iff] at same
    exact same.imp fun t t' => Token.near_of_bare_eq
  obtain ⟨is', parses, items⟩ := h.near (fun a b same => congrArg _ same) near
  have eq : List.Forall₂ Eq is is' := items.imp fun item item' related => by
    cases related with
    | token h => exact congrArg Item.token (Token.near_eq_iff.1 h)
    | enum h => exact congrArg (Item.enum _) (eq_of_valuesBy_eq h)
  rw [List.forall₂_eq_eq_eq] at eq
  exact eq ▸ parses

end Near

/-! ### Other names -/

/-- The items with their names replaced. -/
def renameItems (renames : List Rename) (afterPoint : Bool) : List Item → List Item
  | [] => []
  | .token t :: rest =>
    .token (t.renameName renames afterPoint) :: renameItems renames (t.isMark '.') rest
  | .enum name values :: rest =>
    .enum (renamed renames name) values :: renameItems renames false rest

section Rename

variable {renames : List Rename}

theorem enumsIn_renameItems (afterPoint : Bool) (is : List Item) :
    enumsIn (renameItems renames afterPoint is) =
      (enumsIn is).map fun (name, values) => (renamed renames name, values) := by
  induction is generalizing afterPoint with
  | nil => rfl
  | cons item is ih => cases item <;> simp [renameItems, enumsIn, ih]

theorem Token.renameName_of_kind_ne {t : Token} (h : t.kind ≠ .word) (afterPoint : Bool) :
    t.renameName renames afterPoint = t :=
  if_neg fun both => h both.1

theorem Token.resembles_renameName (t : Token) (afterPoint : Bool) :
    t.Resembles Eq (t.renameName renames afterPoint) where
  kind := kind_renameName
  text := fun notWord _ => by rw [renameName_of_kind_ne notWord]
  literal := fun literal => by rw [renameName_of_kind_ne (by simp [literal])]

theorem resembles_renameTokens (afterPoint : Bool) (ts : List Token) :
    List.Forall₂ (Token.Resembles Eq) ts (renameTokens renames afterPoint ts) := by
  induction ts generalizing afterPoint with
  | nil => exact .nil
  | cons t ts ih => exact .cons (t.resembles_renameName afterPoint) (ih _)

theorem Token.bare_renameName (t : Token) (afterPoint : Bool) :
    (t.renameName renames afterPoint).bare = t.bare.renameName renames afterPoint := by
  by_cases follows : t.kind = .word ∧ (!afterPoint) = true
  · have follows' : t.bare.kind = .word ∧ (!afterPoint) = true := follows
    rw [renameName, renameName, if_pos follows, if_pos follows']
    rfl
  · have stays : ¬ (t.bare.kind = .word ∧ (!afterPoint) = true) := follows
    rw [renameName, renameName, if_neg follows, if_neg stays]

/-- The keyword `enum` is neither renamed nor the new name of another one. -/
def KeepsEnum (renames : List Rename) : Prop :=
  ∀ name, renamed renames name = "enum" ↔ name = "enum"

theorem Token.isWord_enum_renameName (keeps : KeepsEnum renames) (t : Token) (afterPoint : Bool) :
    (t.renameName renames afterPoint).isWord "enum" = t.isWord "enum" := by
  unfold renameName
  split
  · rename_i word
    have same : ((renamed renames t.name).toList == "enum".toList) =
        (t.text == "enum".toList) := by
      rw [Bool.eq_iff_iff, beq_iff_eq, beq_iff_eq, String.toList_inj, keeps, name,
        ← String.toList_inj, String.toList_ofList]
    simp only [isWord, word.1, same]
  · rfl

theorem startsDecl_renameTokens (keeps : KeepsEnum renames) {p : Bool} (afterPoint : Bool)
    (ts : List Token) : StartsDecl p (renameTokens renames afterPoint ts) ↔ StartsDecl p ts := by
  match ts with
  | [] | [_] | [_, _] => rfl
  | _ :: _ :: _ :: _ =>
    simp only [renameTokens_cons, StartsDecl, Token.isWord_enum_renameName keeps,
      Token.kind_renameName, Token.isMark_renameName]

theorem Parses.rename (keeps : KeepsEnum renames) {p : Bool} {ts : List Token} {is : List Item}
    (h : Parses p ts is) :
    Parses p (renameTokens renames p ts) (renameItems renames p is) := by
  induction h with
  | nil => exact .nil
  | @enum p keyword name brace close body rest is starts balanced closes _ ih =>
    have starts' := (startsDecl_renameTokens keeps p _).2 starts
    obtain ⟨word, rfl, kind, opens⟩ := starts
    have notPoint : keyword.isMark '.' = false := by
      simp [Token.isMark, (Token.isWord_iff.1 word).1]
    have closeNotPoint : close.isMark '.' = false := Token.isMark_eq_false closes (by decide)
    simp only [renameTokens_cons, renameTokens_append, closeNotPoint] at starts' ⊢
    have body' : List.Forall₂ (Token.Resembles Eq) body
        (renameTokens renames (brace.isMark '.') body) := resembles_renameTokens _ body
    have same : (name.renameName renames (keyword.isMark '.')).name = renamed renames name.name := by
      rw [notPoint, Token.name, Token.text_renameName kind, String.ofList_toList]
    rw [renameItems, ← same, stringsOf_eq_of_resembles body']
    exact .enum starts' (by rw [braces_resembles body', balanced])
      ((Token.isMark_renameName _).trans closes) ih
  | @token p t ts is other _ ih =>
    have other' := fun starts => other ((startsDecl_renameTokens keeps p _).1 starts)
    rw [renameTokens_cons] at other' ⊢
    rw [renameItems, ← Token.bare_renameName]
    exact .token other' (by rw [Token.isMark_renameName]; exact ih)

end Rename

end OpenApiModels.TypeScript
