import Mathlib.Data.List.Forall2
import OpenApiModels.Proofs.TypeScript.Declarations

/-!
# Tokens that resemble each other

Where a declaration ends and which string values it has does not depend on gaps, on offsets or on
names (`stringsOf_resembles`).
-/

namespace OpenApiModels.TypeScript

open Text

/-- What is related to two lists in a row are two lists in a row. -/
theorem forall₂_append_left {α β : Type} {r : α → β → Prop} {a b : List α} {c : List β}
    (h : List.Forall₂ r (a ++ b) c) :
    ∃ a' b', c = a' ++ b' ∧ List.Forall₂ r a a' ∧ List.Forall₂ r b b' := by
  induction a generalizing c with
  | nil => exact ⟨[], c, rfl, .nil, h⟩
  | cons x a ih =>
    obtain _ | ⟨first, more⟩ := h
    obtain ⟨a', b', rfl, before, after⟩ := ih more
    exact ⟨_ :: a', b', rfl, .cons first before, after⟩

/-! ### Tokens that differ in details -/

namespace Token

/-- The token differs at most in its gap, in its name if it is a word, and if it is a literal in
a text that `R` relates to the one before. -/
structure Resembles (R : List Char → List Char → Prop) (t t' : Token) : Prop where
  kind : t'.kind = t.kind
  text : t.kind ≠ .word → t.kind ≠ .literal → t'.text = t.text
  literal : t.kind = .literal → R t.text t'.text

variable {R : List Char → List Char → Prop} {t t' : Token}

theorem Resembles.isMark (h : t.Resembles R t') (c : Char) : t'.isMark c = t.isMark c := by
  by_cases mark : t.kind = .mark
  · have text := h.text (by simp [mark]) (by simp [mark])
    simp [Token.isMark, h.kind, text]
  · have differ : (t.kind == TokenKind.mark) = false := by simpa using mark
    simp [Token.isMark, h.kind, differ]

/-- The token without its gap and its offset. -/
def bare (t : Token) : Token :=
  { t with gap := [], start := 0 }

theorem bare_eq_iff : t.bare = t'.bare ↔ t.kind = t'.kind ∧ t.text = t'.text := by
  obtain ⟨gap, kind, text, start⟩ := t
  obtain ⟨gap', kind', text', start'⟩ := t'
  simp [bare]

theorem resembles_of_bare_eq (h : t.bare = t'.bare) : t.Resembles Eq t' := by
  obtain ⟨kind, text⟩ := bare_eq_iff.1 h
  exact ⟨kind.symm, fun _ _ => text.symm, fun _ => text⟩

@[simp] theorem kind_bare : t.bare.kind = t.kind := rfl

@[simp] theorem text_bare : t.bare.text = t.text := rfl

end Token

theorem map_bare_rebase (offset : Nat) (ts : List Token) :
    (rebase offset ts).map Token.bare = ts.map Token.bare := by
  induction ts generalizing offset with
  | nil => rfl
  | cons t ts ih =>
    rw [rebase, List.map_cons, List.map_cons, ih]
    rfl

/-- Literals that a substitution starts in, or none of them. -/
def SameTemplate (a b : List Char) : Prop :=
  containsText ['$', '\x7b'] a = containsText ['$', '\x7b'] b

/-! ### Members -/

section Members

variable {R : List Char → List Char → Prop}

/-- How many braces are open behind a token, unless it closes one that was not opened. -/
def braceAfter (depth : Nat) (t : Token) : Option Nat :=
  if t.isMark '\x7d' then
    match depth with
    | 0 => none
    | depth + 1 => some depth
  else some (if t.isMark '\x7b' then depth + 1 else depth)

def braces (depth : Nat) (ts : List Token) : Option Nat :=
  ts.foldlM braceAfter depth

theorem braces_cons (depth : Nat) (t : Token) (ts : List Token) :
    braces depth (t :: ts) = (braceAfter depth t).bind fun depth => braces depth ts := rfl

theorem braces_append (depth : Nat) (a b : List Token) :
    braces depth (a ++ b) = (braces depth a).bind fun depth => braces depth b :=
  List.foldlM_append

theorem braces_of_noBrace {ts : List Token}
    (h : ∀ t ∈ ts, t.isMark '\x7b' = false ∧ t.isMark '\x7d' = false) (depth : Nat) :
    braces depth ts = some depth := by
  induction ts with
  | nil => rfl
  | cons t ts ih =>
    obtain ⟨first, others⟩ := List.forall_mem_cons.1 h
    have same : braceAfter depth t = some depth := by simp [braceAfter, first]
    rw [braces_cons, same, Option.bind_some, ih others]

theorem braceAfter_eq_none_iff {depth : Nat} {t : Token} :
    braceAfter depth t = none ↔ depth = 0 ∧ t.isMark '\x7d' = true := by
  unfold braceAfter
  split
  · rename_i isClose
    cases depth <;> simp [isClose]
  · rename_i notClose
    simp [notClose]

theorem splitBody_cons {depth next : Nat} {t : Token} (h : braceAfter depth t = some next)
    (ts : List Token) : splitBody (depth + 1) (t :: ts) =
      (splitBody (next + 1) ts).map fun (body, close, rest) => (t :: body, close, rest) := by
  rw [splitBody.eq_def]
  dsimp only
  unfold braceAfter at h
  split at h
  · rename_i isClose
    rw [if_pos isClose]
    cases depth with
    | zero => cases h
    | succ depth =>
      obtain rfl := Option.some.inj h
      rfl
  · rename_i notClose
    rw [if_neg notClose, ← Option.some.inj h]
    split <;> rfl

theorem splitBody_close {t : Token} (h : t.isMark '\x7d' = true) (ts : List Token) :
    splitBody 1 (t :: ts) = some ([], t, ts) := by
  rw [splitBody, if_pos h]

/-- A body goes up to the first brace that closes what was not opened in it. -/
theorem splitBody_iff {depth : Nat} {ts body rest : List Token} {close : Token} :
    splitBody (depth + 1) ts = some (body, close, rest) ↔
      ts = body ++ close :: rest ∧ close.isMark '\x7d' = true ∧ braces depth body = some 0 := by
  induction ts generalizing depth body with
  | nil => simp [splitBody]
  | cons t ts ih =>
    cases after : braceAfter depth t with
    | none =>
      obtain ⟨rfl, isClose⟩ := braceAfter_eq_none_iff.1 after
      rw [splitBody_close isClose]
      constructor
      · intro h
        cases h
        exact ⟨rfl, isClose, rfl⟩
      · rintro ⟨tiles, -, balanced⟩
        cases body with
        | nil => rw [List.nil_append] at tiles; cases tiles; rfl
        | cons u body =>
          obtain ⟨rfl, -⟩ := List.cons.inj tiles
          rw [braces_cons, after] at balanced
          cases balanced
    | some next =>
      rw [splitBody_cons after]
      simp only [Option.map_eq_some_iff, Prod.exists, Prod.mk.injEq]
      constructor
      · rintro ⟨inner, _, _, found, rfl, rfl, rfl⟩
        obtain ⟨rfl, closes, balanced⟩ := ih.1 found
        refine ⟨rfl, closes, ?_⟩
        rw [braces_cons, after]
        exact balanced
      · rintro ⟨tiles, closes, balanced⟩
        cases body with
        | nil =>
          obtain ⟨rfl, rfl⟩ := List.cons.inj tiles
          obtain rfl : depth = 0 := Option.some.inj balanced
          rw [braceAfter_eq_none_iff.2 ⟨rfl, closes⟩] at after
          cases after
        | cons u body =>
          obtain ⟨rfl, rfl⟩ := List.cons.inj tiles
          rw [braces_cons, after] at balanced
          exact ⟨body, close, rest, ih.2 ⟨rfl, closes, balanced⟩, rfl, rfl, rfl⟩

theorem braces_resembles {ts ts' : List Token} (h : List.Forall₂ (Token.Resembles R) ts ts')
    (depth : Nat) : braces depth ts' = braces depth ts := by
  induction h generalizing depth with
  | nil => rfl
  | @cons t t' ts ts' first _ ih =>
    have step : braceAfter depth t' = braceAfter depth t := by
      simp only [braceAfter, first.isMark]
    rw [braces_cons, braces_cons, step]
    exact congrArg _ (funext ih)

/-- The value of the member that a group of tokens gives, if it is a string. -/
def stringOf? : List Token → Option String
  | [_, eq, literal] =>
    if eq.isMark '=' ∧ literal.kind = .literal ∧ !containsText ['$', '\x7b'] literal.text then
      some (String.ofList (unquote literal.text))
    else none
  | _ => none

theorem string?_memberValue (ts : List Token) : (memberValue ts).string? =
    match ts with
    | [t] =>
      if t.kind = .literal ∧ !containsText ['$', '\x7b'] t.text then
        some (String.ofList (unquote t.text))
      else none
    | _ => none := by
  match ts with
  | [] => rfl
  | [t] =>
    simp only [memberValue]
    split
    · rfl
    split <;> rfl
  | [t, u] =>
    simp only [memberValue]
    split <;> rfl
  | t :: u :: v :: ts => rfl

theorem string?_member? (group : List Token) :
    ((member? group).bind fun m => m.value.string?) = stringOf? group := by
  match group with
  | [] => rfl
  | [first] => rfl
  | first :: t :: ts =>
    have value : ((member? (first :: t :: ts)).bind fun m => m.value.string?) =
        if t.isMark '=' = true then (memberValue ts).string? else none := by
      simp only [member?]
      split <;> rfl
    rw [value, string?_memberValue]
    match ts with
    | [] => simp [stringOf?]
    | [u] =>
      simp only [stringOf?]
      by_cases assigned : t.isMark '=' = true
      · rw [if_pos assigned]
        simp only [assigned, true_and]
      · rw [if_neg assigned, if_neg fun h => assigned h.1]
    | u :: v :: ts => simp [stringOf?]

/-- The string values of the members that the tokens between the braces give. -/
def stringsOf (body : List Token) : List String :=
  (splitMembers 0 body).filterMap stringOf?

theorem EnumDecl.strings_ofTokens (modifiers : List Token) (keyword name brace : Token)
    (body : List Token) (close : Token) :
    (EnumDecl.ofTokens modifiers keyword name brace body close).strings = stringsOf body := by
  rw [EnumDecl.strings, EnumDecl.ofTokens, membersOf, List.filterMap_filterMap, stringsOf]
  exact List.filterMap_congr fun group _ => string?_member? group

theorem splitMembers_ne_nil (depth : Nat) (ts : List Token) : splitMembers depth ts ≠ [] := by
  obtain ⟨group, y, -, ⟨-, eq⟩ | ⟨comma, rest, -, -, eq⟩⟩ := splitMembers_spec depth ts
  · rw [eq]
    exact List.cons_ne_nil _ _
  · rw [eq]
    exact List.cons_ne_nil _ _

/-- The groups with another token in front of the first one. -/
def consGroup (t : Token) : List (List Token) → List (List Token)
  | [] => [[t]]
  | group :: groups => (t :: group) :: groups

theorem splitMembers_cons_comma {t : Token} (h : t.isMark ',' = true) (ts : List Token) :
    splitMembers 0 (t :: ts) = [] :: splitMembers 0 ts := by
  rw [splitMembers, if_pos ⟨h, rfl⟩]

/-- How many brackets are open behind a token. -/
def depthAfter (depth : Nat) (t : Token) : Nat :=
  if t.isMark '(' || t.isMark '[' || t.isMark '\x7b' then depth + 1
  else if t.isMark ')' || t.isMark ']' || t.isMark '\x7d' then depth - 1 else depth

theorem splitMembers_cons {depth : Nat} {t : Token} (h : ¬ (t.isMark ',' = true ∧ depth = 0))
    (ts : List Token) :
    splitMembers depth (t :: ts) = consGroup t (splitMembers (depthAfter depth t) ts) := by
  rw [splitMembers, if_neg h]
  rfl

theorem splitMembers_resembles {ts ts' : List Token}
    (h : List.Forall₂ (Token.Resembles R) ts ts') (depth : Nat) :
    List.Forall₂ (List.Forall₂ (Token.Resembles R)) (splitMembers depth ts)
      (splitMembers depth ts') := by
  induction h generalizing depth with
  | nil => exact .cons .nil .nil
  | @cons t t' ts ts' first more ih =>
    by_cases comma : t.isMark ',' = true ∧ depth = 0
    · obtain ⟨isComma, rfl⟩ := comma
      rw [splitMembers_cons_comma isComma,
        splitMembers_cons_comma ((first.isMark _).trans isComma)]
      exact .cons .nil (ih 0)
    · have same : depthAfter depth t' = depthAfter depth t := by
        simp only [depthAfter, first.isMark]
      rw [splitMembers_cons comma, splitMembers_cons (by rw [first.isMark]; exact comma), same]
      have groups := ih (depthAfter depth t)
      revert groups
      generalize splitMembers (depthAfter depth t) ts = a
      generalize splitMembers (depthAfter depth t) ts' = b
      intro groups
      cases groups with
      | nil => exact .cons (.cons first .nil) .nil
      | cons group rest => exact .cons (.cons first group) rest

/-- Values of literals that `R` relates. -/
def ValuesBy (R : List Char → List Char → Prop) (v v' : String) : Prop :=
  ∃ l l', R l l' ∧ v = String.ofList (unquote l) ∧ v' = String.ofList (unquote l')

theorem stringOf?_resembles (template : ∀ a b, R a b → SameTemplate a b) {group group' : List Token}
    (h : List.Forall₂ (Token.Resembles R) group group') :
    (stringOf? group = none ∧ stringOf? group' = none) ∨
      ∃ v v', stringOf? group = some v ∧ stringOf? group' = some v' ∧ ValuesBy R v v' := by
  match group, group', h with
  | [], _, .nil => exact .inl ⟨rfl, rfl⟩
  | [_], _, .cons _ .nil => exact .inl ⟨rfl, rfl⟩
  | [_, _], _, .cons _ (.cons _ .nil) => exact .inl ⟨rfl, rfl⟩
  | [_, eq, literal], [_, eq', literal'], .cons _ (.cons same (.cons value .nil)) =>
    simp only [stringOf?, same.isMark, value.kind]
    by_cases string : literal.kind = .literal
    · have related := value.literal string
      have both : containsText ['$', '\x7b'] literal'.text =
          containsText ['$', '\x7b'] literal.text := (template _ _ related).symm
      rw [both]
      split
      · exact .inr ⟨_, _, rfl, rfl, literal.text, literal'.text, related, rfl, rfl⟩
      · exact .inl ⟨rfl, rfl⟩
    · exact .inl ⟨if_neg fun h => string h.2.1, if_neg fun h => string h.2.1⟩
  | _ :: _ :: _ :: _ :: _, _, .cons _ (.cons _ (.cons _ (.cons _ _))) => exact .inl ⟨rfl, rfl⟩

theorem stringsOf_resembles (template : ∀ a b, R a b → SameTemplate a b) {body body' : List Token}
    (h : List.Forall₂ (Token.Resembles R) body body') :
    List.Forall₂ (ValuesBy R) (stringsOf body) (stringsOf body') := by
  have groups := splitMembers_resembles h 0
  simp only [stringsOf]
  revert groups
  generalize splitMembers 0 body = a
  generalize splitMembers 0 body' = b
  intro groups
  induction groups with
  | nil => exact .nil
  | cons group _ ih =>
    rcases stringOf?_resembles template group with ⟨none, none'⟩ | ⟨v, v', found, found', values⟩
    · rw [List.filterMap_cons_none none, List.filterMap_cons_none none']
      exact ih
    · rw [List.filterMap_cons_some found, List.filterMap_cons_some found']
      exact .cons values ih

theorem eq_of_valuesBy_eq {values values' : List String}
    (h : List.Forall₂ (ValuesBy Eq) values values') : values = values' := by
  rw [← List.forall₂_eq_eq_eq]
  refine h.imp fun v v' related => ?_
  obtain ⟨l, _, rfl, rfl, rfl⟩ := related
  rfl

theorem stringsOf_eq_of_resembles {body body' : List Token}
    (h : List.Forall₂ (Token.Resembles Eq) body body') : stringsOf body = stringsOf body' :=
  eq_of_valuesBy_eq (stringsOf_resembles (fun _ _ same => congrArg _ same) h)

end Members

end OpenApiModels.TypeScript
