import OpenApiModels.Proofs.TypeScript.Lexing
import OpenApiModels.TypeScript.EnumDecl

/-!
# What a scan for enums finds

The declarations that are found cut the tokens into pieces: each piece is what leads to a
declaration and the tokens of the declaration (`tokens_of_enumDecls`).
-/

namespace OpenApiModels.TypeScript

open Text

/-- The body of a declaration ends at its closing brace, whatever follows. -/
theorem splitBody_spec {depth : Nat} {ts body rest : List Token} {close : Token}
    (h : splitBody depth ts = some (body, close, rest)) :
    ts = body ++ close :: rest ∧ close.isMark '\x7d' = true ∧
      ∀ rest', splitBody depth (body ++ close :: rest') = some (body, close, rest') := by
  fun_induction splitBody depth ts generalizing body with
  | case1 => cases h
  | case2 t rest isClose =>
    cases h
    refine ⟨rfl, isClose, fun rest' => ?_⟩
    rw [List.nil_append, splitBody, if_pos isClose]
  | case3 t rest isClose =>
    cases h
    refine ⟨rfl, isClose, fun rest' => ?_⟩
    rw [List.nil_append, splitBody, if_pos isClose]
  | case4 t rest isClose depth ih =>
    simp only [Option.map_eq_some_iff, Prod.exists, Prod.mk.injEq] at h
    obtain ⟨inner, _, _, found, rfl, rfl, rfl⟩ := h
    obtain ⟨rfl, ends, again⟩ := ih found
    refine ⟨rfl, ends, fun rest' => ?_⟩
    rw [List.cons_append, splitBody, if_pos isClose, again rest']
    rfl
  | case5 =>
    rename_i notClose _ ih
    simp only [Option.map_eq_some_iff, Prod.exists, Prod.mk.injEq] at h
    obtain ⟨inner, _, _, found, rfl, rfl, rfl⟩ := h
    obtain ⟨rfl, ends, again⟩ := ih found
    refine ⟨rfl, ends, fun rest' => ?_⟩
    rw [List.cons_append, splitBody.eq_def]
    dsimp only
    rw [if_neg notClose, again rest']
    rfl

/-- The tokens of an enum declaration. -/
structure EnumTokens where
  modifiers : List Token
  keyword : Token
  name : Token
  brace : Token
  body : List Token
  close : Token
  isModifier_of_mem : ∀ t ∈ modifiers, t.isModifier = true
  isWord_keyword : keyword.isWord "enum" = true
  kind_name : name.kind = .word
  isMark_brace : brace.isMark '\x7b' = true
  splitBody_body : ∀ rest, splitBody 1 (body ++ close :: rest) = some (body, close, rest)

namespace EnumTokens

def tokens (e : EnumTokens) : List Token :=
  e.modifiers ++ e.keyword :: e.name :: e.brace :: e.body ++ [e.close]

def decl (e : EnumTokens) : EnumDecl :=
  EnumDecl.ofTokens e.modifiers e.keyword e.name e.brace e.body e.close

theorem isMark_close (e : EnumTokens) : e.close.isMark '\x7d' = true :=
  (splitBody_spec (e.splitBody_body [])).2.1

end EnumTokens

/-- What leads to each declaration, and the declaration. -/
abbrev Pieces := List (List Token × EnumTokens)

def Pieces.tokens (pieces : Pieces) : List Token :=
  pieces.flatMap fun p => p.1 ++ p.2.tokens

@[simp] theorem Pieces.tokens_nil : Pieces.tokens [] = [] := rfl

theorem Pieces.tokens_cons (lead : List Token) (e : EnumTokens) (pieces : Pieces) :
    Pieces.tokens ((lead, e) :: pieces) = lead ++ (e.tokens ++ pieces.tokens) := by
  simp [Pieces.tokens]

/-! ### Where declarations start -/

/-- A declaration starts with the first of the tokens. -/
def StartsDecl (afterPoint : Bool) : List Token → Prop
  | keyword :: name :: brace :: _ =>
    keyword.isWord "enum" = true ∧ afterPoint = false ∧ name.kind = .word ∧
      brace.isMark '\x7b' = true
  | _ => False

theorem StartsDecl.append {p : Bool} {ts : List Token} (h : StartsDecl p ts) (more : List Token) :
    StartsDecl p (ts ++ more) := by
  match ts with
  | [] | [_] | [_, _] => exact h.elim
  | _ :: _ :: _ :: _ => exact h

theorem Token.isModifier_of_isMark {t : Token} {c : Char} (h : t.isMark c = true) :
    t.isModifier = false := by
  have mark := Token.isMark_iff.1 h
  simp [isModifier, isWord, mark]

/-- Whether tokens end with a point. -/
def endsInPoint (p : Bool) (ts : List Token) : Bool :=
  (ts.getLast?.map (·.isMark '.')).getD p

@[simp] theorem endsInPoint_nil (p : Bool) : endsInPoint p [] = p := rfl

@[simp] theorem endsInPoint_concat (p : Bool) (ts : List Token) (t : Token) :
    endsInPoint p (ts ++ [t]) = t.isMark '.' := by
  simp [endsInPoint]

theorem endsInPoint_cons (p : Bool) (t : Token) (ts : List Token) :
    endsInPoint p (t :: ts) = endsInPoint (t.isMark '.') ts := by
  rcases List.eq_nil_or_concat ts with rfl | ⟨init, last, rfl⟩
  · rfl
  · rw [List.concat_eq_append, ← List.cons_append, endsInPoint_concat, endsInPoint_concat]

/-- No declaration starts among the tokens. -/
def Plain (p : Bool) (ts : List Token) : Prop :=
  ∀ a t b, ts = a ++ t :: b → ¬ StartsDecl (endsInPoint p a) (t :: b)

theorem plain_cons {p : Bool} {t : Token} {ts : List Token} :
    Plain p (t :: ts) ↔ ¬ StartsDecl p (t :: ts) ∧ Plain (t.isMark '.') ts := by
  constructor
  · intro plain
    refine ⟨plain [] t ts rfl, fun a u b tiles => ?_⟩
    rw [← endsInPoint_cons p]
    exact plain (t :: a) u b (by rw [tiles]; rfl)
  · rintro ⟨first, plain⟩ a u b tiles
    cases a with
    | nil =>
      obtain ⟨rfl, rfl⟩ := List.cons.inj tiles
      exact first
    | cons v a =>
      obtain ⟨rfl, rfl⟩ := List.cons.inj tiles
      rw [endsInPoint_cons]
      exact plain a u b rfl

/-- Declarations start where the pieces say, and nowhere else. -/
inductive Pieces.Clear : Pieces → List Token → Prop where
  | nil {rest : List Token} (plain : Plain false rest) : Clear [] rest
  | cons {lead : List Token} {e : EnumTokens} {pieces : Pieces} {rest : List Token}
      (plain : Plain false (lead ++ e.modifiers))
      (notPoint : endsInPoint false (lead ++ e.modifiers) = false)
      (more : Clear pieces rest) : Clear ((lead, e) :: pieces) rest

/-- The declarations found cut the tokens into pieces, and the modifiers belong to the declarations.
The tokens `lead` were passed since the declaration before, of which `anchor` is the last token. -/
theorem tokens_of_enumDecls (lead anchor : List Token) {ts : List Token} {decls : List EnumDecl}
    (h : enumDecls (lead ++ anchor) ts = .ok decls)
    (anchored : anchor.takeWhile Token.isModifier = [])
    (point : anchor.head?.any (·.isMark '.') = false)
    (plain : ∀ a t b, lead.reverse = a ++ t :: b →
      ¬ StartsDecl (endsInPoint false a) (t :: (b ++ ts))) :
    ∃ (pieces : Pieces) (rest : List Token),
      lead.reverse ++ ts = pieces.tokens ++ rest ∧ decls = (pieces.map fun p => p.2.decl) ∧
        pieces.Clear rest ∧ ∀ p ∈ pieces, p.1.getLast?.any Token.isModifier = false := by
  have behind : (lead ++ anchor).head?.any (·.isMark '.') = endsInPoint false lead.reverse := by
    cases lead with
    | nil => exact point
    | cons t lead => simp
  generalize passed : lead ++ anchor = before at h behind
  fun_induction enumDecls before ts generalizing lead anchor decls with
  | case1 => cases h
  | case2 => cases h
  | case3 =>
    rename_i before keyword name brace ts isEnum body close rest split _ modifiers decls more ih
    cases h
    obtain ⟨tiles, -, again⟩ := splitBody_spec split
    have isClose := (splitBody_spec split).2.1
    have notModifier := Token.isModifier_of_isMark isClose
    have notPoint : close.isMark '.' = false := Token.isMark_eq_false isClose (by decide)
    obtain ⟨pieces, last, tokens, rfl, clear, leads⟩ := ih [] [close] (by simp [notModifier])
      (by simpa using notPoint) (fun a t b none => by cases a <;> cases none)
      rfl more (by simpa using notPoint)
    have own : modifiers = (lead.takeWhile Token.isModifier).reverse := by
      refine congrArg List.reverse ?_
      rw [← passed, List.takeWhile_append, anchored, List.append_nil]
      split
      · rename_i all
        exact ((List.takeWhile_prefix _).eq_of_length all).symm
      · rfl
    let found : EnumTokens :=
      { modifiers := (lead.takeWhile Token.isModifier).reverse
        keyword, name, brace, body, close
        isModifier_of_mem := fun t mem =>
          List.all_eq_true.1 List.all_takeWhile t (List.mem_reverse.1 mem)
        isWord_keyword := isEnum.1
        kind_name := isEnum.2.2.1
        isMark_brace := isEnum.2.2.2
        splitBody_body := again }
    have cut : lead.reverse = (lead.dropWhile Token.isModifier).reverse ++ found.modifiers := by
      rw [← List.reverse_append, List.takeWhile_append_dropWhile]
    refine ⟨((lead.dropWhile Token.isModifier).reverse, found) :: pieces, last, ?_, ?_, ?_,
      List.forall_mem_cons.2 ⟨?_, leads⟩⟩
    · have tail : rest = pieces.tokens ++ last := tokens
      rw [Pieces.tokens_cons, cut, tiles, tail]
      simp [EnumTokens.tokens, found]
    · rw [own]
      rfl
    · refine .cons ?_ ?_ clear
      · rw [← cut]
        intro a t b at_ starts
        exact plain a t b at_ (starts.append _)
      · rw [← cut, ← behind]
        simpa using isEnum.2.1
    · have ends := List.head?_dropWhile_not Token.isModifier lead
      rw [List.getLast?_reverse]
      cases first : (lead.dropWhile Token.isModifier).head? with
      | none => rfl
      | some t => simpa [first] using ends
  | case4 before keyword name brace rest notEnum ih =>
    have plain' : ∀ a t b, (keyword :: lead).reverse = a ++ t :: b →
        ¬ StartsDecl (endsInPoint false a) (t :: (b ++ name :: brace :: rest)) := by
      intro a t b at_
      rw [List.reverse_cons] at at_
      rcases List.eq_nil_or_concat b with rfl | ⟨b, last, rfl⟩
      · obtain ⟨rfl, same⟩ := List.append_inj' at_ rfl
        obtain rfl := (List.cons.inj same).1
        rintro ⟨word, notPoint, kind, opens⟩
        exact notEnum ⟨word, by rw [behind, notPoint]; rfl, kind, opens⟩
      · rw [List.concat_eq_append, ← List.cons_append, ← List.append_assoc] at at_
        obtain ⟨before, same⟩ := List.append_inj' at_ rfl
        obtain rfl := (List.cons.inj same).1
        simpa using plain a t b before
    obtain ⟨pieces, last, tokens, rfl, clear, leads⟩ := ih (keyword :: lead) anchor anchored point
      plain' (by rw [← passed]; rfl) h (by simp)
    exact ⟨pieces, last, by rw [← tokens]; simp, rfl, clear, leads⟩
  | case5 before ts short =>
    cases h
    refine ⟨[], lead.reverse ++ ts, rfl, rfl, .nil fun a t b at_ starts => ?_,
      fun p none => absurd none List.not_mem_nil⟩
    rcases List.append_eq_append_iff.1 at_ with ⟨c, rfl, rest⟩ | ⟨c, before, at_⟩
    · subst rest
      rcases c with - | ⟨u, - | ⟨v, - | ⟨w, c⟩⟩⟩
      · rcases b with - | ⟨u, - | ⟨v, b⟩⟩
        · exact starts
        · exact starts
        · exact short t u v b rfl
      · rcases b with - | ⟨v, - | ⟨w, b⟩⟩
        · exact starts
        · exact starts
        · exact short u t v (w :: b) rfl
      · exact short u v t b rfl
      · exact short u v w (c ++ t :: b) rfl
    · cases c with
      | nil =>
        rcases b with - | ⟨u, - | ⟨v, b⟩⟩
        · exact starts
        · exact starts
        · exact short t u v b at_.symm
      | cons u c =>
        obtain ⟨rfl, rfl⟩ := List.cons.inj at_
        exact plain a t c before starts

/-! ### String members -/

/-- The first group goes up to a comma, behind which the others are split, or to the end. -/
theorem splitMembers_spec (depth : Nat) (ts : List Token) :
    ∃ group y, ts = group ++ y ∧
      (y = [] ∧ splitMembers depth ts = [group] ∨
        ∃ comma rest, y = comma :: rest ∧ comma.isMark ',' = true ∧
          splitMembers depth ts = group :: splitMembers 0 rest) := by
  induction ts generalizing depth with
  | nil => exact ⟨[], [], rfl, .inl ⟨rfl, rfl⟩⟩
  | cons t ts ih =>
    rw [splitMembers]
    split
    · rename_i ends
      exact ⟨[], t :: ts, rfl, .inr ⟨t, ts, rfl, ends.1, by rw [ends.2]⟩⟩
    · dsimp only
      obtain ⟨group, y, rfl, ends⟩ := ih (if (t.isMark '(' || t.isMark '[' || t.isMark '\x7b') = true
        then depth + 1
        else if (t.isMark ')' || t.isMark ']' || t.isMark '\x7d') = true then depth - 1 else depth)
      refine ⟨t :: group, y, rfl, ?_⟩
      rcases ends with ⟨rfl, eq⟩ | ⟨comma, rest, rfl, isComma, eq⟩
      · rw [eq]
        exact .inl ⟨rfl, rfl⟩
      · rw [eq]
        exact .inr ⟨comma, rest, rfl, isComma, rfl⟩

/-- The tokens of a member go up to a comma or to the end. -/
theorem split_of_mem_splitMembers {depth : Nat} {ts group : List Token}
    (h : group ∈ splitMembers depth ts) :
    ∃ x y, ts = x ++ (group ++ y) ∧ (y = [] ∨ y.head?.any (·.isMark ',') = true) := by
  obtain ⟨first, y, tiles, ends⟩ := splitMembers_spec depth ts
  rcases ends with ⟨rfl, eq⟩ | ⟨comma, rest, rfl, isComma, eq⟩
  · rw [eq, List.mem_singleton] at h
    exact ⟨[], [], by rw [h, tiles]; rfl, .inl rfl⟩
  · rw [eq, List.mem_cons] at h
    rcases h with rfl | later
    · exact ⟨[], comma :: rest, tiles, .inr isComma⟩
    · obtain ⟨x, y, inner, stop⟩ := split_of_mem_splitMembers later
      exact ⟨first ++ comma :: x, y, by rw [tiles, inner]; simp, stop⟩
termination_by ts.length
decreasing_by
  rw [tiles]
  simp only [List.length_append, List.length_cons]
  omega

theorem member?_eq_string {group : List Token} {m : EnumMember} {value : String}
    (h : member? group = some m) (string : m.value = .string value) :
    ∃ name eq literal, group = [name, eq, literal] ∧ eq.isMark '=' = true ∧
      literal.kind = .literal ∧ String.ofList (unquote literal.text) = value := by
  unfold member? at h
  split at h
  · cases h
  · rename_i name rest
    dsimp only at h
    split at h
    · cases h
      cases string
    · rename_i eq ts
      split at h
      · rename_i isEq
        cases h
        dsimp only at string
        unfold memberValue at string
        split at string
        · cases string
        · rename_i literal
          split at string
          · rename_i isLiteral
            exact ⟨name, eq, literal, rfl, isEq, isLiteral.1, MemberValue.string.inj string⟩
          · split at string <;> cases string
        · split at string <;> cases string
        · cases string
      · cases h
        cases string

/-- A string value is that of a literal behind an equals sign, up to a comma or to the end. -/
theorem EnumTokens.literal_of_mem_strings {e : EnumTokens} {value : String}
    (h : value ∈ e.decl.strings) :
    ∃ x eq literal y, e.body = x ++ eq :: literal :: y ∧ eq.isMark '=' = true ∧
      literal.kind = .literal ∧ String.ofList (unquote literal.text) = value ∧
      (y = [] ∨ y.head?.any (·.isMark ',') = true) := by
  simp only [EnumDecl.strings, List.mem_filterMap, EnumTokens.decl, EnumDecl.ofTokens,
    membersOf] at h
  obtain ⟨m, ⟨group, mem, made⟩, isString⟩ := h
  obtain ⟨x, y, tiles, ends⟩ := split_of_mem_splitMembers mem
  have string : m.value = .string value := by
    cases hm : m.value <;> rw [hm] at isString <;> cases isString
    rfl
  obtain ⟨name, eq, literal, rfl, isEq, isLiteral, text⟩ := member?_eq_string made string
  exact ⟨x ++ [name], eq, literal, y, by rw [tiles]; simp, isEq, isLiteral, text, ends⟩

end OpenApiModels.TypeScript
