import OpenApiModels.Proofs.Offsets.Members
import OpenApiModels.Proofs.TypeScript.TopLevel

/-!
# Declarations by indices and byte offsets

A scan for declarations looks forth and back in the list of tokens, and counts the braces that are
open. `scanEnums_eq` says that no index is out of range, that the count does not fall below zero,
and that the scan comes to an end.
-/

namespace OpenApiModels.Offsets

open Text TypeScript

/-- The index of the brace that closes the first of the braces that are open before index `i`, of
which there are `depth`. -/
def closingFrom (depth i : Nat) : List Token → Checked (Option Nat)
  | [] => return none
  | t :: rest =>
    if t.isMark '\x7b' then closingFrom (depth + 1) (i + 1) rest
    else if t.isMark '\x7d' then do
      let depth ← minus depth 1
      if depth = 0 then return some i
      else closingFrom depth (i + 1) rest
    else closingFrom depth (i + 1) rest

/-- The index of the brace that closes the one with index `brace`. -/
def matchingBrace (ts : List Token) (brace : Nat) : Checked (Option Nat) := do
  closingFrom 0 brace (← part ts brace ts.length)

/-- The index of the first of the modifiers that end before an index. -/
def firstModifier (ts : List Token) : Nat → Checked Nat
  | 0 => return 0
  | i + 1 => do
    let t ← item ts i
    if t.isModifier then firstModifier ts i
    else return i + 1

/-- Whether there is a point before an index. -/
def afterPoint (ts : List Token) (i : Nat) : Checked Bool :=
  if i = 0 then return false
  else do
    let t ← item ts (← minus i 1)
    return t.isMark '.'

/-- Whether a declaration starts with the keyword at an index. -/
def startsEnum (ts : List Token) (i : Nat) : Checked Bool := do
  let keyword ← item ts i
  if !keyword.isWord "enum" then return false
  else if ← afterPoint ts i then return false
  else return ts[i + 1]?.any (fun t => t.kind == .word) && ts[i + 2]?.any (·.isMark '\x7b')

/-- The declarations from index `i` on. -/
def enumsFrom (text : List Char) (ts : List Token) : Nat → Nat → Checked (List EnumDecl)
  | 0, _ => .error (.fault .endless)
  | rounds + 1, i =>
    if ts.length ≤ i then return []
    else do
      if ← startsEnum ts i then
        let name ← item ts (i + 1)
        let first ← firstModifier ts i
        let modifiers ← part ts first i
        match ← matchingBrace ts (i + 2) with
        | none => .error (.error (.unbalanced name.name))
        | some close =>
          let start := (← item ts first).start
          let stop := (← item ts close).stop
          let members ← members text (← part ts (i + 3) close)
          let declaration ← slice text start stop
          let exported := modifiers.any fun t => t.isWord "export"
          return ⟨name.name, start, stop, exported, members, declaration⟩ ::
            (← enumsFrom text ts rounds (close + 1))
      else enumsFrom text ts rounds (i + 1)

/-- The enum declarations of a text, in order. -/
def scanEnums (text : List Char) : Checked (List EnumDecl) := do
  let ts ← tokens text
  enumsFrom text ts (ts.length + 1) 0

/-- The names that a text uses, in ascending order and once each. -/
def identifiers (text : List Char) : Checked (List String) := do
  let words := ((← tokens text).filter fun t => t.kind == .word).map Token.name
  return words.eraseDups.mergeSort fun a b => decide (a ≤ b)

/-- The names that the top level of a text declares, in order. -/
def declaredNames (text : List Char) : Checked (List String) := do
  return declaredFrom 0 (← tokens text)

/-! ### Indices that are found -/

theorem closingFrom_cons {depth next : Nat} {t : Token} (h : braceAfter depth t = some next)
    (i : Nat) (ts : List Token) :
    closingFrom (depth + 1) i (t :: ts) = closingFrom (next + 1) (i + 1) ts := by
  rw [closingFrom]
  unfold braceAfter at h
  by_cases isClose : t.isMark '\x7d' = true
  · rw [if_neg (by simp [Token.isMark_eq_false isClose]), if_pos isClose]
    rw [if_pos isClose] at h
    cases depth with
    | zero => cases h
    | succ depth =>
      obtain rfl := Option.some.inj h
      rfl
  · rw [if_neg isClose] at h ⊢
    obtain rfl := Option.some.inj h
    split <;> rfl

theorem closingFrom_close {t : Token} (h : t.isMark '\x7d' = true) (i : Nat) (ts : List Token) :
    closingFrom 1 i (t :: ts) = .ok (some i) := by
  rw [closingFrom, if_neg (by simp [Token.isMark_eq_false h]), if_pos h]
  rfl

/-- Braces are closed only after they are opened. -/
theorem closingFrom_eq (depth i : Nat) (ts : List Token) :
    closingFrom (depth + 1) i (ts.map gapless) =
      .ok ((splitBody (depth + 1) ts).map fun (body, _) => i + body.length) := by
  induction ts generalizing depth i with
  | nil => rfl
  | cons t ts ih =>
    rw [List.map_cons]
    cases after : braceAfter depth t with
    | none =>
      obtain ⟨rfl, isClose⟩ := braceAfter_eq_none_iff.1 after
      rw [closingFrom_close (t := gapless t) isClose, splitBody_close isClose]
      rfl
    | some next =>
      rw [closingFrom_cons (t := gapless t) after, ih, splitBody_cons after, Option.map_map]
      refine congrArg (fun f => Except.ok ((splitBody (next + 1) ts).map f)) (funext fun cut => ?_)
      simp only [Function.comp_apply, List.length_cons]
      omega

theorem matchingBrace_eq {a : List Token} {brace : Token} (isBrace : brace.isMark '\x7b' = true)
    (rest : List Token) :
    matchingBrace ((a ++ brace :: rest).map gapless) a.length =
      .ok ((splitBody 1 rest).map fun (body, _) => a.length + 1 + body.length) := by
  have parted : part ((a ++ brace :: rest).map gapless) a.length
      ((a ++ brace :: rest).map gapless).length = .ok ((brace :: rest).map gapless) :=
    part_append (a := a.map gapless) (b := []) (by simp) (by simp) (by simp)
  rw [matchingBrace, parted, ok_bind, List.map_cons, closingFrom,
    if_pos ((gapless_isMark brace _).trans isBrace)]
  exact closingFrom_eq 0 _ rest

/-- The modifiers before a token are counted back to the first one; `passed` are the tokens before
it, the last one first. -/
theorem firstModifier_eq (passed rest : List Token) :
    firstModifier ((passed.reverse ++ rest).map gapless) passed.length =
      .ok (passed.dropWhile Token.isModifier).length := by
  induction passed generalizing rest with
  | nil => rfl
  | cons t passed ih =>
    have found : item (((t :: passed).reverse ++ rest).map gapless) passed.length =
        .ok (gapless t) :=
      item_append (a := passed.reverse.map gapless) (b := rest.map gapless) (by simp) (by simp)
    rw [List.length_cons, firstModifier, found, ok_bind]
    by_cases modifier : t.isModifier = true
    · rw [if_pos ((gapless_isModifier t).trans modifier), List.dropWhile_cons_of_pos modifier,
        List.reverse_cons, List.append_assoc]
      exact ih ([t] ++ rest)
    · rw [if_neg ((gapless_isModifier t) ▸ modifier), List.dropWhile_cons_of_neg modifier]
      rfl

theorem afterPoint_eq (passed rest : List Token) :
    afterPoint ((passed.reverse ++ rest).map gapless) passed.length =
      .ok (passed.head?.any (·.isMark '.')) := by
  cases passed with
  | nil => rfl
  | cons t passed =>
    have found : item (((t :: passed).reverse ++ rest).map gapless) passed.length =
        .ok (gapless t) :=
      item_append (a := passed.reverse.map gapless) (b := rest.map gapless) (by simp) (by simp)
    have before : minus (t :: passed).length 1 = .ok passed.length := by
      rw [minus, List.length_cons, if_pos (Nat.le_add_left _ _), Nat.add_sub_cancel]
    rw [afterPoint, if_neg (by simp), before, ok_bind, found]
    rfl

theorem startsEnum_eq (passed : List Token) (keyword : Token) (rest : List Token) :
    startsEnum ((passed.reverse ++ keyword :: rest).map gapless) passed.length =
      .ok (keyword.isWord "enum" && (!passed.head?.any (·.isMark '.') &&
        (rest[0]?.any (fun t => t.kind == .word) && rest[1]?.any (·.isMark '\x7b')))) := by
  have found : item ((passed.reverse ++ keyword :: rest).map gapless) passed.length =
      .ok (gapless keyword) :=
    item_append (a := passed.reverse.map gapless) (b := rest.map gapless) (by simp) (by simp)
  have later (n : Nat) :
      ((passed.reverse ++ keyword :: rest).map gapless)[passed.length + (n + 1)]? =
        rest[n]?.map gapless := by
    rw [List.getElem?_map, List.getElem?_append_right (by simp)]
    simp
  rw [startsEnum, found, ok_bind, gapless_isWord, afterPoint_eq, ok_bind, later 0, later 1,
    Option.any_map, Option.any_map]
  cases keyword.isWord "enum" <;> cases passed.head?.any (·.isMark '.') <;> rfl

/-! ### Declarations that are found -/

/-- Where no declaration starts, the next token is looked at. -/
theorem enumsFrom_other (text : List Char) {passed rest : List Token} {keyword : Token}
    (other : ¬(keyword.isWord "enum" = true ∧ (!passed.head?.any (·.isMark '.')) = true ∧
      rest[0]?.any (fun t => t.kind == .word) = true ∧ rest[1]?.any (·.isMark '\x7b') = true))
    (rounds : Nat) :
    enumsFrom text ((passed.reverse ++ keyword :: rest).map gapless) (rounds + 1) passed.length =
      enumsFrom text ((passed.reverse ++ keyword :: rest).map gapless) rounds
        (passed.length + 1) := by
  have short : ¬((passed.reverse ++ keyword :: rest).map gapless).length ≤ passed.length := by simp
  have notStart : (keyword.isWord "enum" && (!passed.head?.any (·.isMark '.') &&
      (rest[0]?.any (fun t => t.kind == .word) && rest[1]?.any (·.isMark '\x7b')))) = false := by
    simpa only [Bool.eq_false_iff, Bool.and_eq_true, Ne] using other
  rw [enumsFrom, if_neg short, startsEnum_eq, ok_bind, notStart]
  rfl

/-- No declaration starts with the last two tokens. -/
theorem enumsFrom_end (text : List Char) {passed rest : List Token} (short : rest.length ≤ 2)
    {rounds : Nat} (enough : rest.length < rounds) :
    enumsFrom text ((passed.reverse ++ rest).map gapless) rounds passed.length = .ok [] := by
  induction rest generalizing passed rounds with
  | nil =>
    obtain ⟨n, rfl⟩ := Nat.exists_eq_succ_of_ne_zero (Nat.ne_zero_of_lt enough)
    rw [enumsFrom, if_pos (by simp)]
    rfl
  | cons t rest ih =>
    obtain ⟨n, rfl⟩ := Nat.exists_eq_succ_of_ne_zero (Nat.ne_zero_of_lt enough)
    rw [List.length_cons] at short enough
    have none : rest[1]? = none := List.getElem?_eq_none (by omega)
    have later := @ih (t :: passed) (by omega) n (by omega)
    rw [List.reverse_cons, List.append_assoc] at later
    rw [enumsFrom_other text (by simp [none])]
    exact later

/-- The tokens that are passed with a declaration, the last one first. -/
def passedBehind (passed : List Token) (keyword name brace : Token) (body : List Token)
    (close : Token) : List Token :=
  close :: (body.reverse ++ brace :: name :: keyword :: passed)

theorem split_behind {ts passed rest body rest' : List Token} {keyword name brace close : Token}
    (split : ts = passed.reverse ++ keyword :: name :: brace :: rest)
    (found : splitBody 1 rest = some (body, close, rest')) :
    ts = (passedBehind passed keyword name brace body close).reverse ++ rest' ∧
      (passedBehind passed keyword name brace body close).length =
        passed.length + 3 + body.length + 1 ∧
      [close].takeWhile Token.isModifier =
        (passedBehind passed keyword name brace body close).takeWhile Token.isModifier := by
  obtain ⟨rfl, isClose, -⟩ := splitBody_spec found
  have notModifier := Token.isModifier_of_isMark isClose
  refine ⟨by simp [split, passedBehind], ?_, by simp [passedBehind, notModifier]⟩
  simp only [passedBehind, List.length_cons, List.length_append, List.length_reverse]
  omega

section Read

variable {text : List Char} {s : Source} (read : Source.ofText? text = .ok s)
include read

/-- Where a declaration starts, it is read up to the brace that closes it. -/
theorem enumsFrom_enum {passed rest : List Token} {keyword name brace : Token}
    (split : s.tokens = passed.reverse ++ keyword :: name :: brace :: rest)
    (isEnum : keyword.isWord "enum" = true) (noPoint : (!passed.head?.any (·.isMark '.')) = true)
    (isName : name.kind = .word) (isBrace : brace.isMark '\x7b' = true) (rounds : Nat) :
    enumsFrom text (s.tokens.map gapless) (rounds + 1) passed.length =
      match splitBody 1 rest with
      | none => .error (.error (.unbalanced name.name))
      | some (body, close, _) => do
        return EnumDecl.ofTokens (passed.takeWhile Token.isModifier).reverse keyword name brace body
          close :: (← enumsFrom text (s.tokens.map gapless) rounds
            (passed.length + 3 + body.length + 1)) := by
  have starts := startsEnum_eq passed keyword (name :: brace :: rest)
  have first := firstModifier_eq passed (keyword :: name :: brace :: rest)
  have closes : matchingBrace (s.tokens.map gapless) (passed.length + 2) =
      .ok ((splitBody 1 rest).map fun (body, _) => passed.length + 3 + body.length) := by
    have found := matchingBrace_eq (a := passed.reverse ++ [keyword, name]) isBrace rest
    rw [List.append_assoc, List.cons_append, List.cons_append, List.nil_append, ← split,
      List.length_append, List.length_reverse] at found
    exact found
  have short : ¬(s.tokens.map gapless).length ≤ passed.length := by simp [split]
  have nameItem : item (s.tokens.map gapless) (passed.length + 1) = .ok (gapless name) :=
    item_append (a := (passed.reverse ++ [keyword]).map gapless)
      (b := (brace :: rest).map gapless) (by simp [split]) (by simp)
  rw [← split] at starts first
  simp only [isEnum, noPoint, List.getElem?_cons_zero, List.getElem?_cons_succ, Option.any_some,
    isName, isBrace, beq_self_eq_true, Bool.and_self] at starts
  -- the modifiers and what leads to them
  have tiles : s.tokens = (passed.dropWhile Token.isModifier).reverse ++
      ((passed.takeWhile Token.isModifier).reverse ++ keyword :: name :: brace :: rest) := by
    rw [← List.append_assoc, ← List.reverse_append, List.takeWhile_append_dropWhile, split]
  have size : passed.length = (passed.dropWhile Token.isModifier).reverse.length +
      (passed.takeWhile Token.isModifier).reverse.length := by
    rw [← List.length_append, ← List.reverse_append, List.takeWhile_append_dropWhile,
      List.length_reverse]
  have count : (passed.dropWhile Token.isModifier).length =
      (passed.dropWhile Token.isModifier).reverse.length := List.length_reverse.symm
  rw [count] at first
  generalize (passed.dropWhile Token.isModifier).reverse = lead at tiles size first
  generalize (passed.takeWhile Token.isModifier).reverse = modifiers at tiles size ⊢
  have own : part (s.tokens.map gapless) lead.length passed.length =
      .ok (modifiers.map gapless) :=
    part_append (a := lead.map gapless) (b := (keyword :: name :: brace :: rest).map gapless)
      (by simp [tiles]) (by simp) (by simp [size])
  rw [enumsFrom, if_neg short, starts, ok_bind, if_pos rfl, nameItem, ok_bind, first, ok_bind,
    own, ok_bind, closes, ok_bind]
  cases found : splitBody 1 rest with
  | none => rfl
  | some cut =>
    obtain ⟨body, close, rest'⟩ := cut
    obtain ⟨rfl, isClose, -⟩ := splitBody_spec found
    have firstItem : item (s.tokens.map gapless) lead.length =
        .ok (gapless (modifiers.headD keyword)) := by
      cases modifiers <;>
        exact item_append (a := lead.map gapless) (by rw [tiles, List.map_append]; rfl) (by simp)
    have closeItem : item (s.tokens.map gapless) (passed.length + 3 + body.length) =
        .ok (gapless close) :=
      item_append (a := (passed.reverse ++ keyword :: name :: brace :: body).map gapless)
        (b := rest'.map gapless) (by simp [split]) (by simp; omega)
    have inner : part (s.tokens.map gapless) (passed.length + 3)
        (passed.length + 3 + body.length) = .ok (body.map gapless) :=
      part_append (a := (passed.reverse ++ [keyword, name, brace]).map gapless)
        (b := (close :: rest').map gapless) (by simp [split]) (by simp) (by simp)
    have inside : body <:+: s.tokens :=
      ⟨passed.reverse ++ [keyword, name, brace], close :: rest', by simp [split]⟩
    have whole : slice text (modifiers.headD keyword).start close.stop =
        .ok (Token.slice (modifiers ++ keyword :: name :: brace :: body ++ [close])) :=
      slice_tokens read (a := lead) (b := rest') (by simp [tiles]) (by cases modifiers <;> rfl)
        List.getLast?_concat
    rw [Option.map_some]
    dsimp only
    rw [firstItem, ok_bind, closeItem, ok_bind, inner, ok_bind, members_eq read inside, ok_bind,
      gapless_start, gapless_stop, whole, ok_bind, List.any_map]
    rfl

/-- The scan finds what the declarations are, from any token on. All tokens before it have been
passed; those that a declaration can still start with are `before`. -/
theorem enumsFrom_eq {before passed rest : List Token} (split : s.tokens = passed.reverse ++ rest)
    (sameHead : before.head? = passed.head?)
    (sameModifiers : before.takeWhile Token.isModifier = passed.takeWhile Token.isModifier)
    {rounds : Nat} (enough : rest.length < rounds) :
    enumsFrom text (s.tokens.map gapless) rounds passed.length =
      reported (enumDecls before rest) := by
  fun_induction enumDecls before rest generalizing passed rounds with
  | case1 before keyword name brace rest starts open_ =>
    obtain ⟨n, rfl⟩ := Nat.exists_eq_succ_of_ne_zero (Nat.ne_zero_of_lt enough)
    obtain ⟨isEnum, noPoint, isName, isBrace⟩ := starts
    rw [enumsFrom_enum read split isEnum (sameHead ▸ noPoint) isName isBrace, open_]
    rfl
  | case2 =>
    rename_i before keyword name brace rest starts body close rest' found _ e fails ih
    obtain ⟨n, rfl⟩ := Nat.exists_eq_succ_of_ne_zero (Nat.ne_zero_of_lt enough)
    obtain ⟨isEnum, noPoint, isName, isBrace⟩ := starts
    obtain ⟨tiles, size, modifiers⟩ := split_behind split found
    have shorter := length_lt_of_splitBody found
    have short : rest'.length < n := by
      simp only [List.length_cons] at enough
      omega
    have later := ih tiles rfl modifiers short
    rw [enumsFrom_enum read split isEnum (sameHead ▸ noPoint) isName isBrace, found]
    dsimp only
    rw [← size, later, fails]
    rfl
  | case3 =>
    rename_i before keyword name brace rest starts body close rest' found _ modifiers decls more ih
    obtain ⟨n, rfl⟩ := Nat.exists_eq_succ_of_ne_zero (Nat.ne_zero_of_lt enough)
    obtain ⟨isEnum, noPoint, isName, isBrace⟩ := starts
    obtain ⟨tiles, size, none⟩ := split_behind split found
    have shorter := length_lt_of_splitBody found
    have short : rest'.length < n := by
      simp only [List.length_cons] at enough
      omega
    have later := ih tiles rfl none short
    rw [enumsFrom_enum read split isEnum (sameHead ▸ noPoint) isName isBrace, found]
    dsimp only
    rw [← size, later, more, ← sameModifiers]
    rfl
  | case4 before keyword name brace rest other ih =>
    obtain ⟨n, rfl⟩ := Nat.exists_eq_succ_of_ne_zero (Nat.ne_zero_of_lt enough)
    have tiles : s.tokens = (keyword :: passed).reverse ++ name :: brace :: rest := by
      simp [split]
    have short : (name :: brace :: rest).length < n := Nat.lt_of_succ_lt_succ enough
    have later := ih tiles rfl (by simp [List.takeWhile_cons, sameModifiers]) short
    rw [← later, split]
    refine enumsFrom_other text ?_ n
    rw [← sameHead]
    simpa using other
  | case5 before rest short =>
    have two : rest.length ≤ 2 := by
      rcases rest with _ | ⟨keyword, _ | ⟨name, _ | ⟨brace, rest⟩⟩⟩
      · exact Nat.zero_le 2
      · exact Nat.le_succ 1
      · exact Nat.le_refl 2
      · exact absurd rfl (short keyword name brace rest)
    rw [split]
    exact enumsFrom_end text two enough

end Read

theorem scanEnums_eq (text : List Char) :
    scanEnums text = reported (TypeScript.scanEnums text) := by
  rw [scanEnums, tokens_eq, TypeScript.scanEnums]
  cases read : Source.ofText? text with
  | error e => rfl
  | ok s =>
    have whole : s.tokens = ([] : List Token).reverse ++ s.tokens := rfl
    have found := enumsFrom_eq read whole rfl rfl (Nat.lt_succ_self _)
    have count : (s.tokens.map gapless).length = s.tokens.length := List.length_map _
    rw [← count] at found
    exact found

theorem map_name_gapless (ts : List Token) :
    ((ts.map gapless).filter fun t => t.kind == .word).map Token.name =
      (ts.filter fun t => t.kind == .word).map Token.name := by
  rw [List.filter_map, List.map_map]
  rfl

theorem identifiers_eq (text : List Char) :
    identifiers text = reported (TypeScript.identifiers text) := by
  rw [identifiers, tokens_eq, TypeScript.identifiers]
  cases Source.ofText? text with
  | error e => rfl
  | ok s =>
    refine congrArg (fun words : List String =>
      Except.ok (words.eraseDups.mergeSort fun a b => decide (a ≤ b))) ?_
    exact map_name_gapless s.tokens

theorem declaredFrom_gapless (depth : Nat) (ts : List Token) :
    declaredFrom depth (ts.map gapless) = declaredFrom depth ts :=
  declaredFrom_congr (by rw [List.map_map]; rfl) depth

theorem declaredNames_eq (text : List Char) :
    declaredNames text = reported (TypeScript.declaredNames text) := by
  rw [declaredNames, tokens_eq, TypeScript.declaredNames]
  cases Source.ofText? text with
  | error e => rfl
  | ok s => exact congrArg Except.ok (declaredFrom_gapless 0 s.tokens)

end OpenApiModels.Offsets
