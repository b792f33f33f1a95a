import OpenApiModels.Proofs.ModelFile.MemberNames
import OpenApiModels.Proofs.ModelFile.WholeFiles
import OpenApiModels.Proofs.Retyping.LeftDeclarations
import OpenApiModels.Proofs.TypeScript.LiteralMeaning

/-!
# Values of enums that become unions

A listed string goes through the literal that JSON writes, the scan for enums, and the literal of a
union. It arrives as it was listed just if its member is called by one token and the scan takes the
literal for what it means (`union_values_iff`).
-/

namespace OpenApiModels

namespace TypeScript

open Text

/-! ### Members between commas -/

/-- The marks at which members are told apart, or that open or close brackets around them. -/
def memberMarks : List Char :=
  [',', '(', '[', '\x7b', ')', ']', '\x7d']

/-- No member ends among the tokens, and no bracket opens or closes. -/
def IsInner (ts : List Token) : Prop :=
  ∀ t ∈ ts, ∀ c ∈ memberMarks, t.isMark c = false

theorem splitMembers_inner {group : List Token} (inner : IsInner group) {comma : Token}
    (isComma : comma.isMark ',' = true) (rest : List Token) :
    splitMembers 0 (group ++ comma :: rest) = group :: splitMembers 0 rest := by
  induction group with
  | nil => exact splitMembers_cons_comma isComma rest
  | cons t group ih =>
    obtain ⟨first, others⟩ := List.forall_mem_cons.1 inner
    have depth : depthAfter 0 t = 0 := by
      simp [depthAfter, first '(' (by decide), first '[' (by decide), first '\x7b' (by decide),
        first ')' (by decide), first ']' (by decide), first '\x7d' (by decide)]
    have notComma : ¬ (t.isMark ',' = true ∧ 0 = 0) := by simp [first ',' (by decide)]
    rw [List.cons_append, splitMembers_cons notComma, depth, ih others]
    rfl

/-- The string values of members, each with a comma behind it. -/
theorem stringsOf_groups {groups : List (List Token)} (inner : ∀ g ∈ groups, IsInner g) :
    stringsOf (groups.flatMap (· ++ [.mark [] ','])) = groups.filterMap stringOf? := by
  have split : splitMembers 0 (groups.flatMap (· ++ [.mark [] ','])) = groups ++ [[]] := by
    induction groups with
    | nil => rfl
    | cons group groups ih =>
      obtain ⟨first, others⟩ := List.forall_mem_cons.1 inner
      rw [List.flatMap_cons, List.append_assoc, List.singleton_append, splitMembers_inner first rfl,
        ih others]
      rfl
  rw [stringsOf, split, List.filterMap_append]
  simp [stringOf?]

/-! ### Tokens of a text -/

theorem exists_quote_of_literal {cs : List Char} {ts : List Token} (reads : bareTokens cs = some ts)
    {t : Token} (mem : t ∈ ts) (literal : t.kind = .literal) : ∃ c ∈ t.text, isQuote c = true := by
  obtain ⟨s, read, rfl⟩ := Option.map_eq_some_iff.1 reads
  obtain ⟨u, hu, rfl⟩ := List.mem_map.1 mem
  obtain ⟨a, b, split⟩ := List.append_of_mem hu
  have stable := (stable_of_readSource (Retyping.mem_toOption.1 read)).1.1
  rw [split, stableBefore_append] at stable
  obtain ⟨-, -, ⟨c, r, text, -, token⟩, -⟩ := stable
  have isLiteral : u.kind = .literal := literal
  have start := token 0
  rw [text, Token.splitToken_append_iff, isLiteral] at start
  simp only [reduceCtorEq, false_and, and_false, or_false, true_and] at start
  exact ⟨c, by rw [Token.text_bare, text]; exact List.mem_cons_self, start.1⟩

theorem Tokenizes.bareTokens {cs : List Char} {ts : List Token} (h : Tokenizes cs ts) :
    bareTokens cs = some ts := by
  have alone := h [] rfl
  rwa [List.append_nil, readsAs_nil.bareTokens, Option.map_some, List.append_nil] at alone

/-- A character of a member that is outside of literals. -/
def isInnerChar (c : Char) : Bool :=
  isPlain c && !memberMarks.contains c

/-- Texts without quotes and the marks between members are read as tokens without them. -/
theorem exists_inner_tokens {cs : List Char} (h : cs.all isInnerChar = true) :
    ∃ ts, Tokenizes cs ts ∧ IsInner ts ∧ ∀ t ∈ ts, t.kind ≠ .literal := by
  have chars (c : Char) (hc : c ∈ cs) : isPlain c = true ∧ c ∉ memberMarks := by
    simpa [isInnerChar] using List.all_eq_true.1 h c hc
  have whole : IsWhole cs :=
    isWhole_of_all (List.all_eq_true.2 fun c hc => (chars c hc).1)
  obtain ⟨ts, reads, inside⟩ := exists_tokenizes whole
  refine ⟨ts, reads, fun t ht c hc => ?_, fun t ht literal => ?_⟩
  · rw [Bool.eq_false_iff]
    intro mark
    have mem : c ∈ cs := inside t ht (by rw [(Token.isMark_iff.1 mark).2]; exact List.mem_cons_self)
    exact (chars c mem).2 hc
  · obtain ⟨c, hc, quote⟩ := exists_quote_of_literal reads.bareTokens ht literal
    have plain := (chars c (inside t ht hc)).1
    rw [isPlain, quote] at plain
    cases plain

end TypeScript

/-- The string, if the value is one. -/
def Json.stringValue? : Json → Option String
  | .string s => some s
  | _ => none

namespace ModelFile

open Text TypeScript Retyping Json

/-! ### Listed values and their members -/

/-- The name is read as one token. -/
def isToken (name : String) : Bool :=
  (bareTokens name.toList).any fun ts => ts.length == 1

/-- What is read back of a listed string, if its member is read as that of a string. -/
def reread? (name : String) : Json → Option String
  | .string s =>
    if isToken name && !containsText substitution s.toList then
      some (String.ofList (s.toList.map rereadChar))
    else none
  | _ => none

/-- The members for listed values, each with its value. -/
def valuedMembers (values : List Json) : List (Member × Json) :=
  (membersOf values).zip (values.filter isMemberValue)

theorem exists_of_mem_zip {α β γ : Type} {f : α → γ} {g : β → γ} {xs : List α} {ys : List β}
    (same : xs.map f = ys.map g) {p : α × β} (h : p ∈ xs.zip ys) :
    p.1 ∈ xs ∧ p.2 ∈ ys ∧ f p.1 = g p.2 := by
  induction xs generalizing ys with
  | nil => cases h
  | cons x xs ih =>
    cases ys with
    | nil => cases h
    | cons y ys =>
      obtain ⟨first, others⟩ := List.cons.inj same
      rcases List.mem_cons.1 h with rfl | later
      · exact ⟨List.mem_cons_self, List.mem_cons_self, first⟩
      · obtain ⟨left, right, equal⟩ := ih others later
        exact ⟨List.mem_cons_of_mem _ left, List.mem_cons_of_mem _ right, equal⟩

variable {values : List Json}

theorem of_mem_valuedMembers {p : Member × Json} (h : p ∈ valuedMembers values) :
    p.1 ∈ membersOf values ∧ p.2.isMemberValue = true ∧ p.1.literal = p.2.compactText := by
  obtain ⟨member, value, literal⟩ := exists_of_mem_zip (literals_membersOf values) h
  exact ⟨member, (List.mem_filter.1 value).2, literal⟩

theorem length_membersOf (values : List Json) :
    (membersOf values).length = (values.filter isMemberValue).length := by
  have lengths := congrArg List.length (literals_membersOf values)
  rwa [List.length_map, List.length_map] at lengths

theorem map_fst_valuedMembers (values : List Json) :
    (valuedMembers values).map (·.1) = membersOf values :=
  List.map_fst_zip (length_membersOf values).le

/-- The listed strings are the values of the members that have strings. -/
theorem filterMap_valuedMembers (values : List Json) :
    (valuedMembers values).filterMap (fun p => p.2.stringValue?) =
      values.filterMap stringValue? := by
  have all : (valuedMembers values).filterMap (fun p => p.2.stringValue?) =
      ((valuedMembers values).map (·.2)).filterMap stringValue? := by
    rw [List.filterMap_map]
    rfl
  rw [all, valuedMembers, List.map_snd_zip (length_membersOf values).ge, List.filterMap_filter]
  refine List.filterMap_congr fun v _ => ?_
  cases v <;> rfl

/-! ### Names of members -/

theorem isInnerChar_of_inName {c : Char} (h : InName c) : isInnerChar c = true := by
  have none : (memberMarks.all fun mark => !decide (InName mark)) = true := by decide
  have other : ∀ mark ∈ memberMarks, c ≠ mark := fun mark hm => h.ne mark (by
    simpa using List.all_eq_true.1 none mark hm)
  have notMark : c ∉ memberMarks := fun mem => other c mem rfl
  simp [isInnerChar, isPlain_of_inName h, notMark]

theorem isInnerChar_of_isNumeral {c : Char} (h : isNumeral c = true) : isInnerChar c = true := by
  simp only [isNumeral, Bool.or_eq_true, beq_iff_eq] at h
  rcases h with (((digit | rfl) | rfl) | rfl) | rfl
  · exact isInnerChar_of_inName fun _ => by simp [Char.isAlphanum, digit]
  all_goals decide

theorem all_isInnerChar_name {m : Member} (h : m ∈ membersOf values) :
    m.name.toList.all isInnerChar = true := by
  have chars := List.all_eq_true.1 (all_isMemberNameChar_membersOf h)
  refine List.all_eq_true.2 fun c hc => ?_
  rcases isMemberNameChar_iff.1 (chars c hc) with ⟨inName, -⟩ | numeral
  · exact isInnerChar_of_inName inName
  · exact isInnerChar_of_isNumeral numeral

/-! ### Declarations as they are written -/

/-- The declaration of an enum, as it is written. -/
def declarationText (name : String) (members : List Member) : List Char :=
  ("export enum " ++ name ++ " \x7b\n").toList ++ members.flatMap memberLine ++ ['\x7d']

theorem enumText_eq (o : LayoutOptions) (e : EnumType) : enumText o e =
    declarationComment o e.description ++ (declarationText e.name e.members ++ ['\n']) := by
  simp [enumText, declarationText]

theorem readsAs_memberLine {m : Member} {name literal : List Token}
    (isName : Tokenizes m.name.toList name) (isLiteral : Tokenizes m.literal.toList literal) :
    TypeScript.ReadsAs (memberLine m) (name ++ .mark [] '=' :: literal ++ [.mark [] ',']) := by
  have start : TypeScript.ReadsAs "    ".toList [] := readsAs_marks (by decide)
  have assign : TypeScript.ReadsAs " = ".toList [.mark [] '='] := readsAs_marks (by decide)
  have stop : TypeScript.ReadsAs [','] [.mark [] ','] := readsAs_marks (by decide)
  have whole := (start.append_tokenizes (isName.append
    (assign.append_tokenizes (isLiteral.append stop.tokenizes rfl)) rfl)).line
  simpa [memberLine] using whole

theorem stringOf?_of_noLiteral {ts : List Token} (h : ∀ t ∈ ts, t.kind ≠ .literal) :
    stringOf? ts = none := by
  match ts with
  | [_, _, literal] => exact if_neg fun isString => h literal (by simp) isString.2.1
  | [] | [_] | [_, _] | _ :: _ :: _ :: _ :: _ => rfl

/-- A member has the value of its literal if its name is one token. -/
theorem stringOf?_member (name : List Token) (s : String) :
    stringOf? (name ++ [.mark [] '=', ⟨[], .literal, stringText s, 0⟩]) =
      if (name.length == 1 && !containsText substitution s.toList) = true then
        some (String.ofList (s.toList.map rereadChar)) else none := by
  match name with
  | [] => rfl
  | [t] =>
    have same := containsText_stringText s
    have isMark : (Token.mark [] '=').isMark '=' = true := rfl
    change (if _ ∧ _ ∧ (!containsText substitution (stringText s)) = true then
      some (String.ofList (unquote (stringText s))) else none) = _
    simp only [isMark, same, unquote_stringText, List.length_singleton, beq_self_eq_true,
      Bool.true_and, true_and]
  | [_, _] | [_, _, _] | _ :: _ :: _ :: _ :: _ => rfl

theorem isInner_member {name literal : List Token} (first : IsInner name)
    (second : IsInner literal) : IsInner (name ++ .mark [] '=' :: literal) :=
  have equals : ∀ c ∈ memberMarks, (Token.mark [] '=').isMark c = false := by
    simp [memberMarks, Token.isMark, Token.mark]
  List.forall_mem_append.2 ⟨first, List.forall_mem_cons.2 ⟨equals, second⟩⟩

/-- The tokens of a member of listed values, and the string that they give. -/
theorem exists_group {p : Member × Json} (h : p ∈ valuedMembers values) :
    ∃ group, IsInner group ∧ TypeScript.ReadsAs (memberLine p.1) (group ++ [.mark [] ',']) ∧
      stringOf? group = reread? p.1.name p.2 := by
  obtain ⟨member, value, text⟩ := of_mem_valuedMembers h
  obtain ⟨m, v⟩ := p
  obtain ⟨name, isName, inner, noLiteral⟩ := exists_inner_tokens (all_isInnerChar_name member)
  cases v with
  | string s =>
    have literal : m.literal.toList = stringText s := by
      rw [show m.literal = (Json.string s).compactText from text]
      exact String.toList_ofList
    have isLiteral : Tokenizes m.literal.toList [⟨[], .literal, stringText s, 0⟩] := by
      rw [literal]
      exact (readsAs_stringText s).tokenizes
    refine ⟨_, isInner_member inner ?_, readsAs_memberLine isName isLiteral, ?_⟩
    · exact List.forall_mem_singleton.2 fun _ _ => rfl
    · rw [stringOf?_member, reread?, isToken, isName.bareTokens]
      rfl
  | number n =>
    have literal : m.literal.toList = numberText n := by
      rw [show m.literal = (Json.number n).compactText from text]
      exact String.toList_ofList
    have chars : m.literal.toList.all isInnerChar = true := by
      rw [literal]
      exact List.all_eq_true.2 fun c hc => isInnerChar_of_isNumeral (isNumeral_of_mem_numberText hc)
    obtain ⟨ts, isLiteral, inner', noLiteral'⟩ := exists_inner_tokens chars
    refine ⟨_, isInner_member inner inner', readsAs_memberLine isName isLiteral, ?_⟩
    refine stringOf?_of_noLiteral (List.forall_mem_append.2 ⟨noLiteral, ?_⟩)
    exact List.forall_mem_cons.2 ⟨TokenKind.noConfusion, noLiteral'⟩
  | null | bool | array | object => cases value

theorem exists_groups {ps : List (Member × Json)} (h : ∀ p ∈ ps, p ∈ valuedMembers values) :
    ∃ groups : List (List Token), (∀ g ∈ groups, IsInner g) ∧
      TypeScript.ReadsAs ((ps.map (·.1)).flatMap memberLine)
        (groups.flatMap (· ++ [.mark [] ','])) ∧
      groups.filterMap stringOf? = ps.filterMap fun p => reread? p.1.name p.2 := by
  induction ps with
  | nil => exact ⟨[], fun _ none => absurd none List.not_mem_nil, readsAs_nil, rfl⟩
  | cons p ps ih =>
    obtain ⟨first, others⟩ := List.forall_mem_cons.1 h
    obtain ⟨group, inner, reads, string⟩ := exists_group first
    obtain ⟨groups, inner', reads', strings⟩ := ih others
    refine ⟨group :: groups, List.forall_mem_cons.2 ⟨inner, inner'⟩, ?_, ?_⟩
    · rw [List.map_cons, List.flatMap_cons, List.flatMap_cons]
      exact reads.append reads'
    · rw [List.filterMap_cons, List.filterMap_cons, string, strings]

/-- The lines of the members are read as tokens in which their strings are found. -/
theorem exists_body (values : List Json) : ∃ body,
    TypeScript.ReadsAs ((membersOf values).flatMap memberLine) body ∧ braces 0 body = some 0 ∧
      stringsOf body = (valuedMembers values).filterMap fun p => reread? p.1.name p.2 := by
  obtain ⟨groups, inner, reads, strings⟩ :=
    exists_groups (fun _ hp => hp : ∀ p ∈ valuedMembers values, p ∈ valuedMembers values)
  rw [map_fst_valuedMembers] at reads
  refine ⟨_, reads, braces_of_noBrace (fun t ht => ?_) 0, (stringsOf_groups inner).trans strings⟩
  obtain ⟨group, hg, mem⟩ := List.mem_flatMap.1 ht
  rcases List.mem_append.1 mem with here | comma
  · exact ⟨inner group hg t here _ (by decide), inner group hg t here _ (by decide)⟩
  · rw [List.mem_singleton.1 comma]
    exact ⟨rfl, rfl⟩

theorem readsAs_declarationText {name : String} (isName : Token.IsName name) {members : List Member}
    {body : List Token} (reads : TypeScript.ReadsAs (members.flatMap memberLine) body) :
    TypeScript.ReadsAs (declarationText name members)
      (.word [] "export" :: .word [] "enum" :: .word [] name :: .mark [] '\x7b' ::
        (body ++ [.mark [] '\x7d'])) := by
  have blank : TypeScript.ReadsAs [' '] [] := readsAs_blank (by decide)
  have keyword : Tokenizes "export".toList [.word [] "export"] :=
    tokenizes_name (Token.isName_of_chars rfl (by decide))
  have enum : Tokenizes "enum".toList [.word [] "enum"] :=
    tokenizes_name (Token.isName_of_chars rfl (by decide))
  have brace : TypeScript.ReadsAs [' ', '\x7b'] [.mark [] '\x7b'] := readsAs_marks (by decide)
  have close : TypeScript.ReadsAs ['\x7d'] [.mark [] '\x7d'] := readsAs_marks (by decide)
  have opening := (keyword.append (blank.append_tokenizes
    (enum.append (blank.append_tokenizes ((tokenizes_name isName).append brace.tokenizes rfl)) rfl))
    rfl).line
  have whole := (opening.append reads).append close
  simpa [declarationText] using whole

theorem stringsOf_map_bare (ts : List Token) : stringsOf (ts.map Token.bare) = stringsOf ts := by
  refine stringsOf_eq_of_resembles (List.forall₂_map_left_iff.2 (List.forall₂_same.2 fun t _ => ?_))
  exact Token.resembles_of_bare_eq rfl

/-- The body of a declaration is what stands between its braces. -/
theorem strings_of_tokens {e : EnumTokens} {name : String} {body : List Token}
    (h : e.tokens.map Token.bare = .word [] "export" :: .word [] "enum" :: .word [] name ::
      .mark [] '\x7b' :: (body ++ [.mark [] '\x7d'])) : e.decl.strings = stringsOf body := by
  obtain ⟨-, keywordText⟩ := Token.isWord_iff.1 e.isWord_keyword
  rw [EnumTokens.strings_decl, ← stringsOf_map_bare]
  unfold EnumTokens.tokens at h
  cases modifiers : e.modifiers with
  | nil =>
    rw [modifiers] at h
    have first := congrArg Token.text (List.cons.inj h).1
    rw [Token.text_bare, keywordText] at first
    exact absurd first (by decide)
  | cons t more =>
    cases more with
    | nil =>
      rw [modifiers] at h
      simp only [List.cons_append, List.nil_append, List.map_cons, List.map_append, List.map_nil,
        List.cons.injEq] at h
      rw [(List.append_inj' h.2.2.2.2 rfl).1]
    | cons u more =>
      -- the keyword is no modifier
      have modifier := e.isModifier_of_mem u (by simp [modifiers])
      rw [modifiers] at h
      have second : u.text = "enum".toList :=
        congrArg Token.text (List.cons.inj (List.cons.inj h).2).1
      have other : ("enum".toList == "export".toList) = false ∧
          ("enum".toList == "declare".toList) = false ∧
          ("enum".toList == "const".toList) = false := by decide
      rw [Token.isModifier, Token.isWord, Token.isWord, Token.isWord, second, other.1, other.2.1,
        other.2.2, Bool.and_false] at modifier
      cases modifier

theorem exists_stable_of_mem {cs : List Char} (cut : Cut cs) {p : List Token × EnumTokens}
    (h : p ∈ cut.pieces) : ∃ us, Stable (p.2.tokens ++ us) cut.source.tail := by
  obtain ⟨before, ends⟩ := cut.stable
  obtain ⟨front, us, split⟩ := exists_tokens_of_mem h cut.rest
  rw [split, stableBefore_append] at before
  exact ⟨us, before.2, ends⟩

/-- A declaration that is written for listed values has the strings that are read back of them. -/
theorem strings_of_written {cs : List Char} {s : Source} {decls : List EnumDecl} {d : EnumDecl}
    (scans : Scans cs s decls) (mem : d ∈ decls)
    (written : d.text = declarationText d.name (membersOf values)) :
    d.strings = (valuedMembers values).filterMap fun p => reread? p.1.name p.2 := by
  obtain ⟨cut⟩ := exists_cut_of_scan (show scanEnums cs = .ok decls by
    rw [scanEnums, scans.read]; exact scans.scanned)
  obtain ⟨-, rfl⟩ := scans.unique ⟨cut.read, cut.scanned⟩
  obtain ⟨⟨lead, e⟩, hp, rfl⟩ := List.mem_map.1 mem
  obtain ⟨us, stable⟩ := exists_stable_of_mem cut hp
  obtain ⟨own, more⟩ := stableBefore_append.1 stable.1
  obtain ⟨body, reads, -, strings⟩ := exists_body values
  have declared := readsAs_declarationText (isName_decl own) reads
  -- the text is read as the tokens of the declaration and those behind it
  have whole := bareTokens_of_stable stable
  have behind := bareTokens_of_stable ⟨more, stable.2⟩
  have starts : startsToken (e.decl.text ++ textOf us cut.source.tail) = true := by
    rw [written, declarationText]
    simp only [String.toList_append, List.append_assoc]
    exact startsToken_cons (by decide : isBlank 'e' = false) (by decide) _
  have closed : ClosedGap e.first.gap := by
    rw [EnumTokens.tokens_eq] at own
    exact own.1
  rw [textOf_append, EnumTokens.textOf_tokens, bareTokens_gap (closed 0 _ starts), written,
    declared, behind, Option.map_some, List.map_append, Option.some.injEq] at whole
  exact (strings_of_tokens (List.append_cancel_right whole).symm).trans strings

/-! ### What a union says -/

theorem filterMap_eq_iff {α β : Type} {f g : α → Option β} {xs : List α}
    (h : ∀ x ∈ xs, g x = none → f x = none) :
    xs.filterMap f = xs.filterMap g ↔ ∀ x ∈ xs, f x = g x := by
  refine ⟨fun same => ?_, List.filterMap_congr⟩
  have fewer : ∀ ys : List α, (∀ x ∈ ys, g x = none → f x = none) →
      (ys.filterMap f).length ≤ (ys.filterMap g).length := by
    intro ys fewer
    rw [List.length_filterMap_eq_countP, List.length_filterMap_eq_countP]
    refine List.countP_mono_left fun y hy some => ?_
    rw [← Option.ne_none_iff_isSome] at some ⊢
    exact fun none => some (fewer y hy none)
  induction xs with
  | nil => exact fun x none => absurd none List.not_mem_nil
  | cons x xs ih =>
    obtain ⟨first, others⟩ := List.forall_mem_cons.1 h
    cases there : g x with
    | none =>
      rw [List.filterMap_cons_none there, List.filterMap_cons_none (first there)] at same
      exact List.forall_mem_cons.2 ⟨by rw [first there, there], ih others same⟩
    | some y =>
      cases here : f x with
      | none =>
        rw [List.filterMap_cons_some there, List.filterMap_cons_none here] at same
        have lengths := congrArg List.length same
        have few := fewer xs others
        rw [List.length_cons] at lengths
        omega
      | some z =>
        rw [List.filterMap_cons_some there, List.filterMap_cons_some here] at same
        obtain ⟨rfl, rest⟩ := List.cons.inj same
        exact List.forall_mem_cons.2 ⟨by rw [here, there], ih others rest⟩

/-- A listed string is read back as it is. -/
structure Arrives (name s : String) : Prop where
  token : isToken name = true
  noSubstitution : containsText substitution s.toList = false
  noBackspace : '\x08' ∉ s.toList
  noFeed : '\x0c' ∉ s.toList

theorem map_rereadChar_eq_self_iff {cs : List Char} :
    cs.map rereadChar = cs ↔ '\x08' ∉ cs ∧ '\x0c' ∉ cs := by
  have each : cs.map rereadChar = cs ↔ ∀ c ∈ cs, rereadChar c = c := by
    simpa using List.map_inj_left (l := cs) (f := rereadChar) (g := id)
  simp only [each, rereadChar_eq_self_iff]
  exact ⟨fun all => ⟨fun mem => (all _ mem).1 rfl, fun mem => (all _ mem).2 rfl⟩,
    fun none c hc => ⟨fun same => none.1 (same ▸ hc), fun same => none.2 (same ▸ hc)⟩⟩

theorem arrives_iff {name s : String} : reread? name (.string s) = some s ↔ Arrives name s := by
  have same : String.ofList (s.toList.map rereadChar) = s ↔
      '\x08' ∉ s.toList ∧ '\x0c' ∉ s.toList := by
    rw [← map_rereadChar_eq_self_iff, String.ext_iff, String.toList_ofList]
  rw [reread?, Option.ite_none_right_eq_some, Option.some.injEq, same, Bool.and_eq_true,
    Bool.not_eq_true']
  exact ⟨fun ⟨h, backspace, feed⟩ => ⟨h.1, h.2, backspace, feed⟩,
    fun h => ⟨⟨h.token, h.noSubstitution⟩, h.noBackspace, h.noFeed⟩⟩

theorem forall₂_means_iff {vs ws : List String} :
    List.Forall₂ Means (vs.map fun v => stringLiteral v.toList) (ws.map String.toList) ↔
      vs = ws := by
  have means {v w : String} : Means (stringLiteral v.toList) w.toList ↔ v = w :=
    ⟨fun h => String.ext (means_stringLiteral v.toList |>.unique h),
      fun same => same ▸ means_stringLiteral v.toList⟩
  simp only [List.forall₂_map_left_iff, List.forall₂_map_right_iff, means]
  exact List.forall₂_eq_eq_eq ▸ Iff.rfl

variable {dialect : Dialect} {name : String} {s : Schema} {members : List Member}
  {o : LayoutOptions} {limit : Nat} {mode : EnumMode} {file : FileContext} {d : EnumDecl}
  {c : Candidate}

/-- Where the default transforms make a union of an enum that was written for listed values, the
literals of the union are what is read back of the strings. They mean the listed strings, in order,
just if every one of them arrives. -/
theorem union_values_iff (declares : Declares dialect (typeName name) s values members)
    (replaces : DefaultReplaces limit mode file ((ofSchema dialect (typeName name) s).text o) d c)
    (written : d.text = declarationText d.name members) (isUnion : c.branded = false) :
    ∃ d' target vs, c.declaration = unionDeclaration d' target vs ∧
      vs = ((valuedMembers values).filterMap fun p => reread? p.1.name p.2) ∧
      (List.Forall₂ Means (vs.map fun v => stringLiteral v.toList)
          ((values.filterMap stringValue?).map String.toList) ↔
        ∀ p ∈ valuedMembers values, ∀ v, p.2 = .string v → Arrives p.1.name v) := by
  obtain rfl := declares.members_eq
  obtain ⟨d', target, union⟩ := replaces.exists_union isUnion
  obtain ⟨s', decls, scans, mem⟩ : ∃ s' decls,
      Scans ((ofSchema dialect (typeName name) s).text o) s' decls ∧ d ∈ decls := by
    cases replaces with
    | union scans mem => exact ⟨_, _, scans, mem⟩
    | bySize scans left => exact ⟨_, _, scans, (List.mem_filter.1 (List.mem_of_getElem? left)).1⟩
  have strings := strings_of_written scans mem written
  refine ⟨d', target, d.strings, union, strings, ?_⟩
  rw [forall₂_means_iff, strings, ← filterMap_valuedMembers, filterMap_eq_iff]
  · refine forall₂_congr fun p hp => ?_
    obtain ⟨m, v⟩ := p
    cases v with
    | string v =>
      refine ⟨fun same w value => ?_, fun arrives => arrives_iff.2 (arrives v rfl)⟩
      cases value
      exact arrives_iff.1 same
    | null | bool | number | array | object => simp [reread?, stringValue?]
  · intro p _ none
    obtain ⟨m, v⟩ := p
    cases v with
    | string => cases none
    | null | bool | number | array | object => rfl

/-! ### Statuses -/

/-- The first declaration of a text, and what the union transform plans for it. -/
def firstUnion (path : String) (cs : List Char) : Option (EnumDecl × Candidate) :=
  match Source.ofText? cs with
  | .error _ => none
  | .ok s =>
    match enumDecls [] s.tokens with
    | .ok (d :: _) => (Transform.union.plan s.words ⟨path, []⟩ d).value.map (d, ·)
    | _ => none

theorem replaces_of_firstUnion {path : String} {cs : List Char}
    (h : firstUnion path cs = some (d, c)) : DefaultReplaces limit mode ⟨path, []⟩ cs d c := by
  unfold firstUnion at h
  split at h
  · cases h
  · rename_i read
    split at h
    · rename_i scanned
      obtain ⟨c', planned, same⟩ := Option.map_eq_some_iff.1 h
      cases same
      exact .union ⟨read, scanned⟩ List.mem_cons_self planned
    · cases h

def statusSchema (values : List Json) : Schema :=
  .inline { types := [.string], enumValues := values } [] none none [] [] []

/-- The file of listed statuses. -/
def statusText (values : List Json) : List Char :=
  (ofSchema .openapi30 (typeName "StatusEnum") (statusSchema values)).text ⟨"T", "1", true⟩

/-- Listed statuses are declared by an enum that becomes a union of the strings. -/
structure MakesUnion (values : List Json) (strings : List String) : Prop where
  body : (ofSchema .openapi30 (typeName "StatusEnum") (statusSchema values)).body =
    .enum (membersOf values)
  union : (firstUnion "models/StatusEnum.ts" (statusText values)).map
    (fun p => (p.1.text, p.1.name, p.1.strings, p.2.branded)) =
      some (declarationText "StatusEnum" (membersOf values), "StatusEnum", strings, false)

theorem MakesUnion.exists {strings : List String} (h : MakesUnion values strings) : ∃ d c,
    Declares .openapi30 (typeName "StatusEnum") (statusSchema values) values (membersOf values) ∧
    DefaultReplaces limit mode ⟨"models/StatusEnum.ts", []⟩ (statusText values) d c ∧
    d.text = declarationText d.name (membersOf values) ∧ c.branded = false ∧
    d.strings = strings := by
  obtain ⟨⟨d, c⟩, found, same⟩ := Option.map_eq_some_iff.1 h.union
  simp only [Prod.mk.injEq] at same
  obtain ⟨text, name, strings, unbranded⟩ := same
  exact ⟨d, c, .model h.body, replaces_of_firstUnion found, name ▸ text, unbranded, strings⟩

theorem makesUnion_words : MakesUnion [.string "a", .string "b c"] ["a", "b c"] :=
  ⟨rfl, by decide +kernel⟩

theorem union_values_words : ∃ d c,
    Declares .openapi30 (typeName "StatusEnum") (statusSchema [.string "a", .string "b c"])
      [.string "a", .string "b c"] (membersOf [.string "a", .string "b c"]) ∧
    DefaultReplaces 5 .branded ⟨"models/StatusEnum.ts", []⟩
      (statusText [.string "a", .string "b c"]) d c ∧
    d.text = declarationText d.name (membersOf [.string "a", .string "b c"]) ∧
    c.branded = false ∧
    ∃ d' target vs, c.declaration = unionDeclaration d' target vs ∧
      vs = ((valuedMembers [.string "a", .string "b c"]).filterMap fun p => reread? p.1.name p.2) ∧
      (List.Forall₂ Means (vs.map fun v => stringLiteral v.toList)
          (([Json.string "a", .string "b c"].filterMap stringValue?).map String.toList) ↔
        ∀ p ∈ valuedMembers [.string "a", .string "b c"], ∀ v, p.2 = .string v →
          Arrives p.1.name v) := by
  obtain ⟨d, c, declares, replaces, written, isUnion, -⟩ := makesUnion_words.exists
  exact ⟨d, c, declares, replaces, written, isUnion,
    union_values_iff declares replaces written isUnion⟩

/-- A string with the start of a substitution is dropped, and a backspace becomes a letter. -/
theorem union_drops_and_alters : ∃ d c,
    Declares .openapi30 (typeName "StatusEnum")
      (statusSchema [.string "a", .string "$\x7bb\x7d", .string "c\x08d"])
      [.string "a", .string "$\x7bb\x7d", .string "c\x08d"]
      (membersOf [.string "a", .string "$\x7bb\x7d", .string "c\x08d"]) ∧
    DefaultReplaces 5 .branded ⟨"models/StatusEnum.ts", []⟩
      (statusText [.string "a", .string "$\x7bb\x7d", .string "c\x08d"]) d c ∧
    d.text = declarationText d.name
      (membersOf [.string "a", .string "$\x7bb\x7d", .string "c\x08d"]) ∧
    c.branded = false ∧
    (∃ d' target, c.declaration = unionDeclaration d' target ["a", "cbd"]) ∧
    ¬ List.Forall₂ Means (["a", "cbd"].map fun v => stringLiteral v.toList)
      (([Json.string "a", .string "$\x7bb\x7d", .string "c\x08d"].filterMap stringValue?).map
        String.toList) := by
  have made : MakesUnion [.string "a", .string "$\x7bb\x7d", .string "c\x08d"] ["a", "cbd"] :=
    ⟨rfl, by decide +kernel⟩
  obtain ⟨d, c, declares, replaces, written, isUnion, strings⟩ := made.exists
  refine ⟨d, c, declares, replaces, written, isUnion, strings ▸ replaces.exists_union isUnion, ?_⟩
  rw [forall₂_means_iff]
  decide

end ModelFile

end OpenApiModels
