import OpenApiModels.Proofs.TypeScript.Lexing
import OpenApiModels.Proofs.TypeScript.TypeGrammar

/-!
# Texts of types

A text is cut into lexemes at blanks and marks, except inside of string literals. `Says` goes from
a text to the tree that the grammar reads in it, and it is put together from the parts of a text
as types are written.
-/

namespace OpenApiModels.TypeScript

/-! ### Cutting -/

/-- Brackets, operators, and the marks between properties and between arguments. -/
def isTypeMark (c : Char) : Bool :=
  "|&()[]\x7b\x7d<>,;:?".toList.contains c

/-- A character of a name or a number. -/
def isAtomChar (c : Char) : Bool :=
  c != ' ' && c != '"' && !isTypeMark c

/-- The lexemes of a text, unless a string literal in it is left open. -/
def lexemes? (cs : List Char) : Option (List Lexeme) :=
  match cs with
  | [] => some []
  | c :: r =>
    if c = ' ' then lexemes? r
    else if c = '"' then
      match h : splitLiteral '"' r with
      | none => none
      | some (text, rest) =>
        have := congrArg List.length (append_of_splitLiteral h)
        (lexemes? rest).map (.atom (c :: text) :: ·)
    else if isTypeMark c then (lexemes? r).map (.mark c :: ·)
    else
      have := (List.dropWhile_sublist (l := r) isAtomChar).length_le
      (lexemes? (r.dropWhile isAtomChar)).map (.atom (c :: r.takeWhile isAtomChar) :: ·)
termination_by cs.length
decreasing_by all_goals simp_all; try omega

theorem lexemes?_blank (r : List Char) : lexemes? (' ' :: r) = lexemes? r := by
  rw [lexemes?, if_pos rfl]

theorem lexemes?_mark {c : Char} (h : isTypeMark c = true) (r : List Char) :
    lexemes? (c :: r) = (lexemes? r).map (.mark c :: ·) := by
  have notBlank : c ≠ ' ' := by
    rintro rfl
    cases h
  have notQuote : c ≠ '"' := by
    rintro rfl
    cases h
  rw [lexemes?, if_neg notBlank, if_neg notQuote, if_pos h]

theorem lexemes?_literal {r text rest : List Char} (h : splitLiteral '"' r = some (text, rest)) :
    lexemes? ('"' :: r) = (lexemes? rest).map (.atom ('"' :: text) :: ·) := by
  rw [lexemes?, if_neg (by decide), if_pos rfl]
  split
  · rename_i none
    rw [h] at none
    cases none
  · rename_i found
    rw [h] at found
    obtain ⟨rfl, rfl⟩ := Prod.mk.inj (Option.some.inj found)
    rfl

theorem lexemes?_word {c : Char} (h : isAtomChar c = true) (r : List Char) :
    lexemes? (c :: r) =
      (lexemes? (r.dropWhile isAtomChar)).map (.atom (c :: r.takeWhile isAtomChar) :: ·) := by
  simp only [isAtomChar, Bool.and_eq_true, bne_iff_ne, Bool.not_eq_true'] at h
  obtain ⟨⟨notBlank, notQuote⟩, notMark⟩ := h
  rw [lexemes?, if_neg notBlank, if_neg notQuote, if_neg (by simp [notMark])]

/-- A text that is one lexeme besides marks. -/
inductive IsAtom : List Char → Prop where
  | word {text : List Char} (nonempty : text ≠ []) (chars : text.all isAtomChar = true) :
    IsAtom text
  | literal {body : List Char} (closed : splitLiteral '"' body = some (body, [])) :
    IsAtom ('"' :: body)

/-- An atom does not go on where the text does. -/
def EndsAtom (rest : List Char) : Prop :=
  rest.head?.any isAtomChar = false

/-- The text has the lexemes wherever it stands, unless an atom at its end goes on behind it. -/
def Lexes (text : List Char) (ls : List Lexeme) : Prop :=
  ∀ rest, EndsAtom rest → lexemes? (text ++ rest) = (lexemes? rest).map (ls ++ ·)

namespace Lexes

variable {a b : List Char} {as bs : List Lexeme}

theorem nil : Lexes [] [] := fun rest _ => by simp

theorem append {c : Char} (ha : Lexes a as) (hb : Lexes (c :: b) bs)
    (ends : isAtomChar c = false) : Lexes (a ++ c :: b) (as ++ bs) := by
  intro rest hrest
  rw [List.append_assoc, ha (c :: b ++ rest) ends, hb rest hrest, Option.map_map]
  simp [Function.comp_def]

theorem blank (h : Lexes b bs) : Lexes (' ' :: b) bs := fun rest hrest => by
  rw [List.cons_append, lexemes?_blank, h rest hrest]

theorem mark {c : Char} (isMark : isTypeMark c = true) (h : Lexes b bs) :
    Lexes (c :: b) (.mark c :: bs) := fun rest hrest => by
  rw [List.cons_append, lexemes?_mark isMark, h rest hrest, Option.map_map]
  rfl

theorem atom {text : List Char} (h : IsAtom text) : Lexes text [.atom text] := by
  intro rest hrest
  cases h with
  | @literal body closed =>
    exact lexemes?_literal (splitLiteral_congr closed rest)
  | word nonempty chars =>
    obtain ⟨c, r, rfl⟩ := List.exists_cons_of_ne_nil nonempty
    obtain ⟨first, others⟩ := List.forall_mem_cons.1 (List.all_eq_true.1 chars)
    have cut := span_append_iff.2 ⟨others, hrest⟩
    rw [List.cons_append, lexemes?_word first, cut.1, cut.2]
    rfl

theorem eq (h : Lexes a as) : lexemes? a = some as := by
  have whole := h [] rfl
  simpa [lexemes?] using whole

theorem operator (h : Lexes a as) (h' : Lexes b bs) (op : Operator) :
    Lexes (a ++ ' ' :: op.sign :: ' ' :: b) (as ++ .mark op.sign :: bs) := by
  have sign : isTypeMark op.sign = true := by cases op <;> decide
  exact h.append (h'.blank.mark sign).blank (by decide)

theorem head?_eq (h : Lexes a as) {c : Char} (isMark : isTypeMark c = true)
    (first : a.head? = some c) : as.head? = some (.mark c) := by
  obtain ⟨r, rfl⟩ := List.head?_eq_some_iff.1 first
  obtain ⟨ls, -, rfl⟩ := Option.map_eq_some_iff.1 ((lexemes?_mark isMark r).symm.trans h.eq)
  rfl

end Lexes

theorem isAtomChar_of_isTypeMark {c : Char} (h : isTypeMark c = true) : isAtomChar c = false := by
  simp [isAtomChar, h]

theorem Lexes.enclosed {text : List Char} {ls : List Lexeme} (h : Lexes text ls)
    {opening closing : Char} (isOpening : isTypeMark opening = true)
    (isClosing : isTypeMark closing = true) :
    Lexes (opening :: text ++ [closing]) (.mark opening :: ls ++ [.mark closing]) :=
  .mark isOpening (h.append (.mark isClosing .nil) (isAtomChar_of_isTypeMark isClosing))

/-! ### Reading -/

/-- The lexemes of the text are read as the type. -/
def Says (level : Level) (text : List Char) (t : TypeTree) : Prop :=
  ∃ ls, Lexes text ls ∧ Reads level ls t

/-- The text as a whole is read as the type. -/
def ReadsAsType (text : List Char) (t : TypeTree) : Prop :=
  ∃ ls, lexemes? text = some ls ∧ Reads (.operator .union) ls t

namespace Says

variable {level : Level} {op : Operator} {text text' : List Char} {t u : TypeTree}

/-- A text that says a type is read as that type and as no other one. -/
theorem readsAsType_iff (h : Says level text t) : ReadsAsType text u ↔ u = t := by
  obtain ⟨ls, lexes, reads⟩ := h
  constructor
  · rintro ⟨ls', lexes', reads'⟩
    rw [lexes.eq] at lexes'
    obtain rfl := Option.some.inj lexes'
    exact reads'.unique reads.to_union
  · rintro rfl
    exact ⟨ls, lexes.eq, reads.to_union⟩

theorem loosen (h : Says .operand text t) (op : Operator) : Says (.operator op) text t :=
  let ⟨ls, lexes, reads⟩ := h
  ⟨ls, lexes, reads.loosen op⟩

theorem to_union (h : Says level text t) : Says (.operator .union) text t :=
  let ⟨ls, lexes, reads⟩ := h
  ⟨ls, lexes, reads.to_union⟩

theorem atom (h : IsAtom text) : Says .operand text (.atom text) :=
  ⟨[.atom text], .atom h, .atom text⟩

theorem parentheses (h : Says level text t) : Says .operand ('(' :: text ++ [')']) t :=
  let ⟨_, lexes, reads⟩ := h.to_union
  ⟨_, lexes.enclosed (by decide) (by decide), reads.parentheses⟩

theorem array (h : Says .operand text t) : Says .operand (text ++ ['[', ']']) (.array t) := by
  obtain ⟨ls, lexes, reads⟩ := h
  have brackets : Lexes ['[', ']'] [.mark '[', .mark ']'] :=
    .mark (by decide) (.mark (by decide) .nil)
  exact ⟨_, lexes.append brackets (by decide), reads.array⟩

theorem record (h : Says level text t) :
    Says .operand ("Record<string, ".toList ++ text ++ ['>'])
      (.apply "Record".toList [.atom "string".toList, t]) := by
  obtain ⟨ls, lexes, reads⟩ := h.to_union
  have record : IsAtom "Record".toList := .word (by decide) (by decide)
  have key : IsAtom "string".toList := .word (by decide) (by decide)
  have close : Lexes (text ++ ['>']) (ls ++ [.mark '>']) :=
    lexes.append (.mark (by decide) .nil) (by decide)
  have value : Lexes (',' :: ' ' :: (text ++ ['>'])) (.mark ',' :: (ls ++ [.mark '>'])) :=
    .mark (by decide) close.blank
  have args := (Lexes.atom key).append value (by decide)
  have whole := (Lexes.atom record).append (.mark (c := '<') (by decide) args) (by decide)
  have each : ∀ a ∈ [([Lexeme.atom "string".toList], TypeTree.atom "string".toList), (ls, t)],
      Reads (.operator .union) a.1 a.2 := by
    simpa using ⟨(Reads.atom _).loosen .union, reads⟩
  have tree := Reads.apply "Record".toList (List.cons_ne_nil _ _) each
  refine ⟨_, whole, ?_⟩
  simpa [joined_cons_cons] using tree

/-- Two types with an operator between them. -/
theorem combine (h : Says (.operator op) text t) (h' : Says (.operator op) text' u) :
    Says (.operator op) (text ++ ' ' :: op.sign :: ' ' :: text') (.combine op [t, u]) := by
  obtain ⟨ls, lexes, reads⟩ := h
  obtain ⟨ls', lexes', reads'⟩ := h'
  exact ⟨_, lexes.operator lexes' op, reads.combine reads'⟩

/-- Types with an operator between them, each of which may have it as well. -/
theorem join (op : Operator) {α : Type} {parts : List α} (write : α → List Char)
    (read : α → TypeTree) (nonempty : parts ≠ [])
    (each : ∀ p ∈ parts, Says (.operator op) (write p) (read p)) :
    Says (.operator op) (List.intercalate [' ', op.sign, ' '] (parts.map write))
      (.combine op (parts.map read)) := by
  induction parts with
  | nil => exact absurd rfl nonempty
  | cons p parts ih =>
    obtain ⟨here, others⟩ := List.forall_mem_cons.1 each
    cases parts with
    | nil => simpa using here
    | cons q parts =>
      have whole := here.combine (ih (List.cons_ne_nil q parts) others)
      have grouped := TypeTree.combine_append op (List.cons_ne_nil (read p) [])
        (List.cons_ne_nil (read q) (parts.map read))
      rw [TypeTree.combine_singleton, List.singleton_append] at grouped
      rw [List.map_cons, List.map_cons, List.intercalate_cons_cons, List.map_cons, List.map_cons,
        grouped]
      simpa using whole

section Fields

variable {α : Type} {fields : List α} (key : α → List Char) (required : α → Bool)
  (write : α → List Char) (read : α → TypeTree)

theorem exists_field {f : α} (isKey : IsAtom (key f))
    (h : Says (.operator .union) (write f) (read f)) :
    ∃ r : FieldReading, r.read = (key f, required f, read f) ∧
      Reads (.operator .union) r.lexemes r.tree ∧
      Lexes (key f ++ (if required f then [] else ['?']) ++ ':' :: ' ' :: write f) r.written := by
  obtain ⟨ls, lexes, reads⟩ := h
  have colon : Lexes (':' :: ' ' :: write f) (.mark ':' :: ls) := .mark (by decide) lexes.blank
  refine ⟨⟨key f, required f, ls, read f⟩, rfl, reads, ?_⟩
  rw [FieldReading.written]
  cases required f with
  | true =>
    have field := (Lexes.atom isKey).append colon (by decide)
    simpa using field
  | false =>
    have field := (Lexes.atom isKey).append (.mark (c := '?') (by decide) colon) (by decide)
    simpa using field

theorem exists_fields (keys : ∀ f ∈ fields, IsAtom (key f))
    (each : ∀ f ∈ fields, Says (.operator .union) (write f) (read f)) :
    ∃ rs : List FieldReading, rs.map (·.read) = fields.map (fun f => (key f, required f, read f)) ∧
      (∀ r ∈ rs, Reads (.operator .union) r.lexemes r.tree) ∧
      Lexes (List.intercalate [';', ' '] (fields.map fun f =>
        key f ++ (if required f then [] else ['?']) ++ ':' :: ' ' :: write f))
        (joined ';' (rs.map (·.written))) := by
  induction fields with
  | nil => exact ⟨[], rfl, fun _ h => absurd h List.not_mem_nil, .nil⟩
  | cons f fields ih =>
    obtain ⟨isKey, keys⟩ := List.forall_mem_cons.1 keys
    obtain ⟨isType, others⟩ := List.forall_mem_cons.1 each
    obtain ⟨r, read, reads, lexes⟩ := exists_field key required write read isKey isType
    obtain ⟨rs, readings, each, rest⟩ := ih keys others
    refine ⟨r :: rs, ?_, List.forall_mem_cons.2 ⟨reads, each⟩, ?_⟩
    · rw [List.map_cons, List.map_cons, read, readings]
    · cases fields with
      | nil =>
        obtain rfl : rs = [] := List.map_eq_nil_iff.1 readings
        simpa using lexes
      | cons g fields =>
        obtain ⟨r', rs, rfl⟩ : ∃ r' rs', rs = r' :: rs' :=
          List.exists_cons_of_ne_nil fun empty => by simp [empty] at readings
        have whole := lexes.append (.mark (c := ';') (by decide) rest.blank) (by decide)
        rw [List.map_cons, List.map_cons, List.map_cons, List.map_cons,
          List.intercalate_cons_cons, joined_cons_cons]
        simpa using whole

theorem object (keys : ∀ f ∈ fields, IsAtom (key f))
    (each : ∀ f ∈ fields, Says (.operator .union) (write f) (read f)) :
    Says .operand ('\x7b' :: ' ' :: List.intercalate [';', ' '] (fields.map fun f =>
        key f ++ (if required f then [] else ['?']) ++ ':' :: ' ' :: write f) ++ [' ', '\x7d'])
      (.object (fields.map fun f => (key f, required f, read f))) := by
  obtain ⟨rs, readings, each, lexes⟩ := exists_fields key required write read keys each
  have close : Lexes [' ', '\x7d'] [.mark '\x7d'] := Lexes.blank (.mark (by decide) .nil)
  have whole := Lexes.mark (c := '\x7b') (by decide) (lexes.append close (by decide)).blank
  rw [← readings]
  exact ⟨_, by simpa using whole, by simpa using Reads.object each⟩

end Fields

end Says

/-- A text that starts with a brace and says a union has a sign outside of brackets. -/
theorem Says.not_union {text : List Char} {t : TypeTree}
    (h : Says (.operator .intersection) text t) (brace : text.head? = some '\x7b')
    (ts : List TypeTree) : t ≠ .combined .union ts := by
  rintro rfl
  obtain ⟨ls, lexes, reads⟩ := h
  have parenthesis := reads.operand_of_union.head?_of_combined
  rw [lexes.head?_eq (by decide) brace] at parenthesis
  cases parenthesis

/-! ### Alternatives -/

/-- The lexemes of the text are those of the alternatives. -/
def Spans (text : List Char) (ts : List TypeTree) : Prop :=
  ∃ ls, Lexes text ls ∧ Alternates ls ts

theorem Says.exists_spans {text : List Char} {t : TypeTree} (h : Says (.operator .union) text t) :
    ∃ ts, Spans text ts ∧ t = .combine .union ts := by
  obtain ⟨ls, lexes, reads⟩ := h
  obtain ⟨ts, alternates, rfl⟩ := reads.exists_alternates
  exact ⟨ts, ⟨ls, lexes, alternates⟩, rfl⟩

namespace Spans

variable {text text' : List Char} {ts us : List TypeTree}

theorem reads (h : Spans text ts) : Says (.operator .union) text (.combine .union ts) :=
  let ⟨ls, lexes, alternates⟩ := h
  ⟨ls, lexes, alternates.reads⟩

theorem ne_nil (h : Spans text ts) : ts ≠ [] := by
  obtain ⟨_, _, parts, nonempty, _, _, rfl⟩ := h
  simpa using nonempty

theorem single {t : TypeTree} (h : Spans text [t]) : Says (.operator .intersection) text t := by
  obtain ⟨_, lexes, parts, nonempty, each, rfl, one⟩ := h
  obtain ⟨p, rfl, rfl⟩ := List.map_eq_singleton_iff.1 one.symm
  exact ⟨p.1, by simpa using lexes, each p List.mem_cons_self⟩

theorem two_le_of_union (h : Spans text ts) (brace : text.head? = some '\x7b')
    (union : TypeTree.combine .union ts = .combined .union us) : 2 ≤ ts.length := by
  match ts with
  | [] => exact absurd rfl h.ne_nil
  | [t] => exact absurd union (h.single.not_union brace us)
  | _ :: _ :: _ => simp

/-- The sign of an intersection between texts takes alternatives apart. -/
theorem meet (h : Spans text ts) (h' : Spans text' us) :
    ∃ vs, Spans (text ++ [' ', '&', ' '] ++ text') vs ∧
      ts.length ≤ vs.length ∧ us.length ≤ vs.length := by
  obtain ⟨ls, lexes, alternates⟩ := h
  obtain ⟨ls', lexes', alternates'⟩ := h'
  obtain ⟨vs, both, long, long'⟩ := alternates.meet alternates'
  have whole := lexes.operator lexes' .intersection
  exact ⟨vs, ⟨_, by simpa [Operator.sign] using whole, both⟩, long, long'⟩

/-- Where one of the texts has several alternatives, so does the whole. -/
theorem meet_all {α : Type} {parts : List α} (write : α → List Char) (many : α → Prop)
    (nonempty : parts ≠ [])
    (each : ∀ p ∈ parts, ∃ ts, Spans (write p) ts ∧ (many p → 2 ≤ ts.length)) :
    ∃ vs, Spans (List.intercalate [' ', '&', ' '] (parts.map write)) vs ∧
      ∀ p ∈ parts, many p → 2 ≤ vs.length := by
  induction parts with
  | nil => exact absurd rfl nonempty
  | cons p parts ih =>
    obtain ⟨⟨ts, spans, long⟩, others⟩ := List.forall_mem_cons.1 each
    cases parts with
    | nil => exact ⟨ts, by simpa using spans, List.forall_mem_singleton.2 long⟩
    | cons q parts =>
      obtain ⟨us, rest, longer⟩ := ih (List.cons_ne_nil q parts) others
      obtain ⟨vs, whole, one, other⟩ := spans.meet rest
      rw [List.map_cons, List.map_cons, List.intercalate_cons_cons, ← List.map_cons]
      refine ⟨vs, whole, List.forall_mem_cons.2 ⟨fun h => ?_, fun r hr h => ?_⟩⟩
      · exact Nat.le_trans (long h) one
      · exact Nat.le_trans (longer r hr h) other

end Spans

end OpenApiModels.TypeScript
