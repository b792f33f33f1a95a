import OpenApiModels.Proofs.Offsets.Unquoting
import OpenApiModels.Proofs.TypeScript.Tiling

/-!
# Members by indices and byte offsets

The members of a declaration are read from parts of the list of tokens, and initializers from
slices of the text between two tokens. `members_eq` says that no part and no slice goes wrong.
-/

namespace OpenApiModels.Offsets

open Text TypeScript

/-- The entry with an index. -/
def item (ts : List Token) (i : Nat) : Checked Token :=
  match ts[i]? with
  | some t => .ok t
  | none => .error (.fault (.index i))

/-- The entries from one index up to another. -/
def part (ts : List Token) (start stop : Nat) : Checked (List Token) :=
  if start ≤ stop ∧ stop ≤ ts.length then .ok ((ts.take stop).drop start)
  else .error (.fault (.slice start stop))

/-- The text from the start of the first token to the end of the last one. -/
def span (text : List Char) (ts : List Token) : Checked (List Char) := do
  let first ← item ts 0
  let last ← item ts (← minus ts.length 1)
  slice text first.start last.stop

/-- The text of a literal, and that of any other token as it is. -/
def plainText (t : Token) : Checked String := do
  if t.kind = .literal then return String.ofList (← unquote t.text)
  else return t.name

/-- The value of an initializer. -/
def memberValue (text : List Char) : List Token → Checked MemberValue
  | [] => return .other ""
  | [t] =>
    if t.kind = .literal ∧ !containsText ['$', '\x7b'] t.text then do
      return .string (← plainText t)
    else if t.kind = .number then return .number t.name
    else return .other t.name
  | [t, u] =>
    if t.isMark '-' ∧ u.kind = .number then return .number ("-" ++ u.name)
    else do return .other (String.ofList (← span text [t, u]))
  | ts => do return .other (String.ofList (← span text ts))

/-- The member that the tokens between two commas give. -/
def member? (text : List Char) : List Token → Checked (Option EnumMember)
  | [] => return none
  | first :: rest => do
    let name ← plainText first
    match rest with
    | [] => return some ⟨name, .auto⟩
    | t :: ts =>
      if t.isMark '=' then return some ⟨name, ← memberValue text ts⟩
      else return some ⟨name, .other (String.ofList (← span text (t :: ts)))⟩

/-- The members of a body, of which the tokens from index `i` on are still to be looked at. Those
from `start` on belong to the next member, in which `depth` brackets are open. -/
def membersFrom (text : List Char) (body : List Token) (start i depth : Nat) :
    List Token → Checked (List EnumMember)
  | [] => do return (← member? text (← part body start body.length)).toList
  | t :: rest =>
    if t.isMark '(' || t.isMark '[' || t.isMark '\x7b' then
      membersFrom text body start (i + 1) (depth + 1) rest
    else if t.isMark ')' || t.isMark ']' || t.isMark '\x7d' then
      membersFrom text body start (i + 1) (depth - 1) rest
    else if t.isMark ',' ∧ depth = 0 then do
      let found ← member? text (← part body start i)
      return found.toList ++ (← membersFrom text body (i + 1) (i + 1) depth rest)
    else membersFrom text body start (i + 1) depth rest

def members (text : List Char) (body : List Token) : Checked (List EnumMember) :=
  membersFrom text body 0 0 0 body

/-! ### Parts of the tokens -/

theorem item_append {ts a b : List Token} {t : Token} {i : Nat} (split : ts = a ++ t :: b)
    (at_ : i = a.length) : item ts i = .ok t := by
  subst split at_
  rw [item, List.getElem?_append_right (Nat.le_refl _), Nat.sub_self]
  rfl

theorem part_append {ts a t b : List Token} {start stop : Nat} (split : ts = a ++ (t ++ b))
    (first : start = a.length) (last : stop = a.length + t.length) :
    part ts start stop = .ok t := by
  subst split first last
  rw [part, if_pos ⟨Nat.le_add_right _ _, by simp only [List.length_append]; omega⟩,
    ← List.append_assoc, ← List.length_append, List.take_left, List.drop_left]

/-! ### Tokens without gaps -/

section Gapless

variable (t : Token)

@[simp] theorem gapless_kind : (gapless t).kind = t.kind := rfl
@[simp] theorem gapless_text : (gapless t).text = t.text := rfl
@[simp] theorem gapless_start : (gapless t).start = t.start := rfl
@[simp] theorem gapless_stop : (gapless t).stop = t.stop := rfl
@[simp] theorem gapless_name : (gapless t).name = t.name := rfl
@[simp] theorem gapless_isMark (c : Char) : (gapless t).isMark c = t.isMark c := rfl
@[simp] theorem gapless_isWord (w : String) : (gapless t).isWord w = t.isWord w := rfl
@[simp] theorem gapless_isModifier : (gapless t).isModifier = t.isModifier := rfl

end Gapless

/-! ### The members that are found -/

theorem membersFrom_comma {t : Token} (h : t.isMark ',' = true) (text : List Char)
    (body : List Token) (start i : Nat) (rest : List Token) :
    membersFrom text body start i 0 (t :: rest) = do
      let found ← member? text (← part body start i)
      return found.toList ++ (← membersFrom text body (i + 1) (i + 1) 0 rest) := by
  rw [membersFrom, if_neg, if_neg, if_pos ⟨h, rfl⟩]
  all_goals simp [Token.isMark_eq_false h]

theorem membersFrom_cons {t : Token} {depth : Nat} (h : ¬(t.isMark ',' = true ∧ depth = 0))
    (text : List Char) (body : List Token) (start i : Nat) (rest : List Token) :
    membersFrom text body start i depth (t :: rest) =
      membersFrom text body start (i + 1) (depthAfter depth t) rest := by
  rw [membersFrom, if_neg h, depthAfter]
  split
  · rfl
  · split <;> rfl

theorem filterMap_member? (group : List Token) (groups : List (List Token)) :
    (group :: groups).filterMap TypeScript.member? =
      (TypeScript.member? group).toList ++ groups.filterMap TypeScript.member? := by
  rw [List.filterMap_cons]
  cases TypeScript.member? group <;> rfl

section Read

variable {text : List Char} {s : Source} (read : Source.ofText? text = .ok s)
include read

/-- A literal among the tokens has both its quotes. -/
theorem isQuoted_of_mem {t : Token} (mem : t ∈ s.tokens) (literal : t.kind = .literal) :
    IsQuoted t.text := by
  obtain ⟨a, b, split⟩ := List.append_of_mem mem
  obtain ⟨⟨stable, -⟩, -⟩ := stable_of_readSource read
  rw [split, stableBefore_append] at stable
  obtain ⟨c, r, text, -, found⟩ := stable.2.2.1
  have found := found 0
  rw [text, Token.splitToken_append_iff, literal] at found
  simp only [reduceCtorEq, false_and, and_false, or_false, true_and] at found
  rw [text]
  exact isQuoted_of_splitLiteral found.1 found.2

/-- The text from one token to another is a slice. -/
theorem slice_tokens {a ts b : List Token} {t u : Token} (split : s.tokens = a ++ (ts ++ b))
    (first : ts.head? = some t) (last : ts.getLast? = some u) :
    slice text t.start u.stop = .ok (Token.slice ts) := by
  have based := (stable_of_readSource read).2
  have whole : textOf s.tokens s.tail = text := text_of_ofText? read
  rw [split] at based whole
  have found := slice?_tokens s.tail based first last
  rw [whole] at found
  exact slice_eq found

theorem span_eq {ts : List Token} (inside : ts <:+: s.tokens) (nonempty : ts ≠ []) :
    span text (ts.map gapless) = .ok (Token.slice ts) := by
  obtain ⟨a, b, split⟩ := inside
  obtain ⟨t, more, first⟩ := List.exists_cons_of_ne_nil nonempty
  obtain ⟨front, u, last⟩ := List.eq_nil_or_concat ts |>.resolve_left nonempty
  rw [List.concat_eq_append] at last
  have count : minus (ts.map gapless).length 1 = .ok front.length := by
    rw [minus, List.length_map, last, List.length_append, List.length_singleton,
      if_pos (Nat.le_add_left _ _), Nat.add_sub_cancel]
  have firstItem : item (ts.map gapless) 0 = .ok (gapless t) :=
    item_append (a := []) (b := more.map gapless) (by rw [first]; rfl) rfl
  have lastItem : item (ts.map gapless) front.length = .ok (gapless u) :=
    item_append (a := front.map gapless) (b := []) (by rw [last, List.map_append]; rfl)
      (List.length_map _).symm
  rw [span, firstItem, ok_bind, count, ok_bind, lastItem, ok_bind]
  exact slice_tokens read (a := a) (b := b) (t := t) (u := u)
    (by rw [← split, List.append_assoc]) (by rw [first]; rfl) (by rw [last, List.getLast?_concat])

theorem plainText_eq {t : Token} (mem : t ∈ s.tokens) :
    plainText (gapless t) =
      .ok (if t.kind = .literal then String.ofList (TypeScript.unquote t.text) else t.name) := by
  rw [plainText, gapless_kind, gapless_text, gapless_name]
  by_cases literal : t.kind = .literal
  · rw [if_pos literal, if_pos literal, unquote_eq (isQuoted_of_mem read mem literal)]
    rfl
  · rw [if_neg literal, if_neg literal]
    rfl

theorem memberValue_eq {ts : List Token} (inside : ts <:+: s.tokens) :
    memberValue text (ts.map gapless) = .ok (TypeScript.memberValue ts) := by
  match ts, inside with
  | [], _ => rfl
  | [t], inside =>
    have mem : t ∈ s.tokens := inside.subset (List.mem_singleton_self t)
    simp only [List.map_cons, List.map_nil, memberValue, TypeScript.memberValue, gapless_kind,
      gapless_text, gapless_name, plainText_eq read mem, ok_bind, pure_eq]
    split
    · rename_i plain
      rw [if_pos plain.1]
    · exact (apply_ite Except.ok _ _ _).symm
  | [t, u], inside =>
    have found := span_eq read inside (List.cons_ne_nil _ _)
    simp only [List.map_cons, List.map_nil] at found
    simp only [List.map_cons, List.map_nil, memberValue, TypeScript.memberValue, gapless_kind,
      gapless_isMark, gapless_name, found, ok_bind, pure_eq]
    exact (apply_ite Except.ok _ _ _).symm
  | t :: u :: v :: ts, inside =>
    have found := span_eq read inside (List.cons_ne_nil _ _)
    simp only [List.map_cons] at found
    simp only [List.map_cons, memberValue, TypeScript.memberValue, found, ok_bind, pure_eq]

theorem member?_eq {ts : List Token} (inside : ts <:+: s.tokens) :
    member? text (ts.map gapless) = .ok (TypeScript.member? ts) := by
  cases ts with
  | nil => rfl
  | cons first rest =>
    have behind : rest <:+: s.tokens := (List.suffix_cons first rest).isInfix.trans inside
    rw [List.map_cons, member?, plainText_eq read (inside.subset List.mem_cons_self), ok_bind,
      TypeScript.member?.eq_def]
    cases rest with
    | nil => rfl
    | cons t ts =>
      have init : ts <:+: s.tokens := (List.suffix_cons t ts).isInfix.trans behind
      have same := gapless_isMark t '='
      rw [List.map_cons]
      dsimp only
      by_cases equals : t.isMark '=' = true
      · rw [if_pos (same.trans equals), if_pos equals, memberValue_eq read init]
        rfl
      · rw [if_neg (same ▸ equals), if_neg equals, ← List.map_cons,
          span_eq read behind (List.cons_ne_nil _ _)]
        rfl

theorem membersFrom_eq {body group rest a : List Token} {depth : Nat} (inside : body <:+: s.tokens)
    (split : body = a ++ (group ++ rest)) {g : List Token} {groups : List (List Token)}
    (found : splitMembers depth rest = g :: groups) :
    membersFrom text (body.map gapless) a.length (a.length + group.length) depth
        (rest.map gapless) = .ok (((group ++ g) :: groups).filterMap TypeScript.member?) := by
  induction rest generalizing a group depth g groups with
  | nil =>
    obtain ⟨rfl, rfl⟩ := List.cons.inj (show [[]] = g :: groups from found)
    have own : group <:+: s.tokens :=
      (split ▸ (List.prefix_append group []).isInfix.trans
        (List.suffix_append a _).isInfix : group <:+: body).trans inside
    have last : part (body.map gapless) a.length (body.map gapless).length =
        .ok (group.map gapless) :=
      part_append (a := a.map gapless) (b := []) (by simp [split]) (by simp) (by simp [split])
    rw [List.map_nil, membersFrom, last, ok_bind, member?_eq read own, ok_bind, List.append_nil,
      filterMap_member?, List.filterMap_nil, List.append_nil]
    rfl
  | cons t rest ih =>
    by_cases comma : t.isMark ',' = true ∧ depth = 0
    · obtain ⟨isComma, rfl⟩ := comma
      rw [splitMembers_cons_comma isComma] at found
      obtain ⟨rfl, rfl⟩ := List.cons.inj found
      obtain ⟨g, groups, behind⟩ := List.exists_cons_of_ne_nil (splitMembers_ne_nil 0 rest)
      have own : group <:+: s.tokens := by
        refine List.IsInfix.trans ⟨a, t :: rest, ?_⟩ inside
        rw [split, List.append_assoc]
      have parted : part (body.map gapless) a.length (a.length + group.length) =
          .ok (group.map gapless) :=
        part_append (a := a.map gapless) (b := (t :: rest).map gapless) (by simp [split]) (by simp)
          (by simp)
      have split' : body = a ++ group ++ [t] ++ ([] ++ rest) := by simp [split]
      have later := ih split' behind
      simp only [List.length_append, List.length_nil, List.length_singleton, Nat.add_zero,
        List.nil_append] at later
      rw [List.map_cons, membersFrom_comma (by exact isComma), parted, ok_bind,
        member?_eq read own, ok_bind, later, ok_bind, behind, List.append_nil,
        filterMap_member? group]
      rfl
    · obtain ⟨g', groups', behind⟩ :=
        List.exists_cons_of_ne_nil (splitMembers_ne_nil (depthAfter depth t) rest)
      rw [splitMembers_cons comma, behind, consGroup] at found
      obtain ⟨rfl, rfl⟩ := List.cons.inj found
      have split' : body = a ++ (group ++ [t] ++ rest) := by simp [split]
      have later := ih split' behind
      rw [List.length_append, List.length_singleton, ← Nat.add_assoc, List.append_assoc,
        List.singleton_append] at later
      rw [List.map_cons, membersFrom_cons (by exact comma)]
      exact later

theorem members_eq {body : List Token} (inside : body <:+: s.tokens) :
    members text (body.map gapless) = .ok (membersOf body) := by
  obtain ⟨g, groups, found⟩ := List.exists_cons_of_ne_nil (splitMembers_ne_nil 0 body)
  have whole : body = [] ++ ([] ++ body) := rfl
  have all := membersFrom_eq read inside whole found
  rw [membersOf, found]
  exact all

end Read

end OpenApiModels.Offsets
