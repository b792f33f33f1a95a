import OpenApiModels.Proofs.TypeScript.Items

/-!
# Names declared at the top level

The names that a text declares at its top level stand among the items that its tokens are parsed
into (`Parses.declaredFrom_eq`). They follow the renames of the items (`mem_topNames_renameItems`).
-/

namespace OpenApiModels.TypeScript

/-! ### Tokens -/

/-- The name that a keyword in front of the tokens declares. -/
def declaredNext : List Token → List String
  | [] => []
  | t :: _ => if t.kind = .word ∧ !t.isDeclaringKeyword then [t.name] else []

/-- The number of open braces behind a token. -/
def bracesBehind (depth : Nat) (t : Token) : Nat :=
  if t.isMark '\x7b' then depth + 1 else if t.isMark '\x7d' then depth - 1 else depth

variable {t : Token} {depth : Nat}

theorem bracesBehind_of_word (h : t.kind = .word) (depth : Nat) : bracesBehind depth t = depth := by
  simp [bracesBehind, Token.isMark, h]

theorem Token.isDeclaringKeyword_iff :
    t.isDeclaringKeyword = true ↔ t.kind = .word ∧ t.name ∈ declaringKeywords := by
  simp [isDeclaringKeyword]

theorem declaredFrom_cons (depth : Nat) (t : Token) (ts : List Token) :
    declaredFrom depth (t :: ts) =
      (if depth = 0 ∧ t.isDeclaringKeyword then declaredNext ts else []) ++
        declaredFrom (bracesBehind depth t) ts := by
  have keyword : t.isDeclaringKeyword = true → t.kind = .word := fun h =>
    (Token.isDeclaringKeyword_iff.1 h).1
  have brace {c : Char} : t.isMark c = true → t.isDeclaringKeyword = false := by
    intro isMark
    rw [Bool.eq_false_iff]
    intro isKeyword
    rw [Token.isMark_iff, keyword isKeyword] at isMark
    cases isMark.1
  rw [declaredFrom.eq_def]
  dsimp only
  split
  · rename_i opens
    simp [bracesBehind, opens, brace opens]
  · rename_i notOpen
    split
    · rename_i closes
      simp [bracesBehind, notOpen, closes, brace closes]
    · rename_i notClose
      have same : bracesBehind depth t = depth := by simp [bracesBehind, notOpen, notClose]
      rw [same]
      split
      · cases ts with
        | nil => rfl
        | cons u ts =>
          dsimp only [declaredNext]
          split <;> rfl
      · rfl

/-- Nothing is declared up to the brace that closes an open one. -/
theorem declaredFrom_behind_braces {inner next : Nat} {ts : List Token}
    (h : braces inner ts = some next) (depth : Nat) (more : List Token) :
    declaredFrom (depth + 1 + inner) (ts ++ more) = declaredFrom (depth + 1 + next) more := by
  induction ts generalizing inner with
  | nil =>
    cases h
    rfl
  | cons t ts ih =>
    rw [braces_cons, Option.bind_eq_some_iff] at h
    obtain ⟨behind, first, rest⟩ := h
    have step : bracesBehind (depth + 1 + inner) t = depth + 1 + behind := by
      unfold braceAfter at first
      unfold bracesBehind
      split at first
      · rename_i closes
        have notOpen : t.isMark '\x7b' = false := by
          obtain ⟨kind, text⟩ := Token.isMark_iff.1 closes
          simp [Token.isMark, text]
        cases inner with
        | zero => cases first
        | succ inner =>
          cases first
          simp [notOpen, closes]
      · rename_i notClose
        cases first
        split <;> simp [Nat.add_assoc]
    rw [List.cons_append, declaredFrom_cons, if_neg (by omega), step, ih rest]
    rfl

/-! ### Items -/

/-- The name that a keyword in front of the items declares. -/
def nameNext : List Item → List String
  | .token t :: _ => if t.kind = .word ∧ !t.isDeclaringKeyword then [t.name] else []
  | _ => []

/-- The names that items declare outside of braces, of which `depth` are open. -/
def topNames (depth : Nat) : List Item → List String
  | [] => []
  | .token t :: rest =>
    (if depth = 0 ∧ t.isDeclaringKeyword then nameNext rest else []) ++
      topNames (bracesBehind depth t) rest
  | .enum name _ :: rest =>
    (if depth = 0 ∧ name ∉ declaringKeywords then [name] else []) ++ topNames depth rest

theorem Parses.declaredNext_eq {p : Bool} {ts : List Token} {is : List Item} (h : Parses p ts is) :
    declaredNext ts = nameNext is := by
  cases h with
  | nil => rfl
  | enum starts =>
    obtain ⟨kind, text⟩ := Token.isWord_iff.1 starts.1
    have isKeyword : Token.isDeclaringKeyword _ = true :=
      Token.isDeclaringKeyword_iff.2 ⟨kind, by rw [Token.name, text]; decide⟩
    simp [declaredNext, nameNext, isKeyword]
  | token => rfl

/-- The names at the top level stand among the items. -/
theorem Parses.declaredFrom_eq {p : Bool} {ts : List Token} {is : List Item} (h : Parses p ts is)
    (depth : Nat) : declaredFrom depth ts = topNames depth is := by
  induction h generalizing depth with
  | nil => rfl
  | @enum p keyword name brace close body rest is starts balanced closes _ ih =>
    obtain ⟨word, -, kind, opens⟩ := starts
    obtain ⟨keywordKind, text⟩ := Token.isWord_iff.1 word
    have isKeyword : keyword.isDeclaringKeyword = true :=
      Token.isDeclaringKeyword_iff.2 ⟨keywordKind, by rw [Token.name, text]; decide⟩
    have mark : brace.kind ≠ .word := by rw [(Token.isMark_iff.1 opens).1]; decide
    have notOpen : close.isMark '\x7b' = false := by
      simp [Token.isMark, (Token.isMark_iff.1 closes).2]
    have into : bracesBehind depth brace = depth + 1 := by simp [bracesBehind, opens]
    have out : bracesBehind (depth + 1) close = depth := by simp [bracesBehind, notOpen, closes]
    have notKeyword : brace.isDeclaringKeyword = false := by simp [Token.isDeclaringKeyword, mark]
    have nothing : declaredNext (brace :: (body ++ close :: rest)) = [] := by
      simp [declaredNext, mark]
    have named (ts : List Token) :
        declaredNext (name :: ts) = if name.name ∉ declaringKeywords then [name.name] else [] := by
      simp [declaredNext, kind, Token.isDeclaringKeyword]
    have inBody := declaredFrom_behind_braces balanced depth (close :: rest)
    rw [declaredFrom_cons, bracesBehind_of_word keywordKind, declaredFrom_cons,
      bracesBehind_of_word kind, declaredFrom_cons, into, inBody, declaredFrom_cons, out, ih,
      nothing, topNames, named, isKeyword, notKeyword]
    by_cases top : depth = 0 <;> simp [top]
  | @token p t ts is other more ih =>
    rw [declaredFrom_cons, ih, more.declaredNext_eq]
    rfl

theorem topNames_tokenItems (depth : Nat) (ts : List Token) :
    topNames depth (tokenItems ts) = declaredFrom depth ts := by
  have next (ts : List Token) : nameNext (tokenItems ts) = declaredNext ts := by cases ts <;> rfl
  induction ts generalizing depth with
  | nil => rfl
  | cons t ts ih =>
    rw [tokenItems_cons, topNames, next, declaredFrom_cons, ← ih]
    rfl

/-- Gaps and offsets do not matter to the names. -/
theorem declaredFrom_congr {ts ts' : List Token} (same : ts'.map Token.bare = ts.map Token.bare)
    (depth : Nat) : declaredFrom depth ts' = declaredFrom depth ts := by
  have items (ts : List Token) : tokenItems ts = (ts.map Token.bare).map .token :=
    (List.map_map ..).symm
  rw [← topNames_tokenItems, ← topNames_tokenItems, items, items, same]

/-! ### Changes of items -/

variable {name : String} {is is' : List Item}

/-- Names in front of other items stay. `next` is about a keyword that comes last there. -/
theorem exists_mem_topNames_behind {front : List Item} {good : String → Prop} (isGood : good name)
    (next : ∀ t, front.getLast? = some (.token t) → t.isDeclaringKeyword = true →
      name ∈ nameNext is → name ∈ nameNext is')
    (behind : ∀ depth, name ∈ topNames depth is → ∃ n, good n ∧ n ∈ topNames depth is')
    (h : name ∈ topNames depth (front ++ is)) :
    ∃ n, good n ∧ n ∈ topNames depth (front ++ is') := by
  induction front generalizing depth with
  | nil => exact behind depth h
  | cons item front ih =>
    have later (t : Token) (last : front.getLast? = some (.token t)) :
        (item :: front).getLast? = some (.token t) := by
      rw [List.getLast?_cons, last]
      rfl
    have more {depth : Nat} := @ih depth fun t last => next t (later t last)
    cases item with
    | enum other values =>
      rw [List.cons_append, topNames, List.mem_append] at h
      rw [List.cons_append]
      rcases h with here | there
      · exact ⟨name, isGood, List.mem_append_left _ here⟩
      · obtain ⟨n, nGood, mem⟩ := more there
        exact ⟨n, nGood, List.mem_append_right _ mem⟩
    | token t =>
      rw [List.cons_append, topNames, List.mem_append] at h
      rw [List.cons_append]
      rcases h with here | there
      · split at here
        · rename_i declares
          refine ⟨name, isGood, List.mem_append_left _ ?_⟩
          rw [if_pos declares]
          cases front with
          | nil => exact next t rfl declares.2 here
          | cons item front => cases item <;> exact here
        · cases here
      · obtain ⟨n, nGood, mem⟩ := more there
        exact ⟨n, nGood, List.mem_append_right _ mem⟩

theorem bracesBehind_congr {t' : Token} (h : ∀ c, t'.isMark c = t.isMark c) (depth : Nat) :
    bracesBehind depth t' = bracesBehind depth t := by
  simp only [bracesBehind, h]

section Near

variable {R : List Char → List Char → Prop}

theorem Token.Near.isDeclaringKeyword {t' : Token} (h : t.Near R t') :
    t'.isDeclaringKeyword = t.isDeclaringKeyword := by
  rw [Bool.eq_iff_iff, isDeclaringKeyword_iff, isDeclaringKeyword_iff, h.kind]
  refine and_congr_right fun word => ?_
  rw [name, name, h.word word]

/-- Other gaps and other literals leave the names. -/
theorem topNames_near (h : List.Forall₂ (Item.Near R) is is') (depth : Nat) :
    topNames depth is' = topNames depth is := by
  have next {is is' : List Item} (h : List.Forall₂ (Item.Near R) is is') :
      nameNext is' = nameNext is := by
    cases h with
    | nil => rfl
    | cons first _ =>
      cases first with
      | enum => rfl
      | @token t t' near =>
        have same : t'.bare.kind = t.bare.kind := near.kind
        have keyword : t'.bare.isDeclaringKeyword = t.bare.isDeclaringKeyword :=
          near.isDeclaringKeyword
        rw [nameNext, nameNext, same, keyword]
        split
        · rename_i word
          have text : t'.text = t.text := near.word word.1
          rw [show t'.bare.name = String.ofList t'.text from rfl, text]
          rfl
        · rfl
  induction h generalizing depth with
  | nil => rfl
  | @cons item item' is is' first more ih =>
    cases first with
    | enum => rw [topNames, topNames, ih]
    | @token t t' near =>
      have keyword : t'.bare.isDeclaringKeyword = t.bare.isDeclaringKeyword :=
        near.isDeclaringKeyword
      have marks : ∀ c, t'.bare.isMark c = t.bare.isMark c := near.isMark
      rw [topNames, topNames, ih, next more, keyword, bracesBehind_congr marks]

end Near

section Rename

variable {renames : List Rename}

theorem Token.isDeclaringKeyword_renameName
    (keywords : ∀ k ∈ declaringKeywords, renamed renames k = k)
    (h : t.isDeclaringKeyword = true) (afterPoint : Bool) :
    (t.renameName renames afterPoint).isDeclaringKeyword = true := by
  rw [isDeclaringKeyword_iff] at h ⊢
  refine ⟨by rw [kind_renameName, h.1], ?_⟩
  unfold renameName
  split
  · rw [name, keywords _ h.2, String.ofList_toList]
    exact h.2
  · exact h.2

/-- Names at the top level follow renames that make no keyword of them. -/
theorem mem_topNames_renameItems (keywords : ∀ k ∈ declaringKeywords, renamed renames k = k)
    (plain : renamed renames name ∉ declaringKeywords) (h : name ∈ topNames depth is)
    (afterPoint : Bool) :
    renamed renames name ∈ topNames depth (renameItems renames afterPoint is) := by
  induction is generalizing depth afterPoint with
  | nil => cases h
  | cons item is ih =>
    cases item with
    | enum other values =>
      rw [topNames, List.mem_append] at h
      rcases h with here | there
      · refine List.mem_append_left _ ?_
        split at here
        · rename_i top
          obtain rfl := List.mem_singleton.1 here
          rw [if_pos ⟨top.1, plain⟩]
          exact List.mem_singleton_self _
        · cases here
      · exact List.mem_append_right _ (ih there false)
    | token t =>
      rw [topNames, List.mem_append] at h
      rcases h with here | there
      · split at here
        · rename_i top
          have word := (Token.isDeclaringKeyword_iff.1 top.2).1
          have notPoint : t.isMark '.' = false := by simp [Token.isMark, word]
          rw [renameItems, notPoint]
          refine List.mem_append_left _ ?_
          rw [if_pos ⟨top.1, Token.isDeclaringKeyword_renameName keywords top.2 afterPoint⟩]
          cases is with
          | nil => cases here
          | cons next is =>
            cases next with
            | enum => cases here
            | token u =>
              rw [nameNext] at here
              split at here
              · rename_i isName
                obtain rfl := List.mem_singleton.1 here
                have name : (u.renameName renames false).name = renamed renames u.name := by
                  rw [Token.name, Token.text_renameName isName.1, String.ofList_toList]
                have notKeyword : (u.renameName renames false).isDeclaringKeyword = false := by
                  rw [Bool.eq_false_iff]
                  intro keyword
                  exact plain (name ▸ (Token.isDeclaringKeyword_iff.1 keyword).2)
                rw [renameItems, nameNext, name, notKeyword, Token.kind_renameName,
                  if_pos ⟨isName.1, rfl⟩]
                exact List.mem_singleton_self _
              · cases here
        · cases here
      · refine List.mem_append_right _ ?_
        rw [bracesBehind_congr fun c => Token.isMark_renameName c]
        exact ih there _

theorem renameItems_tokenItems (afterPoint : Bool) (ts : List Token) :
    renameItems renames afterPoint (tokenItems ts) =
      tokenItems (renameTokens renames afterPoint ts) := by
  induction ts generalizing afterPoint with
  | nil => rfl
  | cons t ts ih =>
    rw [tokenItems_cons, renameItems, renameTokens_cons, tokenItems_cons, Token.bare_renameName,
      ← ih]
    rfl

theorem mem_declaredFrom_renameTokens (keywords : ∀ k ∈ declaringKeywords, renamed renames k = k)
    (plain : renamed renames name ∉ declaringKeywords) {ts : List Token}
    (h : name ∈ declaredFrom depth ts) (afterPoint : Bool) :
    renamed renames name ∈ declaredFrom depth (renameTokens renames afterPoint ts) := by
  rw [← topNames_tokenItems] at h ⊢
  rw [← renameItems_tokenItems]
  exact mem_topNames_renameItems keywords plain h afterPoint

end Rename

end OpenApiModels.TypeScript
