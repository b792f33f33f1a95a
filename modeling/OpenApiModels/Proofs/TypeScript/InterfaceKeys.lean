import OpenApiModels.Proofs.Retyping.SettledTokens
import OpenApiModels.Proofs.TypeScript.TypeShape

/-!
# Keys of an interface

The keys of an interface are read off its tokens: each field starts behind the brace or a semicolon,
and its key stands in front of a colon. Where names are followed, the fields are found as before and
the keys are followed like any other name (`HasInterface.rename`, `IsField.rename`).
-/

namespace OpenApiModels.TypeScript

open Text Retyping

/-! ### Reading -/

/-- The key of a field, and whether the property can be missing. -/
structure FieldKey where
  text : List Char
  isOptional : Bool
deriving DecidableEq, Repr

/-- The tokens of each field of a body, which ends at the brace that closes it. -/
def fieldGroups (depth : Nat) : List Token → List (List Token)
  | [] => []
  | t :: rest =>
    match braceAfter depth t with
    | none => []
    | some next =>
      if t.isMark ';' ∧ depth = 0 then [] :: fieldGroups 0 rest
      else consGroup t (fieldGroups next rest)

/-- The key that a field starts with, if it does. -/
def leadingKey? : List Token → Option FieldKey
  | key :: mark :: _ =>
    if mark.isMark '?' then some ⟨key.text, true⟩
    else if mark.isMark ':' then some ⟨key.text, false⟩
    else none
  | _ => none

/-- The key of a field, in front of which there can be the word `readonly`. -/
def fieldKey? : List Token → Option FieldKey
  | [] => none
  | t :: rest =>
    (leadingKey? (t :: rest)).or (if t.isWord "readonly" then leadingKey? rest else none)

/-- The fields of the first interface among the tokens. -/
def interfaceFields (ts : List Token) : List (List Token) :=
  fieldGroups 0 ((ts.dropWhile fun t => !t.isWord "interface").drop 3)

/-- The keys of the first interface of a text. -/
def keysIn (cs : List Char) : Option (List FieldKey) :=
  (bareTokens cs).map fun ts => (interfaceFields ts).filterMap fieldKey?

/-! ### Fields in a row -/

section Groups

variable {depth next : Nat} {t : Token} {ts : List Token}

theorem fieldGroups_cons (h : braceAfter depth t = some next)
    (inside : ¬ (t.isMark ';' = true ∧ depth = 0)) (rest : List Token) :
    fieldGroups depth (t :: rest) = consGroup t (fieldGroups next rest) := by
  rw [fieldGroups, h]
  exact if_neg inside

theorem fieldGroups_semicolon {t : Token} (h : t.isMark ';' = true) (rest : List Token) :
    fieldGroups 0 (t :: rest) = [] :: fieldGroups 0 rest := by
  have notOpen : t.isMark '\x7b' = false := Token.isMark_eq_false h (by decide)
  have notClose : t.isMark '\x7d' = false := Token.isMark_eq_false h (by decide)
  have same : braceAfter 0 t = some 0 := by simp [braceAfter, notOpen, notClose]
  rw [fieldGroups, same]
  exact if_pos ⟨h, rfl⟩

theorem fieldGroups_close {t : Token} (h : t.isMark '\x7d' = true) (rest : List Token) :
    fieldGroups 0 (t :: rest) = [] := by
  rw [fieldGroups, braceAfter_eq_none_iff.2 ⟨rfl, h⟩]

/-- A type belongs to the field in which it stands. -/
theorem Shape.fieldGroups {inside : Bool} (h : Shape inside ts) {depth : Nat}
    (deep : inside = true → 0 < depth) (rest : List Token) :
    fieldGroups depth (ts ++ rest) = ts.foldr consGroup (fieldGroups depth rest) := by
  have plain {t : Token} (opens : t.isMark '\x7b' = false) (closes : t.isMark '\x7d' = false)
      (depth : Nat) : braceAfter depth t = some depth := by
    simp [braceAfter, opens, closes]
  induction h generalizing depth rest with
  | nil => rfl
  | @loose _ t h =>
    have same := plain (h.notMark '\x7b' (by decide)) (h.notMark '\x7d' (by decide)) depth
    refine TypeScript.fieldGroups_cons same ?_ rest
    rw [h.notMark ';' (by decide)]
    exact fun semicolon => Bool.false_ne_true semicolon.1
  | append _ _ first second =>
    rw [List.append_assoc, first deep, second deep, List.foldr_append]
  | @key _ t u ts notMark _ _ more =>
    have other (c : Char) : t.isMark c = false := by simp [Token.isMark, notMark]
    rw [List.cons_append, TypeScript.fieldGroups_cons (plain (other _) (other _) depth)
      (fun semicolon => by rw [other] at semicolon; cases semicolon.1), more deep]
    rfl
  | semicolon =>
    have positive := deep rfl
    exact TypeScript.fieldGroups_cons (plain rfl rfl depth) (fun semicolon => by omega) rest
  | @braces _ ts _ within =>
    have opens : braceAfter depth (.mark [] '\x7b') = some (depth + 1) := rfl
    have closes : braceAfter (depth + 1) (.mark [] '\x7d') = some depth := rfl
    have notEnd (c : Char) (other : c ≠ ';') (d : Nat) :
        ¬ ((Token.mark [] c).isMark ';' = true ∧ d = 0) := by
      simp [Token.isMark, Token.mark, other]
    rw [List.cons_append, TypeScript.fieldGroups_cons opens (notEnd _ (by decide) _),
      List.append_assoc, within (fun _ => Nat.succ_pos depth), List.singleton_append,
      TypeScript.fieldGroups_cons closes (notEnd _ (by decide) _), List.foldr_cons,
      List.foldr_append]
    rfl

theorem foldr_consGroup (ts : List Token) (groups : List (List Token)) :
    ts.foldr consGroup ([] :: groups) = ts :: groups := by
  induction ts with
  | nil => rfl
  | cons t ts ih => rw [List.foldr_cons, ih, consGroup]

/-- The fields of a body, each with a semicolon behind it. -/
theorem fieldGroups_flatMap {groups : List (List Token)} (h : ∀ g ∈ groups, Shape false g)
    (rest : List Token) :
    fieldGroups 0 (groups.flatMap (· ++ [.mark [] ';']) ++ .mark [] '\x7d' :: rest) = groups := by
  induction groups with
  | nil => exact fieldGroups_close rfl rest
  | cons group groups ih =>
    obtain ⟨first, others⟩ := List.forall_mem_cons.1 h
    rw [List.flatMap_cons, List.append_assoc, List.append_assoc,
      first.fieldGroups Bool.noConfusion, List.singleton_append, fieldGroups_semicolon rfl,
      ih others, foldr_consGroup]

end Groups

/-! ### Names that are followed -/

section Rename

variable {renames : List Rename}

/-- The fields with their names followed, of which the first may stand behind a point. -/
def renameGroups (renames : List Rename) (afterPoint : Bool) : List (List Token) → List (List Token)
  | [] => []
  | group :: groups =>
    renameTokens renames afterPoint group :: groups.map (renameTokens renames false)

theorem renameGroups_consGroup (afterPoint : Bool) (t : Token) (groups : List (List Token)) :
    renameGroups renames afterPoint (consGroup t groups) =
      consGroup (t.renameName renames afterPoint) (renameGroups renames (t.isMark '.') groups) := by
  cases groups <;> rfl

theorem fieldGroups_renameTokens (depth : Nat) (afterPoint : Bool) (ts : List Token) :
    fieldGroups depth (renameTokens renames afterPoint ts) =
      renameGroups renames afterPoint (fieldGroups depth ts) := by
  induction ts generalizing depth afterPoint with
  | nil => rfl
  | cons t ts ih =>
    have brace : braceAfter depth (t.renameName renames afterPoint) = braceAfter depth t := by
      simp only [braceAfter, Token.isMark_renameName]
    rw [renameTokens_cons, fieldGroups, fieldGroups, brace, Token.isMark_renameName]
    cases braceAfter depth t with
    | none => rfl
    | some next =>
      dsimp only
      split
      · rename_i ends
        rw [ih, Token.isMark_eq_false ends.1 (by decide)]
        cases fieldGroups 0 ts <;> rfl
      · rw [ih, renameGroups_consGroup]

theorem renameGroups_false (groups : List (List Token)) :
    renameGroups renames false groups = groups.map (renameTokens renames false) := by
  cases groups <;> rfl

/-- A field with this key. -/
structure IsField (key : Token) (isOptional : Bool) (ts : List Token) : Prop where
  notMark : key.kind ≠ .mark
  tokens : ∃ mark rest, mark.isMark (if isOptional then '?' else ':') = true ∧
    (ts = key :: mark :: rest ∨
      ∃ word, word.isWord "readonly" = true ∧ ts = word :: key :: mark :: rest)

/-- A field without key starts with marks in front of words. -/
def IsKeyless (ts : List Token) : Prop :=
  ∃ t u rest, ts = t :: u :: rest ∧ t.kind = .mark ∧ u.kind = .word

variable {key : Token} {isOptional : Bool} {ts : List Token}

theorem leadingKey?_cons {mark : Token} (h : mark.isMark (if isOptional then '?' else ':') = true)
    (rest : List Token) : leadingKey? (key :: mark :: rest) = some ⟨key.text, isOptional⟩ := by
  cases isOptional with
  | true => exact if_pos h
  | false =>
    have other : mark.isMark '?' = false := Token.isMark_eq_false h (by decide)
    rw [leadingKey?, if_neg (by simp [other])]
    exact if_pos h

theorem leadingKey?_of_kind {t u : Token} (h : u.kind ≠ .mark) (rest : List Token) :
    leadingKey? (t :: u :: rest) = none := by
  simp [leadingKey?, Token.isMark, h]

theorem IsField.fieldKey? (h : IsField key isOptional ts) :
    fieldKey? ts = some ⟨key.text, isOptional⟩ := by
  obtain ⟨notMark, mark, rest, isMark, rfl | ⟨word, isWord, rfl⟩⟩ := h
  · rw [TypeScript.fieldKey?, leadingKey?_cons isMark]
    rfl
  · rw [TypeScript.fieldKey?, leadingKey?_of_kind notMark, if_pos isWord, leadingKey?_cons isMark]
    rfl

theorem IsKeyless.fieldKey? (h : IsKeyless ts) : fieldKey? ts = none := by
  obtain ⟨t, u, rest, rfl, mark, word⟩ := h
  have other : t.isWord "readonly" = false := isWord_of_kind_ne (by simp [mark]) _
  rw [TypeScript.fieldKey?, leadingKey?_of_kind (by simp [word]), other]
  rfl

theorem IsKeyless.rename (h : IsKeyless ts) : IsKeyless (renameTokens renames false ts) := by
  obtain ⟨t, u, rest, rfl, mark, word⟩ := h
  exact ⟨_, _, _, rfl, Token.kind_renameName.trans mark, Token.kind_renameName.trans word⟩

variable (drops : ∀ r ∈ renames, DropsSuffix r)

include drops

/-- The key is followed, and the rest of the field does not matter. -/
theorem IsField.rename (h : IsField key isOptional ts) :
    IsField (key.renameName renames false) isOptional (renameTokens renames false ts) := by
  obtain ⟨notMark, mark, rest, isMark, split⟩ := h
  refine ⟨by rwa [Token.kind_renameName], mark.renameName renames (key.isMark '.'),
    renameTokens renames (mark.isMark '.') rest, by rwa [Token.isMark_renameName], ?_⟩
  rcases split with rfl | ⟨word, isWord, rfl⟩
  · exact .inl rfl
  · have notPoint : word.isMark '.' = false := by simp [Token.isMark, (Token.isWord_iff.1 isWord).1]
    refine .inr ⟨word.renameName renames false,
      isWord_renameName drops (by decide) isWord false, ?_⟩
    rw [renameTokens_cons, renameTokens_cons, renameTokens_cons, notPoint]

omit drops

/-! ### The first interface -/

/-- The token is not the word `interface`, and does not become that word. -/
def Token.Leads (t : Token) : Prop :=
  t.isWord "import" = true ∨ (t.kind = .word → t.text.head? ≠ some 'i')

theorem Token.Leads.isWord {t : Token} (h : t.Leads) : t.isWord "interface" = false := by
  rw [Bool.eq_false_iff, Ne, Token.isWord_iff]
  rintro ⟨kind, text⟩
  rcases h with import_ | other
  · rw [(Token.isWord_iff.1 import_).2] at text
    exact absurd text (by decide)
  · exact other kind (by rw [text]; rfl)

/-- The first interface among the tokens has these fields. -/
inductive HasInterface : List Token → List (List Token) → Prop where
  | intro {front : List Token} {keyword name brace : Token} {body : List Token}
      (leads : ∀ t ∈ front, t.Leads) (isKeyword : keyword.isWord "interface" = true)
      (isBrace : brace.isMark '\x7b' = true) :
      HasInterface (front ++ keyword :: name :: brace :: body) (fieldGroups 0 body)

theorem HasInterface.interfaceFields {groups : List (List Token)} (h : HasInterface ts groups) :
    interfaceFields ts = groups := by
  obtain @⟨front, keyword, name, brace, body, leads, isKeyword, -⟩ := h
  have others : ∀ t ∈ front, (!t.isWord "interface") = true := fun t ht => by
    rw [(leads t ht).isWord]
    rfl
  rw [TypeScript.interfaceFields, List.dropWhile_append_of_pos others,
    List.dropWhile_cons_of_neg (by simp [isKeyword])]
  rfl

include drops

theorem Token.Leads.rename {t : Token} (h : t.Leads) (afterPoint : Bool) :
    (t.renameName renames afterPoint).Leads := by
  rcases h with import_ | other
  · exact .inl (isWord_renameName drops (by decide) import_ afterPoint)
  · refine .inr fun word => ?_
    rw [head?_renameName drops]
    exact other (Token.kind_renameName.symm.trans word)

theorem leads_renameTokens {front : List Token} (h : ∀ t ∈ front, t.Leads) (afterPoint : Bool) :
    ∀ t ∈ renameTokens renames afterPoint front, t.Leads := by
  induction front generalizing afterPoint with
  | nil => exact h
  | cons t front ih =>
    obtain ⟨first, others⟩ := List.forall_mem_cons.1 h
    exact List.forall_mem_cons.2 ⟨first.rename drops afterPoint, ih others _⟩

/-- Where names are followed, the first interface stays the first one. -/
theorem HasInterface.rename {groups : List (List Token)} (h : HasInterface ts groups) :
    HasInterface (renameTokens renames false ts) (groups.map (renameTokens renames false)) := by
  obtain @⟨front, keyword, name, brace, body, leads, isKeyword, isBrace⟩ := h
  have notPoint : brace.isMark '.' = false := Token.isMark_eq_false isBrace (by decide)
  rw [renameTokens_append, renameTokens_cons, renameTokens_cons, renameTokens_cons, notPoint,
    ← renameGroups_false, ← fieldGroups_renameTokens]
  exact .intro (leads_renameTokens drops leads false)
    (isWord_renameName drops (by decide) isKeyword _) (by rwa [Token.isMark_renameName])

end Rename

end OpenApiModels.TypeScript
