import OpenApiModels.Proofs.TypeScript.Renaming

/-!
# The tokens of a renamed text

A renamed text has the tokens and the gaps it had, but for the words that are renamed
(`ofText?_renameText`).
-/

namespace OpenApiModels.TypeScript

open Text

variable {renames : List Rename}

/-- Whether a point stands in front of the token at a place. -/
def behindPoint (ts : List Token) (i : Nat) : Bool :=
  decide (0 < i) && ts[i - 1]?.any (·.isMark '.')

/-- What becomes of a token: a word that stands behind no point follows the first rename of its
name, and every other token keeps its text. -/
structure Token.Follows (renames : List Rename) (afterPoint : Bool) (t t' : Token) : Prop where
  gap : t'.gap = t.gap
  kind : t'.kind = t.kind
  renamed : ∀ earlier r later, renames = earlier ++ r :: later → (∀ q ∈ earlier, q.old ≠ t.name) →
    r.old = t.name → t.kind = .word → afterPoint = false → t'.text = r.new.toList
  kept : t.kind ≠ .word ∨ afterPoint = true ∨ (∀ r ∈ renames, r.old ≠ t.name) → t'.text = t.text

theorem renamed_of_first {earlier later : List Rename} {r : Rename}
    (others : ∀ q ∈ earlier, q.old ≠ r.old) : renamed (earlier ++ r :: later) r.old = r.new := by
  have found : (earlier ++ r :: later).find? (fun q => q.old == r.old) = some r := by
    rw [List.find?_append, List.find?_eq_none.2 fun q mem => by simpa using others q mem,
      Option.none_or, List.find?_cons_of_pos (by simp)]
  rw [renamed, found]

theorem renamed_of_forall_ne {name : String} (h : ∀ r ∈ renames, r.old ≠ name) :
    renamed renames name = name := by
  rcases renamed_eq_or renames name with same | ⟨r, mem, old, -⟩
  · exact same
  · exact absurd old (h r mem)

theorem Token.follows_renameName (afterPoint : Bool) (t : Token) (start : Nat) :
    t.Follows renames afterPoint { t.renameName renames afterPoint with start } where
  gap := gap_renameName
  kind := kind_renameName
  renamed := by
    rintro earlier r later rfl others old word rfl
    rw [← old] at others
    rw [text_renameName word, ← old, renamed_of_first others]
  kept := by
    intro stays
    dsimp only
    unfold renameName
    split
    · rename_i follows
      have same : ∀ r ∈ renames, r.old ≠ t.name :=
        (stays.resolve_left fun other => other follows.1).resolve_left
          (by simpa using follows.2)
      rw [renamed_of_forall_ne same, name, String.toList_ofList]
    · rfl

theorem getElem?_renameTokens (afterPoint : Bool) (ts : List Token) (i : Nat) :
    (renameTokens renames afterPoint ts)[i]? =
      ts[i]?.map (Token.renameName renames (if i = 0 then afterPoint else behindPoint ts i)) := by
  induction ts generalizing afterPoint i with
  | nil => rfl
  | cons t ts ih =>
    rw [renameTokens_cons]
    cases i with
    | zero => rfl
    | succ i =>
      rw [List.getElem?_cons_succ, List.getElem?_cons_succ, ih]
      cases i <;> rfl

theorem getElem?_rebase (offset : Nat) (ts : List Token) (i : Nat) :
    ∃ start, (rebase offset ts)[i]? = ts[i]?.map fun t => { t with start } := by
  induction ts generalizing offset i with
  | nil => exact ⟨0, rfl⟩
  | cons t ts ih =>
    cases i with
    | zero => exact ⟨offset + byteSize t.gap, rfl⟩
    | succ i => exact ih _ i

theorem length_renameTokens (afterPoint : Bool) (ts : List Token) :
    (renameTokens renames afterPoint ts).length = ts.length := by
  induction ts generalizing afterPoint with
  | nil => rfl
  | cons t ts ih => rw [renameTokens_cons, List.length_cons, ih, List.length_cons]

/-- A text is renamed to one that is read as the same tokens in the same gaps, but for the words
that follow a rename. -/
theorem ofText?_renameText (shortens : ∀ r ∈ renames, r.Shortens) {cs : List Char} {s : Source}
    (read : Source.ofText? cs = .ok s) :
    ∃ cs' s', renameText renames cs = .ok cs' ∧ Source.ofText? cs' = .ok s' ∧
      s'.tail = s.tail ∧ s'.tokens.length = s.tokens.length ∧
      ∀ (i : Nat) (t : Token), s.tokens[i]? = some t →
        ∃ t', s'.tokens[i]? = some t' ∧ t.Follows renames (behindPoint s.tokens i) t' := by
  refine ⟨_, _, renameText_eq_ok read, ofText?_rename shortens read, rfl, ?_, fun i t at_ => ?_⟩
  · rw [length_rebase, length_renameTokens]
  · obtain ⟨start, moved⟩ := getElem?_rebase 0 (renameTokens renames false s.tokens) i
    have point : (if i = 0 then false else behindPoint s.tokens i) = behindPoint s.tokens i := by
      split
      · rename_i first
        rw [first]
        rfl
      · rfl
    rw [getElem?_renameTokens, at_, point] at moved
    exact ⟨_, moved, t.follows_renameName _ start⟩

section Example

/-- Names next to a number and to a slash, behind a point, in a comment and in a literal. -/
def neighbourText : String :=
  "1éEnum/aEnum.aEnum/*aEnum*/aEnum'aEnum'aEnums//aEnum"

def neighbourRenames : List Rename :=
  [⟨"aEnum", "a"⟩, ⟨"éEnum", "é"⟩, ⟨"aEnum", "aE"⟩]

theorem ofText?_renameText_neighbours : ∃ s cs' s',
    Source.ofText? neighbourText.toList = .ok s ∧ (∀ r ∈ neighbourRenames, r.Shortens) ∧
      renameText neighbourRenames neighbourText.toList = .ok cs' ∧
      cs' = "1é/a.aEnum/*aEnum*/a'aEnum'aEnums//aEnum".toList ∧
      Source.ofText? cs' = .ok s' ∧ s'.tail = s.tail ∧ s'.tokens.length = s.tokens.length ∧
      ∀ (i : Nat) (t : Token), s.tokens[i]? = some t → ∃ t', s'.tokens[i]? = some t' ∧
        t.Follows neighbourRenames (behindPoint s.tokens i) t' := by
  have shortens : ∀ r ∈ neighbourRenames, r.Shortens := by
    unfold Rename.Shortens
    decide
  have text : (renameText neighbourRenames neighbourText.toList).toOption =
      some "1é/a.aEnum/*aEnum*/a'aEnum'aEnums//aEnum".toList := by
    rw [show neighbourText.toList = _ from String.toList_ofList ..]
    decide +kernel
  cases read : Source.ofText? neighbourText.toList with
  | error e =>
    rw [renameText_eq_error read] at text
    cases text
  | ok s =>
    obtain ⟨cs', s', renamed, rest⟩ := ofText?_renameText shortens read
    rw [renamed] at text
    exact ⟨s, cs', s', rfl, shortens, renamed, Option.some.inj text, rest⟩

end Example

end OpenApiModels.TypeScript
