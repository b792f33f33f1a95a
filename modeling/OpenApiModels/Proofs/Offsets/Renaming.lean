import OpenApiModels.Proofs.Offsets.Declarations
import OpenApiModels.TypeScript.Rename

/-!
# Renaming by byte offsets

The text between two new names is copied as a slice. `renameText_eq` says that no slice goes wrong.
-/

namespace OpenApiModels.Offsets

open Text TypeScript

/-- The text from the offset `copied` on with its names replaced; the tokens from index `i` on are
still to be looked at. -/
def renameFrom (text : List Char) (renames : List Rename) (ts : List Token) (copied i : Nat) :
    List Token → Checked (List Char)
  | [] => sliceFrom text copied
  | t :: rest => do
    if t.kind ≠ .word then renameFrom text renames ts copied (i + 1) rest
    else if ← afterPoint ts i then renameFrom text renames ts copied (i + 1) rest
    else
      match renames.find? fun r => r.old == t.name with
      | none => renameFrom text renames ts copied (i + 1) rest
      | some r =>
        let kept ← slice text copied t.start
        return kept ++ (r.new.toList ++ (← renameFrom text renames ts t.stop (i + 1) rest))

/-- The text with its names replaced. -/
def renameText (renames : List Rename) (text : List Char) : Checked (List Char) := do
  let ts ← tokens text
  renameFrom text renames ts 0 0 ts

/-! ### New names -/

/-- The rename that a token follows; `afterPoint` says whether a point comes before it. -/
def rename? (renames : List Rename) (afterPoint : Bool) (t : Token) : Option Rename :=
  if t.kind = .word ∧ !afterPoint then renames.find? fun r => r.old == t.name else none

theorem renameTokens_cons (renames : List Rename) (afterPoint : Bool) (t : Token)
    (rest : List Token) :
    renameTokens renames afterPoint (t :: rest) =
      (match rename? renames afterPoint t with
        | some r => { t with text := r.new.toList }
        | none => t) :: renameTokens renames (t.isMark '.') rest := by
  rw [renameTokens, rename?]
  split
  · have own : { t with text := t.name.toList } = t := by rw [Token.name, String.toList_ofList]
    rw [renamed]
    cases renames.find? fun r => r.old == t.name with
    | none => rw [own]
    | some r => rfl
  · rfl

theorem renameFrom_cons {text : List Char} {renames : List Rename} {passed rest ts : List Token}
    {t : Token} (split : ts = passed.reverse ++ t :: rest) (copied : Nat) :
    renameFrom text renames (ts.map gapless) copied passed.length ((t :: rest).map gapless) =
      match rename? renames (passed.head?.any (·.isMark '.')) t with
      | none => renameFrom text renames (ts.map gapless) copied (passed.length + 1)
          (rest.map gapless)
      | some r => do
        let kept ← slice text copied t.start
        return kept ++ (r.new.toList ++ (← renameFrom text renames (ts.map gapless) t.stop
          (passed.length + 1) (rest.map gapless))) := by
  have point := afterPoint_eq passed (t :: rest)
  rw [← split] at point
  rw [List.map_cons, renameFrom, gapless_kind, gapless_name, gapless_start, gapless_stop, rename?]
  by_cases word : t.kind = .word
  · rw [if_neg (not_not_intro word), point, ok_bind]
    cases passed.head?.any (·.isMark '.') with
    | true => simp
    | false =>
      simp only [word, Bool.false_eq_true, if_false, Bool.not_false, and_self, if_true]
  · rw [if_pos word, if_neg fun both => word both.1]

/-! ### The text that is written -/

section Read

variable {text : List Char} {s : Source} {renames : List Rename}

/-- The text that is not copied yet is `kept` and what the tokens make of the rest. -/
theorem renameFrom_eq {passed rest : List Token} (split : s.tokens = passed.reverse ++ rest)
    {front kept : List Char} (whole : text = front ++ (kept ++ textOf rest s.tail))
    (based : rebase (byteSize front + byteSize kept) rest = rest) :
    renameFrom text renames (s.tokens.map gapless) (byteSize front) passed.length
        (rest.map gapless) =
      .ok (kept ++
        textOf (renameTokens renames (passed.head?.any (·.isMark '.')) rest) s.tail) := by
  induction rest generalizing passed front kept with
  | nil =>
    rw [List.map_nil, renameFrom, whole]
    exact sliceFrom_append front _
  | cons t rest ih =>
    have start := start_of_rebase (a := []) based
    rw [textOf_nil, byteSize_nil, Nat.add_zero] at start
    rw [textOf_cons] at whole
    rw [rebase] at based
    have based := (List.cons.inj based).2
    have split' : s.tokens = (t :: passed).reverse ++ rest := by simp [split]
    rw [renameFrom_cons split, renameTokens_cons, textOf_cons]
    cases found : rename? renames (passed.head?.any (·.isMark '.')) t with
    | none =>
      have whole' : text = front ++ (kept ++ (t.gap ++ t.text) ++ textOf rest s.tail) := by
        simp [whole]
      have later := ih split' whole'
        (by simpa only [byteSize_append, Nat.add_assoc] using based)
      simpa using later
    | some r =>
      have copied : slice text (byteSize front) t.start = .ok (kept ++ t.gap) := by
        have found := slice_append front (kept ++ t.gap) (t.text ++ textOf rest s.tail)
        rw [byteSize_append, ← Nat.add_assoc, ← start] at found
        rw [whole, ← found]
        simp
      have stop : t.stop = byteSize (front ++ (kept ++ (t.gap ++ t.text))) := by
        simp only [Token.stop, start, byteSize_append, Nat.add_assoc]
      have whole' : text = front ++ (kept ++ (t.gap ++ t.text)) ++ ([] ++ textOf rest s.tail) := by
        simp [whole]
      have later := ih split' whole'
        (by simpa only [byteSize_append, byteSize_nil, Nat.add_zero, Nat.add_assoc] using based)
      dsimp only
      rw [copied, ok_bind, stop, ← List.length_cons (a := t), later]
      simp

end Read

theorem renameText_eq (renames : List Rename) (text : List Char) :
    renameText renames text = reported (TypeScript.renameText renames text) := by
  rw [renameText, tokens_eq, TypeScript.renameText]
  cases read : Source.ofText? text with
  | error e => rfl
  | ok s =>
    have split : s.tokens = ([] : List Token).reverse ++ s.tokens := rfl
    have whole : text = [] ++ ([] ++ textOf s.tokens s.tail) := (text_of_ofText? read).symm
    exact renameFrom_eq split whole (stable_of_readSource read).2

end OpenApiModels.Offsets
