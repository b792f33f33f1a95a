import OpenApiModels.Proofs.TypeScript.Declarations
import OpenApiModels.TypeScript.Rename

/-!
# Reading renamed texts

Where new names are what old names start with, renaming keeps a list of tokens stable: the renamed
text is read as the renamed tokens (`ofText?_rename`).
-/

namespace OpenApiModels.TypeScript

open Text

/-- The new name is what the old one starts with. -/
def Rename.Shortens (r : Rename) : Prop :=
  r.new.toList ≠ [] ∧ r.new.toList <+: r.old.toList

theorem renamed_eq_or (renames : List Rename) (name : String) :
    renamed renames name = name ∨
      ∃ r ∈ renames, r.old = name ∧ renamed renames name = r.new := by
  unfold renamed
  split
  · rename_i r found
    have old := List.find?_some found
    exact .inr ⟨r, List.mem_of_find?_eq_some found, beq_iff_eq.1 old, rfl⟩
  · exact .inl rfl

theorem renamed_cons {renames : List Rename} (h : ∀ r ∈ renames, r.Shortens) {name : String}
    {c : Char} {cs : List Char} (text : name.toList = c :: cs) :
    ∃ cs', (renamed renames name).toList = c :: cs' ∧ cs' <+: cs := by
  rcases renamed_eq_or renames name with same | ⟨r, mem, rfl, new⟩
  · exact ⟨cs, by rw [same, text], List.prefix_rfl⟩
  · obtain ⟨nonempty, start⟩ := h r mem
    rw [text] at start
    rw [new]
    cases new : r.new.toList with
    | nil => exact absurd new nonempty
    | cons d ds =>
      rw [new, List.cons_prefix_cons] at start
      exact ⟨ds, by rw [start.1], start.2⟩

/-! ### One token -/

namespace Token

/-- The token with its name replaced, unless it stands behind a point. -/
def renameName (renames : List Rename) (afterPoint : Bool) (t : Token) : Token :=
  if t.kind = .word ∧ !afterPoint then { t with text := (renamed renames t.name).toList } else t

variable {renames : List Rename} {afterPoint : Bool} {t : Token}

@[simp] theorem gap_renameName : (t.renameName renames afterPoint).gap = t.gap := by
  unfold renameName
  split <;> rfl

@[simp] theorem kind_renameName : (t.renameName renames afterPoint).kind = t.kind := by
  unfold renameName
  split <;> rfl

@[simp] theorem isMark_renameName (c : Char) :
    (t.renameName renames afterPoint).isMark c = t.isMark c := by
  unfold renameName
  split
  · rename_i word
    simp only [isMark, word.1]
    rfl
  · rfl

theorem text_renameName (word : t.kind = .word) :
    (t.renameName renames false).text = (renamed renames t.name).toList := by
  rw [renameName, if_pos ⟨word, rfl⟩]

/-- The characters of a renamed token start the token it was. -/
theorem renameName_cons (h : ∀ r ∈ renames, r.Shortens) (afterPoint : Bool) {c : Char} {r : List Char}
    (text : t.text = c :: r) :
    ∃ r', (t.renameName renames afterPoint).text = c :: r' ∧ r' <+: r := by
  unfold renameName
  split
  · refine renamed_cons h ?_
    rw [name, String.toList_ofList, text]
  · exact ⟨r, text, List.prefix_rfl⟩

theorem Fits.renameName (h : ∀ r ∈ renames, r.Shortens) {rest : List Char} (fits : t.Fits rest) :
    (t.renameName renames afterPoint).Fits rest := by
  by_cases word : t.kind = .word ∧ !afterPoint
  · obtain ⟨c, r, text, chars, stop⟩ := (fits_word_iff word.1).1 fits
    obtain ⟨r', text', shorter⟩ := renameName_cons h afterPoint text
    refine (fits_word_iff (kind_renameName.trans word.1)).2 ⟨c, r', text', ?_, stop⟩
    exact { chars with chars := fun d hd => chars.chars d (shorter.subset hd) }
  · rw [Token.renameName, if_neg word]
    exact fits

end Token

/-! ### Lists of tokens -/

variable {renames : List Rename}

theorem renameTokens_cons (afterPoint : Bool) (t : Token) (ts : List Token) :
    renameTokens renames afterPoint (t :: ts) =
      t.renameName renames afterPoint :: renameTokens renames (t.isMark '.') ts := rfl

/-- Offsets do not matter to renaming. -/
theorem rebase_renameTokens_rebase (m n : Nat) (afterPoint : Bool) (ts : List Token) :
    rebase m (renameTokens renames afterPoint (rebase n ts)) =
      rebase m (renameTokens renames afterPoint ts) := by
  induction ts generalizing m n afterPoint with
  | nil => rfl
  | cons t ts ih =>
    have point : Token.isMark { t with start := n + byteSize t.gap } '.' = t.isMark '.' := rfl
    have same : Token.renameName renames afterPoint { t with start := n + byteSize t.gap } =
        { t.renameName renames afterPoint with start := n + byteSize t.gap } := by
      unfold Token.renameName
      dsimp only
      split <;> rfl
    rw [rebase, renameTokens_cons, renameTokens_cons, rebase, rebase, point, ih, same]

theorem textOf_renameTokens_rebase (offset : Nat) (afterPoint : Bool) (ts : List Token)
    (rest : List Char) :
    textOf (renameTokens renames afterPoint (rebase offset ts)) rest =
      textOf (renameTokens renames afterPoint ts) rest := by
  rw [← textOf_rebase 0, rebase_renameTokens_rebase, textOf_rebase]

theorem renameTokens_append (afterPoint : Bool) (a b : List Token) :
    renameTokens renames afterPoint (a ++ b) =
      renameTokens renames afterPoint a ++ renameTokens renames (endsInPoint afterPoint a) b := by
  induction a generalizing afterPoint with
  | nil => rfl
  | cons t a ih =>
    rw [List.cons_append, renameTokens_cons, ih, endsInPoint_cons, renameTokens_cons,
      List.cons_append]

/-- Tokens whose names stay keep their text. -/
theorem renameTokens_eq_self {ts : List Token} (h : ∀ t ∈ ts, t.kind = .word →
    renamed renames t.name = t.name) (afterPoint : Bool) :
    renameTokens renames afterPoint ts = ts := by
  induction ts generalizing afterPoint with
  | nil => rfl
  | cons t ts ih =>
    obtain ⟨own, others⟩ := List.forall_mem_cons.1 h
    have same : t.renameName renames afterPoint = t := by
      unfold Token.renameName
      split
      · rename_i word
        rw [own word.1, Token.name, String.toList_ofList]
      · rfl
    rw [renameTokens_cons, ih others, same]

theorem renameTokens_nil (afterPoint : Bool) (ts : List Token) :
    renameTokens [] afterPoint ts = ts :=
  renameTokens_eq_self (fun _ _ _ => renamed_nil _) afterPoint

theorem head?_textOf_renameTokens (h : ∀ r ∈ renames, r.Shortens) {ts : List Token}
    {rest : List Char} (stable : StableBefore ts rest) (afterPoint : Bool) :
    (textOf (renameTokens renames afterPoint ts) rest).head? = (textOf ts rest).head? := by
  cases ts with
  | nil => rfl
  | cons t ts =>
    obtain ⟨-, ⟨c, r, text, -, -⟩, -⟩ := stable
    obtain ⟨r', text', -⟩ := Token.renameName_cons h afterPoint text
    rw [renameTokens_cons, textOf_cons, textOf_cons, text, text', Token.gap_renameName]
    cases t.gap <;> rfl

theorem stableBefore_renameTokens (h : ∀ r ∈ renames, r.Shortens) {ts : List Token}
    {rest : List Char} (stable : StableBefore ts rest) (afterPoint : Bool) :
    StableBefore (renameTokens renames afterPoint ts) rest := by
  induction ts generalizing afterPoint with
  | nil => trivial
  | cons t ts ih =>
    obtain ⟨gap, fits, more⟩ := stable
    rw [renameTokens_cons]
    refine ⟨?_, ?_, ih more _⟩
    · rw [Token.gap_renameName]
      exact gap
    · exact (fits.renameName h).congr (head?_textOf_renameTokens h more _).symm

theorem stable_renameTokens (h : ∀ r ∈ renames, r.Shortens) {ts : List Token} {tail : List Char}
    (stable : Stable ts tail) (afterPoint : Bool) :
    Stable (renameTokens renames afterPoint ts) tail :=
  ⟨stableBefore_renameTokens h stable.1 afterPoint, stable.2⟩

/-- A renamed text is read as the renamed tokens. -/
theorem ofText?_rename (h : ∀ r ∈ renames, r.Shortens) {cs : List Char} {s : Source}
    (read : Source.ofText? cs = .ok s) :
    Source.ofText? (s.rename renames).text =
      .ok ⟨rebase 0 (renameTokens renames false s.tokens), s.tail⟩ :=
  readSource_of_stable (stable_renameTokens h (stable_of_readSource read).1 false) 0

theorem renameText_eq_ok {cs : List Char} {s : Source} (read : Source.ofText? cs = .ok s) :
    renameText renames cs = .ok (s.rename renames).text := by
  rw [renameText, read]
  rfl

theorem renameText_eq_error {cs : List Char} {e : SourceError}
    (read : Source.ofText? cs = .error e) : renameText renames cs = .error e := by
  rw [renameText, read]
  rfl

end OpenApiModels.TypeScript
