import OpenApiModels.Retyping.Import

/-!
# The place for an import

A further import is put at the start of a line or at the end of the text (`splitAtImports_spec`).
-/

namespace OpenApiModels.Retyping

open Text

/-- The text ends with `rest`, before which a line ends, or which is empty. -/
def LineBefore (cs rest : List Char) : Prop :=
  ∃ before, cs = before ++ rest ∧ (before.getLast? = some '\n' ∨ rest = [])

theorem LineBefore.append {cs rest : List Char} (h : LineBefore cs rest) (a : List Char) :
    LineBefore (a ++ cs) rest := by
  obtain ⟨before, rfl, ends⟩ := h
  refine ⟨a ++ before, (List.append_assoc a before rest).symm, ends.imp_left fun last => ?_⟩
  rw [List.getLast?_append, last]
  rfl

theorem lineBefore_of_afterImport? {cs rest : List Char} (h : afterImport? cs = some rest) :
    LineBefore cs rest := by
  unfold afterImport? at h
  split at h
  · cases h
  · rename_i r found
    rw [stripStart?_eq_some_iff.1 found]
    refine LineBefore.append ?_ _
    split at h
    · split at h
      · cases h
      · rename_i mark r' dropped
        rw [← List.takeWhile_append_dropWhile (p := (· != ';')) (l := r), dropped,
          ← List.singleton_append, ← List.append_assoc]
        refine LineBefore.append ?_ _
        have lines := List.takeWhile_append_dropWhile (p := (· != '\n')) (l := r')
        split at h
        · cases h
          exact ⟨r', by simp, .inr rfl⟩
        · rename_i d rest' line
          cases h
          have first := List.head?_dropWhile_not (· != '\n') r'
          rw [line] at first
          obtain rfl : d = '\n' := by simpa using first
          rw [← lines, line]
          exact ⟨r'.takeWhile (· != '\n') ++ ['\n'], by simp, .inl (by simp)⟩
    · cases h

theorem lineBefore_of_afterLastImport? {lineStart : Bool} {cs rest : List Char}
    (h : afterLastImport? lineStart cs = some rest) : LineBefore cs rest := by
  fun_induction afterLastImport? lineStart cs generalizing rest with
  | case1 => cases h
  | case2 c cs rest' found _ ih =>
    cases later : afterLastImport? true rest' with
    | none =>
      rw [later] at h
      cases h
      exact lineBefore_of_afterImport? found
    | some rest'' =>
      rw [later] at h
      cases h
      obtain ⟨before, split, -⟩ := lineBefore_of_afterImport? found
      rw [split]
      exact (ih later).append before
  | case3 c cs found ih => exact (ih h).append [c]
  | case4 lineStart c cs notStart ih => exact (ih h).append [c]

/-- Every line but the last one has its line break. -/
theorem getLast?_of_linesWithBreaks {cs line : List Char} {a b : List (List Char)}
    (h : linesWithBreaks cs = a ++ line :: b) (more : b ≠ []) : line.getLast? = some '\n' := by
  induction cs generalizing a line with
  | nil => cases a <;> cases h
  | cons c cs ih =>
    simp only [linesWithBreaks] at h
    split at h
    · cases a with
      | nil =>
        obtain ⟨rfl, -⟩ := List.cons.inj h
        rfl
      | cons l a => exact ih (List.cons.inj h).2
    · split at h
      · rename_i none
        cases a with
        | nil => exact absurd (List.cons.inj h).2.symm more
        | cons l a => cases a <;> cases (List.cons.inj h).2
      · rename_i first others lines
        cases a with
        | nil =>
          obtain ⟨rfl, rfl⟩ := List.cons.inj h
          have last := ih (a := []) lines
          rw [List.getLast?_cons, last]
          rfl
        | cons l a =>
          exact ih (a := first :: a) (by rw [lines, (List.cons.inj h).2]; rfl)

theorem lineBefore_headerLines (cs : List Char) :
    ∃ rest, cs = headerLines cs ++ rest ∧
      (headerLines cs = [] ∨ (headerLines cs).getLast? = some '\n' ∨ rest = []) := by
  unfold headerLines
  generalize isComment : (fun line => (stripStart? ['/', '/'] (trimStart line)).isSome) = p
  have lines := List.takeWhile_append_dropWhile (p := p) (l := linesWithBreaks cs)
  refine ⟨((linesWithBreaks cs).dropWhile p).flatten, ?_, ?_⟩
  · rw [← List.flatten_append, lines, flatten_linesWithBreaks]
  · rcases List.eq_nil_or_concat ((linesWithBreaks cs).takeWhile p) with none | ⟨a, line, header⟩
    · exact .inl (by rw [none]; rfl)
    · cases others : (linesWithBreaks cs).dropWhile p with
      | nil => exact .inr (.inr rfl)
      | cons l b =>
        rw [List.concat_eq_append] at header
        rw [header, others, List.append_assoc] at lines
        have last := getLast?_of_linesWithBreaks lines.symm (List.cons_ne_nil l b)
        refine .inr (.inl ?_)
        rw [header, List.flatten_append, List.getLast?_append, List.flatten_singleton, last]
        rfl

/-- The text is cut at the start of a line or at its end. -/
theorem splitAtImports_spec (cs : List Char) :
    ∃ before after, splitAtImports cs = (before, after) ∧ cs = before ++ after ∧
      (before = [] ∨ before.getLast? = some '\n' ∨ after = []) := by
  unfold splitAtImports
  split
  · rename_i rest found
    obtain ⟨before, split, ends⟩ := lineBefore_of_afterLastImport? found
    refine ⟨before, rest, ?_, split, .inr ends⟩
    rw [List.splitAt_eq, split]
    simp
  · obtain ⟨rest, split, ends⟩ := lineBefore_headerLines cs
    refine ⟨headerLines cs, rest, ?_, split, ends⟩
    generalize headerLines cs = header at split
    rw [List.splitAt_eq, split]
    simp

end OpenApiModels.Retyping
