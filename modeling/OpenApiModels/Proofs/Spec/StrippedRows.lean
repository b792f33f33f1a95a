import OpenApiModels.Proofs.Spec.StrippedLines

/-!
# Stripped values

The text of a value is stripped row by row: each item and each member of a container has a row of
its own, which keeps what is left of its value (`dropChecksumMembers_item`,
`dropChecksumMembers_other`) unless it stores a text at a checksum key
(`dropChecksumMembers_stored`).
-/

namespace OpenApiModels.Spec

open Json Text

/-! ### Rows -/

section Rows

variable {α β : Type}

/-- Each of the entries with the comma behind it, if it is not the last one. -/
def withCommas : List α → List (α × List Char)
  | [] => []
  | [a] => [(a, [])]
  | a :: b :: rest => (a, [',']) :: withCommas (b :: rest)

theorem map_fst_withCommas (as : List α) : (withCommas as).map (·.1) = as := by
  induction as with
  | nil => rfl
  | cons a as ih =>
    cases as with
    | nil => rfl
    | cons b as => rw [withCommas, List.map_cons, ih]

theorem isComma_of_mem {as : List α} {x : α × List Char} (h : x ∈ withCommas as) :
    IsComma x.2 := by
  induction as with
  | nil => cases h
  | cons a as ih =>
    cases as with
    | nil => exact .inl (congrArg Prod.snd (List.mem_singleton.1 h))
    | cons b as =>
      rcases List.mem_cons.1 h with rfl | h
      · exact .inr rfl
      · exact ih h

theorem mem_of_mem_withCommas {as : List α} {x : α × List Char} (h : x ∈ withCommas as) :
    x.1 ∈ as :=
  map_fst_withCommas as ▸ List.mem_map_of_mem h

def indent (depth : Nat) : List Char :=
  List.replicate (2 * depth) ' '

/-- The line of an entry, with its line break. -/
def row (depth : Nat) (piece : α → List Char) (x : α × List Char) : List Char :=
  indent depth ++ (piece x.1 ++ (x.2 ++ ['\n']))

theorem bracketed_eq_rows (opening closing : Char) (depth : Nat) (piece : α → List Char)
    {as : List α} (h : as ≠ []) :
    bracketed opening closing depth (as.map piece) =
      opening :: '\n' :: ((withCommas as).flatMap (row (depth + 1) piece) ++
        (indent depth ++ [closing])) := by
  have lines (as : List α) (h : as ≠ []) (tail : List Char) :
      lineBreak (depth + 1) ++ (List.intercalate (',' :: lineBreak (depth + 1)) (as.map piece) ++
          '\n' :: tail) =
        '\n' :: ((withCommas as).flatMap (row (depth + 1) piece) ++ tail) := by
    induction as with
    | nil => exact absurd rfl h
    | cons a as ih =>
      cases as with
      | nil => simp [withCommas, row, indent, lineBreak]
      | cons b as =>
        have more := ih (List.cons_ne_nil b as)
        rw [List.map_cons] at more ⊢
        rw [List.map_cons, List.intercalate_cons_cons, List.append_assoc, List.append_assoc,
          List.cons_append, more, withCommas, List.flatMap_cons]
        simp [row, indent, lineBreak]
  have all := lines as h (indent depth ++ [closing])
  obtain ⟨a, as, rfl⟩ := List.exists_cons_of_ne_nil h
  rw [List.map_cons] at all
  simp only [List.map_cons, bracketed, List.append_assoc, List.cons_append]
  rw [← all]
  simp [lineBreak, indent]

/-- Rows are dropped from one by one. -/
theorem dropChecksumMembers_rows (depth : Nat) (piece : α → List Char)
    (xs : List (α × List Char)) (post : List Char) :
    dropChecksumMembers true (xs.flatMap (row depth piece) ++ post) =
      xs.flatMap (fun x => dropChecksumMembers true (row depth piece x)) ++
        dropChecksumMembers true post := by
  induction xs with
  | nil => rfl
  | cons x xs ih =>
    have split : row depth piece x = indent depth ++ (piece x.1 ++ x.2) ++ ['\n'] := by
      simp [row]
    rw [List.flatMap_cons, List.flatMap_cons, List.append_assoc, List.append_assoc, ← ih, split,
      List.append_assoc, List.singleton_append, dropChecksumMembers_append]

/-- Brackets on lines of their own, which no checksum member starts with. -/
structure AreBrackets (opening closing : Char) : Prop where
  opens : opening ≠ '\n'
  quote : closing ≠ '"'
  blank : isLineBlank closing = false
  inline : closing ≠ '\n'

theorem areBrackets_array : AreBrackets '[' ']' := by constructor <;> decide

theorem areBrackets_object : AreBrackets '\x7b' '\x7d' := by constructor <;> decide

variable {opening closing : Char} (brackets : AreBrackets opening closing) (depth : Nat)
  (piece : α → List Char)

include brackets

theorem dropChecksumMembers_closing (post : List Char) :
    dropChecksumMembers true (indent depth ++ closing :: post) =
      indent depth ++ closing :: dropChecksumMembers false post := by
  have none : afterChecksumMember? (indent depth ++ closing :: post) = none := by
    rw [indent, afterChecksumMember?_replicate,
      afterChecksumMember?_of_ne brackets.quote brackets.blank]
  have inside : '\n' ∉ indent depth ++ [closing] := by
    simp [indent, Ne.symm brackets.inline]
  obtain ⟨c, cs, text⟩ : ∃ c cs, indent depth ++ [closing] = c :: cs :=
    List.exists_cons_of_ne_nil (by simp)
  rw [← List.singleton_append (l := post), ← List.append_assoc, text] at none ⊢
  rw [text, List.mem_cons, not_or] at inside
  rw [List.cons_append] at none ⊢
  rw [dropChecksumMembers_of_none none (Ne.symm inside.1), dropChecksumMembers_of_inline inside.2,
    ← List.cons_append, ← text]
  simp

theorem dropChecksumMembers_bracketed {as : List α} (h : as ≠ []) (post : List Char) :
    dropChecksumMembers false (bracketed opening closing depth (as.map piece) ++ post) =
      opening :: '\n' :: ((withCommas as).flatMap
          (fun x => dropChecksumMembers true (row (depth + 1) piece x)) ++
        (indent depth ++ closing :: dropChecksumMembers false post)) := by
  rw [bracketed_eq_rows _ _ _ _ h, List.cons_append, List.cons_append,
    dropChecksumMembers_kept (.inl rfl), beq_false_of_ne brackets.opens,
    dropChecksumMembers_lineBreak, List.append_assoc, List.append_assoc, List.singleton_append,
    dropChecksumMembers_rows, dropChecksumMembers_closing brackets]

/-- What follows brackets is dropped from as if nothing stood before it. -/
theorem dropChecksumMembers_bracketed_append (as : List α) (post : List Char) :
    dropChecksumMembers false (bracketed opening closing depth (as.map piece) ++ post) =
      dropChecksumMembers false (bracketed opening closing depth (as.map piece)) ++
        dropChecksumMembers false post := by
  by_cases empty : as = []
  · subst empty
    have inline : '\n' ∉ [opening, closing] := by
      simp [brackets.opens.symm, brackets.inline.symm]
    have alone := dropChecksumMembers_of_inline inline []
    rw [List.append_nil, dropChecksumMembers_nil, List.append_nil] at alone
    rw [List.map_nil, bracketed, dropChecksumMembers_of_inline inline, alone]
  · have alone := dropChecksumMembers_bracketed brackets depth piece empty []
    rw [List.append_nil, dropChecksumMembers_nil] at alone
    rw [dropChecksumMembers_bracketed brackets depth piece empty, alone]
    simp

end Rows

/-! ### Stripped values -/

/-- What is left of the text of a value that starts within a line. -/
def stripped (depth : Nat) (v : Json) : List Char :=
  dropChecksumMembers false (prettyAt depth v)

/-- The value is neither an array nor an object. -/
def isScalar : Json → Bool
  | .array _ | .object _ => false
  | _ => true

theorem lineBreak_not_mem_of_scalar {v : Json} (h : isScalar v = true) (depth : Nat) :
    '\n' ∉ prettyAt depth v := by
  cases v with
  | null => exact (by decide : '\n' ∉ "null".toList)
  | bool b =>
    change '\n' ∉ boolText b
    cases b <;> decide
  | number n => exact fun mem => absurd (isNumeral_of_mem_numberText mem) (by decide)
  | string s => exact fun mem => absurd (le_toNat_of_mem_stringText mem) (by decide)
  | array items => cases h
  | object members => cases h

theorem stripped_of_scalar {v : Json} (h : isScalar v = true) (depth : Nat) :
    stripped depth v = prettyAt depth v := by
  have inline := dropChecksumMembers_of_inline (lineBreak_not_mem_of_scalar h depth) []
  rwa [List.append_nil, dropChecksumMembers_nil, List.append_nil] at inline

/-- What follows a value is dropped from as if the value did not stand before it. -/
theorem dropChecksumMembers_prettyAt (depth : Nat) (v : Json) (post : List Char) :
    dropChecksumMembers false (prettyAt depth v ++ post) =
      stripped depth v ++ dropChecksumMembers false post := by
  by_cases scalar : isScalar v = true
  · rw [stripped_of_scalar scalar,
      dropChecksumMembers_of_inline (lineBreak_not_mem_of_scalar scalar depth)]
  cases v with
  | array items =>
    rw [stripped, prettyAt_array, dropChecksumMembers_bracketed_append areBrackets_array]
  | object members =>
    rw [stripped, prettyAt_object, dropChecksumMembers_bracketed_append areBrackets_object]
  | null | bool | number | string => exact absurd rfl scalar

/-- A line that does not match keeps its indentation. -/
theorem dropChecksumMembers_indent (depth : Nat) {cs : List Char}
    (h : afterChecksumMember? cs = none) :
    dropChecksumMembers true (indent (depth + 1) ++ cs) =
      indent (depth + 1) ++ dropChecksumMembers false cs := by
  have start : indent (depth + 1) = ' ' :: List.replicate (2 * depth + 1) ' ' := by
    rw [indent, ← List.replicate_succ]
    rfl
  have none : afterChecksumMember? (' ' :: (List.replicate (2 * depth + 1) ' ' ++ cs)) = none := by
    rwa [← List.cons_append, ← List.replicate_succ, afterChecksumMember?_replicate]
  rw [start, List.cons_append, dropChecksumMembers_of_none none (by decide),
    dropChecksumMembers_of_inline (by simp), List.cons_append]

theorem dropChecksumMembers_comma {comma : List Char} (h : IsComma comma) :
    dropChecksumMembers false (comma ++ ['\n']) = comma ++ ['\n'] := by
  rw [dropChecksumMembers_of_inline h.inline, dropChecksumMembers_lineBreak,
    dropChecksumMembers_nil]

/-- The row of an item keeps what is left of the item. -/
theorem dropChecksumMembers_item (depth : Nat) (v : Json) {comma : List Char} (h : IsComma comma) :
    dropChecksumMembers true (row (depth + 1) (prettyAt (depth + 1)) (v, comma)) =
      row (depth + 1) (stripped (depth + 1)) (v, comma) := by
  rw [row, dropChecksumMembers_indent depth (afterChecksumMember?_item _ _ h []),
    dropChecksumMembers_prettyAt, dropChecksumMembers_comma h, row]

/-- What is left of the text of a member. -/
def strippedMember (depth : Nat) (m : String × Json) : List Char :=
  stringText m.1 ++ ':' :: ' ' :: stripped depth m.2

/-- The row of a member that stores no text keeps what is left of the member. -/
theorem dropChecksumMembers_other (depth : Nat) {m : String × Json} {comma : List Char}
    (h : IsComma comma) (other : storesText m = false) :
    dropChecksumMembers true (row (depth + 1) (memberText (depth + 1)) (m, comma)) =
      row (depth + 1) (strippedMember (depth + 1)) (m, comma) := by
  have start : '\n' ∉ stringText m.1 ++ [':', ' '] := by
    rw [List.mem_append, not_or]
    exact ⟨fun mem => absurd (le_toNat_of_mem_stringText mem) (by decide), by decide⟩
  have text (value tail : List Char) : stringText m.1 ++ ':' :: ' ' :: value ++ tail =
      stringText m.1 ++ [':', ' '] ++ (value ++ tail) := by simp
  rw [row, dropChecksumMembers_indent depth (afterChecksumMember?_memberText other _ _), row,
    memberText, strippedMember, text (prettyAt _ _), text (stripped _ _),
    dropChecksumMembers_of_inline start, dropChecksumMembers_prettyAt, dropChecksumMembers_comma h]

/-- A line that starts with no blank and holds a quote. -/
structure IsRemainder (r : List Char) : Prop where
  inline : '\n' ∉ r
  quote : '"' ∈ r
  start : ∃ c cs, r = c :: cs ∧ isLineBlank c = false

/-- The row of a stored text vanishes, or leaves the remainder of a line. -/
theorem dropChecksumMembers_stored (depth : Nat) {m : String × Json} {comma : List Char}
    (h : IsComma comma) (stores : storesText m = true) :
    dropChecksumMembers true (row depth (memberText depth) (m, comma)) = [] ∨
      ∃ r, dropChecksumMembers true (row depth (memberText depth) (m, comma)) = r ++ ['\n'] ∧
        IsRemainder r := by
  obtain ⟨r, found, inline, left⟩ := exists_remainder stores depth h
  have line : afterChecksumMember? (row depth (memberText depth) (m, comma)) =
      some (r ++ ['\n']) := by
    rw [row, indent, afterChecksumMember?_replicate, ← List.append_assoc,
      afterChecksumMember?_append, found, Option.map_some]
  rw [dropChecksumMembers_member line]
  rcases left with rfl | ⟨quote, c, cs, text, start⟩
  · exact .inl (dropChecksumMembers_nil true)
  · refine .inr ⟨r, ?_, inline, quote, c, cs, text, start⟩
    have skip : skipLineBreak (r ++ ['\n']) = (false, r ++ ['\n']) := by
      have inside := inline
      rw [text, List.mem_cons, not_or] at inside
      rw [text, List.cons_append, skipLineBreak, if_neg (Ne.symm inside.1)]
    rw [skip, dropChecksumMembers_of_inline inline, dropChecksumMembers_lineBreak,
      dropChecksumMembers_nil]

end OpenApiModels.Spec
