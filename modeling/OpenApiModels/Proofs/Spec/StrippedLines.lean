import OpenApiModels.Proofs.Json.RoundTrip
import OpenApiModels.Proofs.Json.TextInjective
import OpenApiModels.Proofs.Spec.ChecksumLines

/-!
# Lines that stripping drops

Of the lines of an indented document, those of members that store texts at checksum keys are
dropped, and no others: not that of another member (`afterChecksumMember?_memberText`) nor that of
an item (`afterChecksumMember?_item`). A stored text is taken to end at its first quote, so a part
of its line can stay, which starts with no blank and holds a quote (`exists_remainder`).
-/

namespace OpenApiModels.Spec

open Json Text

/-- A member that stores a text at a checksum key. -/
def storesText : String × Json → Bool
  | (key, .string _) => checksumKeys.contains key
  | _ => false

theorem dropChecksumMembers_of_inline {cs : List Char} (h : '\n' ∉ cs) (post : List Char) :
    dropChecksumMembers false (cs ++ post) = cs ++ dropChecksumMembers false post := by
  induction cs with
  | nil => rfl
  | cons c cs ih =>
    rw [List.mem_cons, not_or] at h
    rw [List.cons_append, dropChecksumMembers_kept (.inl rfl), beq_false_of_ne (Ne.symm h.1),
      ih h.2, List.cons_append]

/-- A line that is no checksum member stays. -/
theorem dropChecksumMembers_of_none {c : Char} {cs : List Char}
    (h : afterChecksumMember? (c :: cs) = none) (inline : c ≠ '\n') :
    dropChecksumMembers true (c :: cs) = c :: dropChecksumMembers false cs := by
  rw [dropChecksumMembers_kept (.inr h), beq_false_of_ne inline]

theorem skipLineBlanks_cons {c : Char} (h : isLineBlank c = false) (cs : List Char) :
    skipLineBlanks (c :: cs) = c :: cs :=
  List.dropWhile_cons_of_neg (by simp [h])

theorem skipLineBlanks_replicate (n : Nat) (cs : List Char) :
    skipLineBlanks (List.replicate n ' ' ++ cs) = skipLineBlanks cs := by
  refine List.dropWhile_append_of_pos fun c hc => ?_
  rw [(List.mem_replicate.1 hc).2]
  rfl

theorem afterChecksumMember?_replicate (n : Nat) (cs : List Char) :
    afterChecksumMember? (List.replicate n ' ' ++ cs) = afterChecksumMember? cs := by
  simp only [afterChecksumMember?, skipLineBlanks_replicate]

theorem stringText_of_mem_checksumKeys {key : String} (h : key ∈ checksumKeys) :
    stringText key = '"' :: key.toList ++ ['"'] := by
  have all : ∀ key ∈ checksumKeys, stringText key = '"' :: key.toList ++ ['"'] := by decide
  exact all key h

theorem afterChecksumKey?_eq_some_iff {cs rest : List Char} :
    afterChecksumKey? cs = some rest ↔ ∃ key ∈ checksumKeys, cs = stringText key ++ rest := by
  have only {rest} (h : afterChecksumKey? cs = some rest) :
      ∃ key ∈ checksumKeys, cs = stringText key ++ rest := by
    obtain ⟨key, hkey, strip⟩ := List.exists_of_findSome?_eq_some h
    exact ⟨key, hkey, stringText_of_mem_checksumKeys hkey ▸ stripStart?_eq_some_iff.1 strip⟩
  refine ⟨only, fun ⟨key, hkey, text⟩ => ?_⟩
  cases found : afterChecksumKey? cs with
  | none =>
    have no := List.findSome?_eq_none_iff.1 found key hkey
    rw [← stringText_of_mem_checksumKeys hkey, text, stripStart?_eq_some_iff.2 rfl] at no
    cases no
  | some rest' =>
    obtain ⟨key', -, text'⟩ := only found
    rw [(stringText_append_inj (text'.symm.trans text)).2]

theorem afterChecksumKey?_stringText (s : String) (rest : List Char) :
    afterChecksumKey? (stringText s ++ rest) = if s ∈ checksumKeys then some rest else none := by
  split
  · rename_i key
    exact afterChecksumKey?_eq_some_iff.2 ⟨s, key, rfl⟩
  · rename_i other
    refine Option.eq_none_iff_forall_ne_some.2 fun rest' found => ?_
    obtain ⟨key, hkey, text⟩ := afterChecksumKey?_eq_some_iff.1 found
    exact other ((stringText_append_inj text).1 ▸ hkey)

/-- Only a string literal can start a checksum member, or be its value. -/
theorem afterChecksumKey?_of_ne {c : Char} (h : c ≠ '"') (cs : List Char) :
    afterChecksumKey? (c :: cs) = none := by
  refine Option.eq_none_iff_forall_ne_some.2 fun rest found => ?_
  obtain ⟨key, -, text⟩ := afterChecksumKey?_eq_some_iff.1 found
  exact h (List.cons.inj text).1

theorem afterPlainString?_of_ne {c : Char} (h : c ≠ '"') (cs : List Char) :
    afterPlainString? (c :: cs) = none := by
  unfold afterPlainString?
  split
  · rename_i text
    exact absurd (List.cons.inj text).1 h
  · rfl

/-- The text of a value starts with no blank, and with a quote only if the value is a string. -/
theorem exists_start_of_not_string (depth : Nat) {v : Json} (h : ∀ s, v ≠ .string s) :
    ∃ c cs, prettyAt depth v = c :: cs ∧ c ≠ '"' ∧ isLineBlank c = false := by
  obtain ⟨c, cs, text, mark⟩ := exists_start depth v
  refine ⟨c, cs, text, ?_⟩
  by_cases numeral : isNumeral c = true
  · rw [isLineBlank, Bool.or_eq_false_iff, beq_eq_false_iff_ne, beq_eq_false_iff_ne]
    refine ⟨?_, ?_, ?_⟩
    all_goals
      rintro rfl
      exact absurd numeral (by decide)
  · rw [if_neg numeral] at mark
    cases v with
    | string s => exact absurd rfl (h s)
    | number n => cases mark
    | bool b => cases b <;> cases mark <;> decide
    | null | array items | object members => cases mark; decide

theorem skipLineBlanks_stringText (s : String) (rest : List Char) :
    skipLineBlanks (stringText s ++ rest) = stringText s ++ rest :=
  skipLineBlanks_cons (c := '"') rfl _

theorem afterChecksumMember?_of_ne {c : Char} (quote : c ≠ '"') (blank : isLineBlank c = false)
    (cs : List Char) : afterChecksumMember? (c :: cs) = none := by
  rw [afterChecksumMember?, skipLineBlanks_cons blank, afterChecksumKey?_of_ne quote]
  rfl

/-- The line of another member stays. -/
theorem afterChecksumMember?_memberText {m : String × Json} (h : storesText m = false)
    (depth : Nat) (rest : List Char) :
    afterChecksumMember? (memberText depth m ++ rest) = none := by
  obtain ⟨key, v⟩ := m
  simp only [memberText, List.append_assoc, List.cons_append, afterChecksumMember?,
    skipLineBlanks_stringText, afterChecksumKey?_stringText]
  split
  · rename_i hkey
    have notString : ∀ s, v ≠ .string s := by
      rintro s rfl
      rw [storesText, List.contains_eq_mem, decide_eq_false_iff_not] at h
      exact h hkey
    obtain ⟨c, cs, text, quote, blank⟩ := exists_start_of_not_string depth notString
    have colon (tail : List Char) : stripStart? [':'] (skipLineBlanks (':' :: tail)) = some tail :=
      rfl
    have space (tail : List Char) : skipLineBlanks (' ' :: tail) = skipLineBlanks tail := rfl
    simp only [Option.bind_eq_bind, Option.bind_some, colon, space, text, List.cons_append,
      skipLineBlanks_cons blank, afterPlainString?_of_ne quote, Option.bind_none]
  · rfl

/-- What follows a value on its line: a comma, unless the value is the last one. -/
def IsComma (comma : List Char) : Prop :=
  comma = [] ∨ comma = [',']

theorem IsComma.inline {comma : List Char} (h : IsComma comma) : '\n' ∉ comma := by
  rcases h with rfl | rfl <;> decide

/-- The line of an item stays. -/
theorem afterChecksumMember?_item (depth : Nat) (v : Json) {comma : List Char}
    (hcomma : IsComma comma) (more : List Char) :
    afterChecksumMember? (prettyAt depth v ++ (comma ++ '\n' :: more)) = none := by
  by_cases isString : ∃ s, v = .string s
  · obtain ⟨s, rfl⟩ := isString
    have noColon : stripStart? [':'] (skipLineBlanks (comma ++ '\n' :: more)) = none := by
      rcases hcomma with rfl | rfl <;> rfl
    simp only [prettyAt, afterChecksumMember?, skipLineBlanks_stringText,
      afterChecksumKey?_stringText]
    split
    · simp only [Option.bind_eq_bind, Option.bind_some, noColon, Option.bind_none]
    · rfl
  · obtain ⟨c, cs, text, quote, blank⟩ :=
      exists_start_of_not_string depth (not_exists.1 isString)
    rw [text, List.cons_append, afterChecksumMember?_of_ne quote blank]

/-! ### Lines that stay in part -/

theorem skipLineBlanks_suffix (cs : List Char) : skipLineBlanks cs <:+ cs :=
  List.dropWhile_suffix _

theorem skipChar_suffix (c : Char) (cs : List Char) : skipChar c cs <:+ cs := by
  cases cs with
  | nil => exact List.suffix_refl _
  | cons d ds =>
    rw [skipChar]
    split
    · exact List.suffix_cons _ _
    · exact List.suffix_refl _

theorem quote_mem_skipLineBlanks {cs : List Char} (h : '"' ∈ cs) : '"' ∈ skipLineBlanks cs := by
  rw [← List.takeWhile_append_dropWhile (p := isLineBlank) (l := cs), List.mem_append] at h
  exact h.resolve_left fun blank => absurd (List.mem_takeWhile_imp blank) (by decide)

theorem quote_mem_skipChar {c : Char} (h : c ≠ '"') {cs : List Char} (quote : '"' ∈ cs) :
    '"' ∈ skipChar c cs := by
  cases cs with
  | nil => cases quote
  | cons d ds =>
    rw [skipChar]
    split
    · rename_i same
      exact (List.mem_cons.1 quote).resolve_left fun first => h (same.symm.trans first.symm)
    · exact quote

/-- A stored text is taken to end at its first quote. -/
theorem exists_afterPlainString (s : String) (comma : List Char) :
    ∃ t, afterPlainString? (stringText s ++ comma) = some t ∧ t <:+ stringText s ++ comma ∧
      (t = comma ∨ '"' ∈ t) := by
  have inline : '\n' ∉ s.toList.flatMap escapeChar := fun mem => by
    obtain ⟨c, -, inside⟩ := List.mem_flatMap.1 mem
    exact absurd (le_toNat_of_mem_escapeChar inside) (by decide)
  rw [stringText_append]
  generalize s.toList.flatMap escapeChar = body at inline
  suffices cut : ∃ t, (body ++ '"' :: comma).dropWhile (fun c => c != '"' && c != '\n') = '"' :: t ∧
      (t = comma ∨ '"' ∈ t) by
    obtain ⟨t, cut, ends⟩ := cut
    refine ⟨t, by simp only [afterPlainString?, cut], ?_, ends⟩
    exact ((List.suffix_cons _ _).trans (cut ▸ List.dropWhile_suffix _)).trans
      (List.suffix_cons _ _)
  induction body with
  | nil => exact ⟨comma, rfl, .inl rfl⟩
  | cons c cs ih =>
    rw [List.mem_cons, not_or] at inline
    by_cases quote : c = '"'
    · subst quote
      exact ⟨cs ++ '"' :: comma, rfl, .inr (List.mem_append_right _ List.mem_cons_self)⟩
    · rw [List.cons_append, List.dropWhile_cons_of_pos (by simp [quote, Ne.symm inline.1])]
      exact ih inline.2

/-- The line of a stored text vanishes, or what follows a quote in the text stays. -/
theorem exists_remainder {m : String × Json} (h : storesText m = true) (depth : Nat)
    {comma : List Char} (hcomma : IsComma comma) :
    ∃ r, afterChecksumMember? (memberText depth m ++ comma) = some r ∧ '\n' ∉ r ∧
      (r = [] ∨ '"' ∈ r ∧ ∃ c cs, r = c :: cs ∧ isLineBlank c = false) := by
  obtain ⟨key, v⟩ := m
  cases v with
  | string s =>
    have hkey : key ∈ checksumKeys := List.contains_iff_mem.1 h
    obtain ⟨t, value, sub, ends⟩ := exists_afterPlainString s comma
    have printable {c : Char} (hc : c ∈ t) : 0x20 ≤ c.toNat := by
      rcases List.mem_append.1 (sub.mem hc) with inside | inside
      · exact le_toNat_of_mem_stringText inside
      · rcases hcomma with rfl | rfl
        · cases inside
        · rw [List.mem_singleton.1 inside]
          decide
    have rest (t : List Char) : skipLineBlanks (skipChar ',' (skipLineBlanks t)) <:+ t :=
      (skipLineBlanks_suffix _).trans ((skipChar_suffix _ _).trans (skipLineBlanks_suffix t))
    refine ⟨skipChar '\r' (skipLineBlanks (skipChar ',' (skipLineBlanks t))), ?_, ?_, ?_⟩
    · have colon (tail : List Char) :
          stripStart? [':'] (skipLineBlanks (':' :: tail)) = some tail := rfl
      have space (tail : List Char) : skipLineBlanks (' ' :: tail) = skipLineBlanks tail := rfl
      simp only [memberText, List.append_assoc, List.cons_append, prettyAt, afterChecksumMember?,
        skipLineBlanks_stringText, afterChecksumKey?_stringText, if_pos hkey, colon, space, value,
        Option.bind_eq_bind, Option.bind_some, Option.pure_def]
    · intro lineBreak
      have inside := ((skipChar_suffix '\r' _).trans (rest t)).mem lineBreak
      exact absurd (printable inside) (by decide)
    · rcases ends with rfl | quote
      · rcases hcomma with rfl | rfl <;> exact .inl rfl
      · right
        have kept := quote_mem_skipLineBlanks
          (quote_mem_skipChar (c := ',') (by decide) (quote_mem_skipLineBlanks quote))
        have inside := rest t
        have notBlank := List.head?_dropWhile_not isLineBlank (skipChar ',' (skipLineBlanks t))
        rw [← skipLineBlanks] at notBlank
        generalize skipLineBlanks (skipChar ',' (skipLineBlanks t)) = u at kept inside notBlank
        cases u with
        | nil => cases kept
        | cons c cs =>
          have inline : c ≠ '\r' := by
            rintro rfl
            exact absurd (printable (inside.mem List.mem_cons_self)) (by decide)
          rw [skipChar, if_neg inline]
          exact ⟨kept, c, cs, rfl, by simpa using notBlank⟩
  | null | bool | number | array | object => cases h

end OpenApiModels.Spec
