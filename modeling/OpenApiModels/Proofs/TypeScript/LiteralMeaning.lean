import OpenApiModels.Proofs.Text.Finding
import OpenApiModels.Proofs.TypeScript.LiteralUnits
import OpenApiModels.Proofs.TypeScript.WordSequence

/-!
# What string literals mean

In the language a literal that JSON writes for a string means that string, and so does a literal
that is written for it in a union (`means_stringText`, `means_stringLiteral`). Members of enums are
read back otherwise: `unquote` knows less escapes than JSON writes (`unquote_stringText`).
-/

namespace OpenApiModels.TypeScript

open Text

/-! ### The language -/

/-- The character that the language reads for one behind a backslash. -/
def singleEscape? : Char → Option Char
  | 'b' => some '\x08'
  | 't' => some '\t'
  | 'n' => some '\n'
  | 'v' => some '\x0b'
  | 'f' => some '\x0c'
  | 'r' => some '\r'
  | '"' => some '"'
  | '\'' => some '\''
  | '\\' => some '\\'
  | _ => none

/-- What the text between the quotes of a literal means. -/
inductive TextMeans : List Char → List Char → Prop where
  | nil : TextMeans [] []
  | plain {c : Char} {text value : List Char} (plain : c ∉ ['"', '\\', '\n', '\r'])
      (more : TextMeans text value) : TextMeans (c :: text) (c :: value)
  | single {c d : Char} {text value : List Char} (escape : singleEscape? c = some d)
      (more : TextMeans text value) : TextMeans ('\\' :: c :: text) (d :: value)
  /-- A code unit of four digits, which is a character by itself. -/
  | unit {a b c d e : Char} {n : Nat} {text value : List Char}
      (digits : hexValue? [a, b, c, d] = some n) (char : charOfCode? n = some e)
      (more : TextMeans text value) :
      TextMeans ('\\' :: 'u' :: a :: b :: c :: d :: text) (e :: value)

/-- What a literal in double quotes means. -/
def Means (literal value : List Char) : Prop :=
  ∃ text, literal = '"' :: (text ++ ['"']) ∧ TextMeans text value

theorem TextMeans.unique {text value value' : List Char} (h : TextMeans text value)
    (h' : TextMeans text value') : value = value' := by
  induction h generalizing value' with
  | nil => cases h'; rfl
  | plain plain _ ih =>
    cases h' with
    | plain _ more => rw [ih more]
    | single | unit => exact absurd (by simp) plain
  | single escape _ ih =>
    cases h' with
    | plain plain => exact absurd (by simp) plain
    | single escape' more => rw [ih more, Option.some.inj (escape.symm.trans escape')]
    | unit => cases escape
  | unit digits char _ ih =>
    cases h' with
    | plain plain => exact absurd (by simp) plain
    | single escape => cases escape
    | unit digits' char' more =>
      obtain rfl := Option.some.inj (digits.symm.trans digits')
      rw [ih more, Option.some.inj (char.symm.trans char')]

theorem Means.unique {literal value value' : List Char} (h : Means literal value)
    (h' : Means literal value') : value = value' := by
  obtain ⟨text, rfl, means⟩ := h
  obtain ⟨text', same, means'⟩ := h'
  obtain rfl := List.append_cancel_right (List.cons.inj same).2
  exact means.unique means'

/-! ### Literals of unions -/

theorem textMeans_escapeLiteralChar {text value : List Char} (more : TextMeans text value)
    (c : Char) : TextMeans (escapeLiteralChar c ++ text) (c :: value) := by
  unfold escapeLiteralChar
  split
  case h_6 quote backslash lineFeed return_ _ => exact .plain (by simp_all) more
  all_goals exact .single rfl more

/-- In the language the literal of a text means that text. -/
theorem means_stringLiteral (value : List Char) : Means (stringLiteral value) value := by
  refine ⟨value.flatMap escapeLiteralChar, rfl, ?_⟩
  induction value with
  | nil => exact .nil
  | cons c value ih => exact textMeans_escapeLiteralChar ih c

/-! ### Literals of JSON -/

theorem hexValue?_controlHex {c : Char} (control : c.toNat < 0x20) :
    hexValue? ('0' :: '0' :: Json.controlHex c) = some c.toNat := by
  have all : ∀ n, n < 0x20 →
      hexValue? ['0', '0', Nat.digitChar (n / 16), Nat.digitChar (n % 16)] = some n := by decide
  exact all c.toNat control

theorem charOfCode?_toNat (c : Char) : charOfCode? c.toNat = some c := by
  have valid : c.toNat.isValidChar := c.valid
  rw [charOfCode?, if_pos valid, Char.ofNat_toNat]

theorem textMeans_escapeChar {text value : List Char} (more : TextMeans text value) (c : Char) :
    TextMeans (Json.escapeChar c ++ text) (c :: value) := by
  unfold Json.escapeChar
  split
  case h_8 =>
    split
    · rename_i control
      exact .unit (hexValue?_controlHex control) (charOfCode?_toNat c) more
    · exact .plain (by simp_all) more
  all_goals exact .single rfl more

/-- In the language the literal that JSON writes for a string means that string. -/
theorem means_stringText (s : String) : Means (Json.stringText s) s.toList := by
  refine ⟨s.toList.flatMap Json.escapeChar, rfl, ?_⟩
  induction s.toList with
  | nil => exact .nil
  | cons c cs ih => exact textMeans_escapeChar ih c

/-! ### What is read back -/

/-- The character that is read back for one in a literal of JSON. -/
def rereadChar (c : Char) : Char :=
  if c = '\x08' then 'b' else if c = '\x0c' then 'f' else c

theorem rereadChar_eq_self_iff {c : Char} : rereadChar c = c ↔ c ≠ '\x08' ∧ c ≠ '\x0c' := by
  unfold rereadChar
  split
  · rename_i backspace
    simp [backspace]
  · split
    · rename_i feed
      simp [feed]
    · simp [*]

theorem unescape_plain {c : Char} (plain : c ≠ '\\') (cs : List Char) :
    unescape (c :: cs) = c :: unescape cs := by
  rw [unescape.eq_def]
  exact if_neg plain

theorem codePoint?_control {c : Char} (control : c.toNat < 0x20) (cs : List Char) :
    codePoint? ('0' :: '0' :: (Json.controlHex c ++ cs)) = some (c, cs) := by
  have digits : hexNumber? ('0' :: '0' :: Json.controlHex c) = some c.toNat := by
    have small : c.toNat < 4294967296 := by omega
    simp [hexNumber?, hexValue?_controlHex control, small]
  change ((hexNumber? ('0' :: '0' :: Json.controlHex c)).bind charOfCode?).map (·, cs) = _
  rw [digits, Option.bind_some, charOfCode?_toNat]
  rfl

theorem unescape_unit {c : Char} {cs rest : List Char} (h : codePoint? cs = some (c, rest)) :
    unescape ('\\' :: 'u' :: cs) = c :: unescape rest := by
  rw [unescape.eq_def]
  dsimp only
  rw [if_pos rfl, if_neg (by decide), if_neg (by decide), if_neg (by decide), if_neg (by decide),
    if_pos rfl]
  split
  · rename_i found
    rw [h] at found
    cases found
    rfl
  · rename_i found
    rw [h] at found
    cases found

theorem unescape_escapeChar (c : Char) (cs : List Char) :
    unescape (Json.escapeChar c ++ cs) = rereadChar c :: unescape cs := by
  unfold Json.escapeChar
  split
  case h_8 _ backslash backspace feed _ _ _ =>
    have same : rereadChar c = c := rereadChar_eq_self_iff.2 ⟨backspace, feed⟩
    rw [same]
    split
    · rename_i control
      exact unescape_unit (codePoint?_control control cs)
    · exact unescape_plain backslash cs
  all_goals simp [unescape, rereadChar]

/-- Of a literal of JSON, the string is read back but for backspaces and form feeds. -/
theorem unquote_stringText (s : String) :
    unquote (Json.stringText s) = s.toList.map rereadChar := by
  have inner : (s.toList.flatMap Json.escapeChar ++ ['"']).dropLast =
      s.toList.flatMap Json.escapeChar := List.dropLast_concat
  rw [unquote, Json.stringText, List.cons_append, List.drop_one, List.tail_cons, inner]
  induction s.toList with
  | nil => rw [List.flatMap_nil, unescape, List.map_nil]
  | cons c cs ih => rw [List.flatMap_cons, unescape_escapeChar, ih, List.map_cons]

/-! ### Substitutions -/

/-- What a substitution in a literal starts with. -/
def substitution : List Char :=
  ['$', '\x7b']

theorem containsText_substitution_cons (c : Char) (cs : List Char) :
    containsText substitution (c :: cs) =
      (c == '$' && cs.head? == some '\x7b' || containsText substitution cs) := by
  rw [Bool.eq_iff_iff, containsText_iff, List.infix_cons_iff, Bool.or_eq_true, containsText_iff]
  refine or_congr_left ?_
  cases cs with
  | nil => simp [substitution]
  | cons d cs =>
    simp only [substitution, List.cons_prefix_cons, List.nil_prefix, and_true, List.head?_cons,
      Bool.and_eq_true, beq_iff_eq, Option.some.injEq]
    exact and_congr eq_comm eq_comm

theorem containsText_substitution_append {a : List Char} (h : '$' ∉ a) (b : List Char) :
    containsText substitution (a ++ b) = containsText substitution b := by
  induction a with
  | nil => rfl
  | cons c a ih =>
    rw [List.mem_cons, not_or] at h
    have other : (c == '$') = false := beq_eq_false_iff_ne.2 (Ne.symm h.1)
    rw [List.cons_append, containsText_substitution_cons, other, ih h.2]
    rfl

/-- A character is written as it is, or by an escape that has none of the two characters. -/
theorem escapeChar_cases (c : Char) : Json.escapeChar c = [c] ∨
    c ∉ substitution ∧ '$' ∉ Json.escapeChar c ∧ (Json.escapeChar c).head? = some '\\' := by
  unfold Json.escapeChar
  split
  case h_8 =>
    split
    · rename_i control
      have digits : ∀ n < 0x20, '$' ∉ [Nat.digitChar (n / 16), Nat.digitChar (n % 16)] := by decide
      have other : c ∉ substitution := by
        intro mem
        rcases List.mem_pair.1 mem with rfl | rfl <;> exact absurd control (by decide)
      refine .inr ⟨other, ?_, rfl⟩
      rw [List.mem_append, not_or]
      exact ⟨by decide, digits c.toNat control⟩
    · exact .inl rfl
  all_goals exact .inr (by decide)

theorem head?_escaped (cs : List Char) :
    ((cs.flatMap Json.escapeChar ++ ['"']).head? == some '\x7b') = (cs.head? == some '\x7b') := by
  cases cs with
  | nil => rfl
  | cons c cs =>
    rw [List.flatMap_cons, List.append_assoc]
    rcases escapeChar_cases c with own | ⟨other, -, start⟩
    · rw [own]
      rfl
    · have brace : c ≠ '\x7b' := fun same => other (by simp [substitution, same])
      rw [List.head?_append, start, List.head?_cons]
      simp [brace]

/-- No escape of JSON writes or hides the start of a substitution. -/
theorem containsText_stringText (s : String) :
    containsText substitution (Json.stringText s) = containsText substitution s.toList := by
  have inner (cs : List Char) : containsText substitution (cs.flatMap Json.escapeChar ++ ['"']) =
      containsText substitution cs := by
    induction cs with
    | nil => decide
    | cons c cs ih =>
      rw [List.flatMap_cons, List.append_assoc, containsText_substitution_cons c cs]
      by_cases dollar : c = '$'
      · subst dollar
        have own : Json.escapeChar '$' = ['$'] := by decide
        rw [own, List.singleton_append, containsText_substitution_cons, ih, head?_escaped]
      · have other : (c == '$') = false := beq_eq_false_iff_ne.2 dollar
        have none : '$' ∉ Json.escapeChar c := by
          rcases escapeChar_cases c with own | ⟨-, none, -⟩
          · rw [own, List.mem_singleton]
            exact Ne.symm dollar
          · exact none
        rw [containsText_substitution_append none, ih, other]
        rfl
  rw [Json.stringText, List.cons_append, containsText_substitution_cons, inner]
  rfl

end OpenApiModels.TypeScript
