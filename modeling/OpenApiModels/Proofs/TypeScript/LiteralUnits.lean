import OpenApiModels.TypeScript.Literal
import OpenApiModels.TypeScript.Source

/-!
# Texts made of literals

A text of literals in double quotes is a list of units: the quotes, and the characters of the
values with their escapes. Any literal that is read inside of such a text begins and ends between
units, and the units in it are what it stands for.
-/

namespace OpenApiModels.TypeScript

/-- How a quote, or a character of a value, is written. -/
def unitText : Option Char → List Char
  | none => ['"']
  | some c => escapeLiteralChar c

/-- The character that a unit stands for inside of a literal. -/
def unitChar (u : Option Char) : Char :=
  u.getD '"'

def unitsText (us : List (Option Char)) : List Char :=
  us.flatMap unitText

@[simp] theorem unitsText_nil : unitsText [] = [] := rfl

@[simp] theorem unitsText_cons (u : Option Char) (us : List (Option Char)) :
    unitsText (u :: us) = unitText u ++ unitsText us := rfl

@[simp] theorem unitsText_append (us vs : List (Option Char)) :
    unitsText (us ++ vs) = unitsText us ++ unitsText vs := by
  simp [unitsText]

theorem unitsText_map_some (value : List Char) :
    unitsText (value.map some) = value.flatMap escapeLiteralChar := by
  simp [unitsText, List.flatMap_map, unitText]

/-! ### Single units -/

/-- The characters that an escape can have behind its backslash. -/
def escapeMarks : List Char := ['"', '\\', 'n', 'r', 't']

/-- A unit is a character that needs no escape, or a quote, or an escape. -/
theorem unitText_cases (u : Option Char) :
    (unitText u = [unitChar u] ∧ unitChar u ≠ '\\' ∧ unitChar u ≠ '\n') ∨
      ∃ d ∈ escapeMarks, unitText u = ['\\', d] ∧
        ∀ r, unescape ('\\' :: d :: r) = unitChar u :: unescape r := by
  cases u with
  | none => exact .inl ⟨rfl, by decide, by decide⟩
  | some c =>
    by_cases quote : c = '"'
    · subst quote
      exact .inr ⟨'"', by decide, rfl, fun r => by simp [unescape, unitChar]⟩
    by_cases backslash : c = '\\'
    · subst backslash
      exact .inr ⟨'\\', by decide, rfl, fun r => by simp [unescape, unitChar]⟩
    by_cases lineFeed : c = '\n'
    · subst lineFeed
      exact .inr ⟨'n', by decide, rfl, fun r => by simp [unescape, unitChar]⟩
    by_cases return_ : c = '\r'
    · subst return_
      exact .inr ⟨'r', by decide, rfl, fun r => by simp [unescape, unitChar]⟩
    by_cases tab : c = '\t'
    · subst tab
      exact .inr ⟨'t', by decide, rfl, fun r => by simp [unescape, unitChar]⟩
    refine .inl ⟨?_, backslash, lineFeed⟩
    simp [unitText, unitChar, escapeLiteralChar]

/-- What is written as a quote is one. -/
theorem eq_none_of_unitText {u : Option Char} (h : unitText u = ['"']) : u = none := by
  cases u with
  | none => rfl
  | some c =>
    rcases unitText_cases (some c) with ⟨text, -, -⟩ | ⟨d, -, text, -⟩
    · rw [h] at text
      obtain rfl : '"' = c := (List.cons.inj text).1
      exact absurd h (by decide)
    · rw [h] at text
      exact absurd (List.cons.inj text).1 (by decide)

/-- Characters that no escape needs are written as they are. -/
theorem eq_some_of_unitText {u : Option Char} {c : Char} (quote : c ≠ '"')
    (h : unitText u = [c]) : u = some c := by
  rcases unitText_cases u with ⟨text, -, -⟩ | ⟨d, -, text, -⟩
  · rw [h] at text
    cases u with
    | none => exact absurd (List.cons.inj text).1 quote
    | some d => rw [(List.cons.inj text).1]; rfl
  · rw [h] at text
    cases (List.cons.inj text).2

/-! ### Cuts between units -/

/-- A cut is one between units, or one behind the backslash of an escape. -/
theorem units_of_append {us : List (Option Char)} {a b : List Char} (h : unitsText us = a ++ b) :
    (∃ vs ws, us = vs ++ ws ∧ unitsText vs = a ∧ unitsText ws = b) ∨
      (a.getLast? = some '\\' ∧ ∃ d ∈ escapeMarks, b.head? = some d) := by
  induction us generalizing a with
  | nil =>
    obtain ⟨rfl, rfl⟩ := List.append_eq_nil_iff.1 h.symm
    exact .inl ⟨[], [], rfl, rfl, rfl⟩
  | cons u us ih =>
    rw [unitsText_cons] at h
    -- behind the unit the cut is one of the remaining units
    have later : ∀ a', a = unitText u ++ a' → unitsText us = a' ++ b →
        (∃ vs ws, u :: us = vs ++ ws ∧ unitsText vs = a ∧ unitsText ws = b) ∨
          (a.getLast? = some '\\' ∧ ∃ d ∈ escapeMarks, b.head? = some d) := by
      rintro a' rfl rest
      rcases ih rest with ⟨vs, ws, rfl, before, after⟩ | ⟨last, mark⟩
      · exact .inl ⟨u :: vs, ws, rfl, by rw [unitsText_cons, before], after⟩
      · exact .inr ⟨by rw [List.getLast?_append, last]; rfl, mark⟩
    cases a with
    | nil => exact .inl ⟨[], u :: us, rfl, rfl, h⟩
    | cons c a =>
      rcases unitText_cases u with ⟨text, -, -⟩ | ⟨d, mark, text, -⟩
      · rw [text] at h later
        obtain ⟨rfl, rest⟩ := List.cons.inj h
        exact later a rfl rest
      · rw [text] at h later
        obtain ⟨rfl, rest⟩ := List.cons.inj h
        cases a with
        | nil => exact .inr ⟨rfl, d, mark, by rw [← show _ = b from rest]; rfl⟩
        | cons e a =>
          obtain ⟨rfl, behind⟩ := List.cons.inj rest
          exact later a rfl behind

/-! ### Literals -/

/-- Units are read as what they stand for. -/
theorem unescape_unitsText (us : List (Option Char)) :
    unescape (unitsText us) = us.map unitChar := by
  induction us with
  | nil => simp [unescape]
  | cons u us ih =>
    rw [unitsText_cons, List.map_cons]
    rcases unitText_cases u with ⟨text, plain, -⟩ | ⟨d, -, text, read⟩
    · rw [text, List.singleton_append, unescape.eq_def]
      dsimp only
      rw [if_neg plain, ih]
    · rw [text, List.cons_append, List.singleton_append, read, ih]

/-- A literal that starts between units goes up to the unit that is its quote. -/
theorem units_of_splitLiteral {quote : Char} (isQuote : quote ≠ '\\') {us : List (Option Char)}
    {text rest : List Char} (h : splitLiteral quote (unitsText us) = some (text, rest)) :
    ∃ vs u ws, us = vs ++ u :: ws ∧ unitText u = [quote] ∧ text = unitsText vs ++ [quote] ∧
      rest = unitsText ws ∧ ∀ v ∈ vs, unitText v ≠ [quote] := by
  induction us generalizing text with
  | nil => cases h
  | cons u us ih =>
    rw [unitsText_cons] at h
    rcases unitText_cases u with ⟨single, plain, inLine⟩ | ⟨d, -, escape, -⟩
    · rw [single, List.singleton_append, splitLiteral.eq_def] at h
      dsimp only at h
      rw [if_neg plain] at h
      by_cases ends : unitChar u = quote
      · rw [if_pos ends] at h
        cases h
        exact ⟨[], u, us, rfl, by rw [single, ends], by rw [ends]; rfl, rfl, by simp⟩
      · rw [if_neg ends, if_neg (fun both => inLine both.1)] at h
        simp only [Option.map_eq_some_iff, Prod.exists, Prod.mk.injEq] at h
        obtain ⟨inner, _, found, rfl, rfl⟩ := h
        obtain ⟨vs, v, ws, rfl, isEnd, rfl, rfl, none⟩ := ih found
        refine ⟨u :: vs, v, ws, rfl, isEnd, by rw [unitsText_cons, single]; rfl, rfl, ?_⟩
        simp only [List.forall_mem_cons]
        refine ⟨fun same => ends ?_, none⟩
        rw [single] at same
        exact (List.cons.inj same).1
    · rw [escape, List.cons_append, List.singleton_append, splitLiteral, if_pos rfl] at h
      simp only [Option.map_eq_some_iff, Prod.exists, Prod.mk.injEq] at h
      obtain ⟨inner, _, found, rfl, rfl⟩ := h
      obtain ⟨vs, v, ws, rfl, isEnd, rfl, rfl, none⟩ := ih found
      refine ⟨u :: vs, v, ws, rfl, isEnd, by rw [unitsText_cons, escape]; rfl, rfl, ?_⟩
      simp only [List.forall_mem_cons]
      refine ⟨fun same => ?_, none⟩
      rw [escape] at same
      exact isQuote (List.cons.inj same).1.symm

/-- The literal of a text is read up to its end. -/
theorem splitLiteral_escaped (value rest : List Char) :
    splitLiteral '"' (value.flatMap escapeLiteralChar ++ '"' :: rest) =
      some (value.flatMap escapeLiteralChar ++ ['"'], rest) := by
  induction value with
  | nil =>
    rw [List.flatMap_nil, List.nil_append, splitLiteral.eq_def]
    dsimp only
    rw [if_neg (by decide), if_pos rfl]
    rfl
  | cons c value ih =>
    have unit : unitText (some c) = escapeLiteralChar c := rfl
    rw [List.flatMap_cons, List.append_assoc]
    rcases unitText_cases (some c) with ⟨text, plain, inLine⟩ | ⟨d, -, text, -⟩
    · rw [unit] at text
      have quote : unitChar (some c) ≠ '"' := by
        intro same
        rw [show c = '"' from same] at text
        exact absurd text (by decide)
      rw [text, List.singleton_append, splitLiteral.eq_def]
      dsimp only
      rw [if_neg plain, if_neg quote, if_neg fun both => inLine both.1, ih]
      rfl
    · rw [unit] at text
      rw [text, List.cons_append, List.singleton_append, splitLiteral, if_pos rfl, ih]
      rfl

/-- What is read back from the literal of a text is the text. -/
theorem unquote_stringLiteral (value : List Char) : unquote (stringLiteral value) = value := by
  have inner : (value.flatMap escapeLiteralChar ++ ['"']).dropLast =
      unitsText (value.map some) := by
    rw [List.dropLast_concat, unitsText_map_some]
  rw [unquote, stringLiteral, List.cons_append, List.drop_one, List.tail_cons, inner,
    unescape_unitsText, List.map_map]
  exact List.map_id value

/-- The characters that a literal holds behind a backslash only. -/
def escapedChars : List Char := ['"', '\\', '\n', '\r', '\t']

theorem escapeLiteralChar_of_not_mem {c : Char} (h : c ∉ escapedChars) :
    escapeLiteralChar c = [c] := by
  simp only [escapedChars, List.mem_cons, List.not_mem_nil, or_false, not_or] at h
  simp [escapeLiteralChar, h]

theorem not_mem_escapedChars_of_isNameChar {c : Char} (h : isNameChar c = true) :
    c ∉ escapedChars := by
  have others : escapedChars.all (fun d => !isNameChar d) = true := by decide
  intro mem
  have other := List.all_eq_true.1 others c mem
  rw [h] at other
  cases other

/-- Characters that need no escape stand in a literal as they are. -/
theorem stringLiteral_plain {value : List Char} (h : ∀ c ∈ value, c ∉ escapedChars) :
    stringLiteral value = '"' :: (value ++ ['"']) := by
  have same : value.flatMap escapeLiteralChar = value := by
    induction value with
    | nil => rfl
    | cons c value ih =>
      obtain ⟨first, others⟩ := List.forall_mem_cons.1 h
      rw [List.flatMap_cons, escapeLiteralChar_of_not_mem first, ih others]
      rfl
  rw [stringLiteral, same]
  rfl

/-! ### Fields between quotes -/

/-- Fields with a quote in front of each. -/
def quotedFields (fields : List (List Char)) : List (Option Char) :=
  fields.flatMap fun f => none :: f.map some

@[simp] theorem quotedFields_nil : quotedFields [] = [] := rfl

theorem quotedFields_cons (f : List Char) (fields : List (List Char)) :
    quotedFields (f :: fields) = none :: (f.map some ++ quotedFields fields) := rfl

theorem quotedFields_append (a b : List (List Char)) :
    quotedFields (a ++ b) = quotedFields a ++ quotedFields b := by
  simp [quotedFields]

theorem head?_quotedFields {fields : List (List Char)} {u : Option Char}
    (h : (quotedFields fields).head? = some u) : u = none := by
  cases fields with
  | nil => cases h
  | cons f fields => exact (Option.some.inj h).symm

/-- A field ends at the next quote. -/
theorem field_unique {f g : List Char} {us vs : List (Option Char)}
    (h : f.map some ++ us = g.map some ++ none :: vs)
    (ends : ∀ u, us.head? = some u → u = none) : f = g ∧ us = none :: vs := by
  induction f generalizing g with
  | nil =>
    cases g with
    | nil => exact ⟨rfl, h⟩
    | cons c g =>
      have first := ends (some c) (by rw [show us = _ from h]; rfl)
      cases first
  | cons c f ih =>
    cases g with
    | nil => cases (List.cons.inj h).1
    | cons d g =>
      obtain ⟨first, rest⟩ := List.cons.inj h
      obtain ⟨rfl, same⟩ := ih rest
      exact ⟨by rw [Option.some.inj first], same⟩

/-- A quote is not one of the characters before it. -/
theorem behind_field {f : List Char} {us a b : List (Option Char)}
    (h : f.map some ++ us = a ++ none :: b) : ∃ a', a = f.map some ++ a' ∧ us = a' ++ none :: b := by
  induction f generalizing a with
  | nil => exact ⟨a, rfl, h⟩
  | cons c f ih =>
    cases a with
    | nil => cases (List.cons.inj h).1
    | cons u a =>
      obtain ⟨first, rest⟩ := List.cons.inj h
      obtain ⟨a', rfl, same⟩ := ih rest
      exact ⟨a', by rw [← first]; rfl, same⟩

/-- What stands between two quotes is a field, and another one follows. -/
theorem field_of_quotes {fields : List (List Char)} {f : List Char} {a b : List (Option Char)}
    (h : quotedFields fields = a ++ none :: (f.map some ++ none :: b)) :
    ∃ before after, fields = before ++ f :: after ∧ none :: b = quotedFields after := by
  induction fields generalizing a with
  | nil => cases a <;> cases h
  | cons g fields ih =>
    rw [quotedFields_cons] at h
    cases a with
    | nil =>
      obtain ⟨rfl, same⟩ := field_unique (List.cons.inj h).2 fun u => head?_quotedFields
      exact ⟨[], fields, rfl, same.symm⟩
    | cons u a =>
      obtain ⟨a', -, rest⟩ := behind_field (List.cons.inj h).2
      obtain ⟨before, after, rfl, same⟩ := ih rest
      exact ⟨g :: before, after, rfl, same⟩

/-- What has no quote in it is part of a field. -/
theorem infix_field {f g : List Char} {fields : List (List Char)} {a b : List (Option Char)}
    (h : f.map some ++ quotedFields fields = a ++ (g.map some ++ b)) (hg : g ≠ []) :
    ∃ field ∈ f :: fields, g <:+: field := by
  induction fields generalizing f a with
  | nil =>
    have whole : f = a.filterMap id ++ (g ++ b.filterMap id) := by
      have chars := congrArg (List.filterMap id) h
      simpa [List.filterMap_map] using chars
    exact ⟨f, List.mem_cons_self, a.filterMap id, b.filterMap id, by rw [whole]; simp⟩
  | cons first fields ih =>
    rw [quotedFields_cons] at h
    rcases List.append_eq_append_iff.1 h with ⟨c, rfl, rest⟩ | ⟨c, own, rest⟩
    · cases c with
      | nil =>
        cases g with
        | nil => exact absurd rfl hg
        | cons d g => cases (List.cons.inj rest).1
      | cons u c =>
        obtain ⟨field, mem, inside⟩ := ih (List.cons.inj rest).2
        exact ⟨field, List.mem_cons_of_mem _ mem, inside⟩
    · obtain ⟨c', rfl, -⟩ := behind_field rest
      have whole : f = a.filterMap id ++ (g ++ c'.filterMap id) := by
        have chars := congrArg (List.filterMap id) own
        simpa [List.filterMap_map] using chars
      exact ⟨f, List.mem_cons_self, a.filterMap id, c'.filterMap id, by rw [whole]; simp⟩

end OpenApiModels.TypeScript
