import Mathlib.Data.Bool.AllAny
import OpenApiModels.Proofs.Text.Finding
import OpenApiModels.Proofs.TypeScript.Lexing
import OpenApiModels.Proofs.TypeScript.LiteralUnits
import OpenApiModels.Retyping.Transform

/-!
# No declaration contains the enum it replaces

A type declaration is put in front of the enum declaration that it replaces, and the enum
declaration is then searched from there. It is found where it stands: no occurrence of it starts
in the type declaration. Outside of the literals this is so since an enum declaration starts with
one of four words. Inside of a literal, the text would go on as the literals of the type
declaration do, over and over, with the literals of the enum declaration in between; but then the
value of one of these literals would contain the value of another one whole, which would again
contain another one.
-/

namespace OpenApiModels.Retyping

open Text TypeScript

/-! ### How enum declarations start -/

/-- The words that an enum declaration can start with. -/
def openers : List (List Char) :=
  ["export".toList, "declare".toList, "const".toList, "enum".toList]

/-- A text that starts with a word of an enum declaration and another name; behind `export` this
is no `type`. -/
def StartsEnum (key : List Char) : Prop :=
  ∃ word gap c rest, key = word ++ (gap ++ c :: rest) ∧ word ∈ openers ∧ ClosedGap gap ∧
    (gap ++ c :: rest).head?.any isNameChar = false ∧ isBlank c = false ∧
    isNameStart c = true ∧ (word = "export".toList → c ≠ 't')

section

variable {key : List Char} (starts : StartsEnum key)

include starts

theorem not_prefix_cons {c : Char} {rest : List Char} (h : c ∉ ['e', 'd', 'c']) :
    ¬ key <+: c :: rest := by
  obtain ⟨word, gap, d, more, rfl, opener, -⟩ := starts
  intro pre
  refine h ?_
  simp only [openers, List.mem_cons, List.not_mem_nil, or_false] at opener
  rcases opener with rfl | rfl | rfl | rfl <;>
    (obtain ⟨rfl, -⟩ := List.cons_prefix_cons.1 pre; decide)

/-- Where a whole word starts the text, it is one of the four, and a name follows it. -/
theorem opener_of_prefix {word rest : List Char} (h : key <+: word ++ rest)
    (chars : ∀ c ∈ word, isNameChar c = true) (stop : rest.head?.any isNameChar = false) :
    word ∈ openers ∧ ∀ gap c more, splitGap 0 rest = .ok (gap, c :: more) →
      isNameStart c = true ∧ (word = "export".toList → c ≠ 't') := by
  obtain ⟨first, gap, d, more, rfl, opener, closed, ends, notBlank, isName, notType⟩ := starts
  obtain ⟨after, eq⟩ := h
  rw [List.append_assoc] at eq
  have firstChars : ∀ c ∈ first, isNameChar c = true := by
    have all : ∀ w ∈ openers, w.all isNameChar = true := by decide
    exact List.all_eq_true.1 (all first opener)
  have firstStop : (gap ++ d :: more ++ after).head?.any isNameChar = false := by
    cases gap <;> exact ends
  obtain ⟨same, next⟩ := span_append_iff.2 ⟨firstChars, firstStop⟩
  obtain ⟨same', next'⟩ := span_append_iff.2 ⟨chars, stop⟩
  rw [eq] at same next
  obtain rfl : word = first := same'.symm.trans same
  obtain rfl : rest = gap ++ d :: more ++ after := next'.symm.trans next
  refine ⟨opener, fun gap' c more' split => ?_⟩
  have slash : d ≠ '/' := by
    rintro rfl
    exact absurd isName (by decide)
  have split' := closed 0 _ (startsToken_cons notBlank slash (more ++ after))
  rw [List.append_assoc, List.cons_append, split'] at split
  cases split
  exact ⟨isName, notType⟩

/-- No enum declaration starts in a name that something else than a name follows. -/
theorem avoids_name {name rest gap more : List Char} {c : Char}
    (chars : ∀ c ∈ name, isNameChar c = true) (stop : rest.head?.any isNameChar = false)
    (next : splitGap 0 rest = .ok (gap, c :: more)) (notName : isNameStart c = false) :
    Avoids key name rest := by
  rintro a b rfl - pre
  have found := opener_of_prefix starts pre
    (fun c hc => chars c (List.mem_append_right a hc)) stop
  have isName := (found.2 gap c more next).1
  rw [notName] at isName
  cases isName

theorem avoids_export (rest : List Char) : Avoids key "export ".toList ("type ".toList ++ rest) := by
  have first : ¬ key <+: "export".toList ++ ' ' :: ("type ".toList ++ rest) := by
    intro pre
    have found := opener_of_prefix starts pre (List.all_eq_true.1 (by decide))
      (by rw [List.head?_cons]; decide)
    have next : splitGap 0 (' ' :: ("type ".toList ++ rest)) =
        .ok ([' '], 't' :: ("ype ".toList ++ rest)) :=
      splitGap_blank (by decide)
        (splitGap_of_startsToken (startsToken_cons (by decide) (by decide) _) _)
    exact (found.2 _ _ _ next).2 rfl rfl
  refine avoids_cons.2 ⟨first, ?_⟩
  repeat' refine avoids_cons.2 ⟨not_prefix_cons starts (by decide), ?_⟩
  exact avoids_nil _

theorem avoids_type (rest : List Char) : Avoids key "type ".toList rest := by
  have inside : ¬ key <+: ['e'] ++ ' ' :: rest := by
    intro pre
    have found := opener_of_prefix starts pre (List.all_eq_true.1 (by decide))
      (by rw [List.head?_cons]; decide)
    exact absurd found.1 (by decide)
  refine avoids_cons.2 ⟨not_prefix_cons starts (by decide), ?_⟩
  refine avoids_cons.2 ⟨not_prefix_cons starts (by decide), ?_⟩
  refine avoids_cons.2 ⟨not_prefix_cons starts (by decide), ?_⟩
  refine avoids_cons.2 ⟨inside, ?_⟩
  exact avoids_cons.2 ⟨not_prefix_cons starts (by decide), avoids_nil _⟩

end

/-! ### Literals of enum declarations -/

/-- The text has a literal for a value, up to a comma or a closing brace, that stands behind no
backslash. -/
def HasLiteral (key value : List Char) : Prop :=
  ∃ before quote text gap c after,
    key = before ++ quote :: (text ++ (gap ++ c :: after)) ∧ before.getLast? ≠ some '\\' ∧
      isQuote quote = true ∧ splitLiteral quote text = some (text, []) ∧
      unescape text.dropLast = value ∧ ClosedGap gap ∧ (c = ',' ∨ c = '\x7d')

/-- A literal for a value between units. -/
structure UnitLiteral (us : List (Option Char)) (value : List Char) where
  before : List (Option Char)
  opening : Option Char
  content : List (Option Char)
  closing : Option Char
  after : List (Option Char)
  quote : Char
  split : us = before ++ opening :: (content ++ closing :: after)
  text_opening : unitText opening = [quote]
  text_closing : unitText closing = [quote]
  text_content : ∀ u ∈ content, unitText u ≠ [quote]
  value_eq : content.map unitChar = value
  isQuote_quote : isQuote quote = true
  followed : ∃ gap c rest, unitsText after = gap ++ c :: rest ∧ ClosedGap gap ∧
    (c = ',' ∨ c = '\x7d')

theorem HasLiteral.units {us : List (Option Char)} {value : List Char}
    (h : HasLiteral (unitsText us) value) : Nonempty (UnitLiteral us value) := by
  obtain ⟨before, quote, text, gap, c, after, split, last, isQ, literal, read, closed, mark⟩ := h
  have notBackslash : quote ≠ '\\' := by
    rintro rfl
    exact absurd isQ (by decide)
  rcases units_of_append split with ⟨vs, ys, rfl, rfl, tail⟩ | ⟨backslash, -⟩
  · cases ys with
    | nil => cases tail
    | cons u zs =>
      rw [unitsText_cons] at tail
      rcases unitText_cases u with ⟨single, -, -⟩ | ⟨d, -, escape, -⟩
      · rw [single] at tail
        obtain ⟨same, rest⟩ := List.cons.inj tail
        have found := splitLiteral_congr literal (gap ++ c :: after)
        rw [← show unitsText zs = text ++ (gap ++ c :: after) from rest] at found
        obtain ⟨xs, v, ws, rfl, isEnd, rfl, behind, none⟩ := units_of_splitLiteral notBackslash found
        rw [List.dropLast_concat, unescape_unitsText] at read
        exact ⟨⟨vs, u, xs, v, ws, quote, rfl, by rw [single, same], isEnd, none, read, isQ, gap, c,
          after, behind.symm, closed, mark⟩⟩
      · rw [escape] at tail
        exact absurd (List.cons.inj tail).1.symm notBackslash
  · exact absurd backslash last

/-! ### Literals of type declarations -/

/-- What separates the literals of a union. -/
def bar : List Char := [' ', '|', ' ']

/-- The text behind a literal of a union, with the values that follow. -/
def behindLiteral : List (List Char) → List Char
  | [] => [';']
  | v :: vs => bar ++ stringLiteral v ++ behindLiteral vs

/-- The fields behind a literal where the text starts over with `start` at its end. -/
def fieldsBehind (start : List Char) : List (List Char) → List (List Char)
  | [] => [';' :: start]
  | v :: vs => bar :: v :: fieldsBehind start vs

theorem unitsText_fieldsBehind (start : List Char) (vs : List (List Char)) :
    unitsText (quotedFields (fieldsBehind start vs)) =
      '"' :: (behindLiteral vs ++ start.flatMap escapeLiteralChar) := by
  induction vs with
  | nil =>
    simp [fieldsBehind, quotedFields_cons, unitsText_map_some, unitText, escapeLiteralChar,
      behindLiteral]
  | cons v vs ih =>
    rw [fieldsBehind, quotedFields_cons, quotedFields_cons, unitsText_cons, unitsText_append,
      unitsText_cons, unitsText_append, unitsText_map_some, unitsText_map_some, ih]
    simp [behindLiteral, stringLiteral, bar, unitText, escapeLiteralChar]

theorem mem_fieldsBehind {start f : List Char} {vs : List (List Char)}
    (h : f ∈ fieldsBehind start vs) : f = bar ∨ f ∈ vs ∨ f = ';' :: start := by
  induction vs with
  | nil => exact .inr (.inr (List.mem_singleton.1 h))
  | cons v vs ih =>
    rcases List.mem_cons.1 h with rfl | later
    · exact .inl rfl
    rcases List.mem_cons.1 later with rfl | later
    · exact .inr (.inl List.mem_cons_self)
    rcases ih later with here | mem | last
    · exact .inl here
    · exact .inr (.inl (List.mem_cons_of_mem v mem))
    · exact .inr (.inr last)

/-- The fields of a text that starts over `n` times. -/
def fieldsAgain (start : List Char) (vs : List (List Char)) (n : Nat) : List (List Char) :=
  (List.replicate n (fieldsBehind start vs)).flatten

theorem mem_fieldsAgain {start f : List Char} {vs : List (List Char)} {n : Nat}
    (h : f ∈ fieldsAgain start vs n) : f = bar ∨ f ∈ vs ∨ f = ';' :: start := by
  obtain ⟨fields, mem, hf⟩ := List.mem_flatten.1 h
  rw [(List.mem_replicate.1 mem).2] at hf
  exact mem_fieldsBehind hf

theorem head_fieldsBehind {start g : List Char} {vs : List (List Char)} {more b}
    (h : fieldsBehind start vs ++ more = g :: b) : g = bar ∨ g = ';' :: start := by
  cases vs <;> cases h
  · exact .inr rfl
  · exact .inl rfl

theorem fieldsAgain_succ (start : List Char) (vs : List (List Char)) (n : Nat) :
    fieldsAgain start vs (n + 1) = fieldsBehind start vs ++ fieldsAgain start vs n := by
  rw [fieldsAgain, List.replicate_succ, List.flatten_cons]
  rfl

/-- Of two fields in a row, one separates literals. -/
theorem adjacent_fields {start f g : List Char} {vs later : List (List Char)} {n : Nat} {a b}
    (h : fieldsBehind start later ++ fieldsAgain start vs n = a ++ f :: g :: b) :
    f = bar ∨ g = bar ∨ g = ';' :: start := by
  induction n generalizing later a with
  | zero =>
    induction later generalizing a with
    | nil =>
      have lengths := congrArg List.length h
      simp [fieldsBehind, fieldsAgain] at lengths
      omega
    | cons v later ih =>
      match a with
      | [] => exact .inl (List.cons.inj h).1.symm
      | [_] => exact .inr (head_fieldsBehind (List.cons.inj (List.cons.inj h).2).2)
      | _ :: _ :: a => exact ih (List.cons.inj (List.cons.inj h).2).2
  | succ n again =>
    induction later generalizing a with
    | nil =>
      rw [fieldsAgain_succ] at h
      match a with
      | [] => exact .inr (head_fieldsBehind (List.cons.inj h).2)
      | _ :: a => exact again (List.cons.inj h).2
    | cons v later ih =>
      match a with
      | [] => exact .inl (List.cons.inj h).1.symm
      | [_] => exact .inr (head_fieldsBehind (List.cons.inj (List.cons.inj h).2).2)
      | _ :: _ :: a => exact ih (List.cons.inj (List.cons.inj h).2).2

theorem adjacent_fieldsAgain {start f g : List Char} {vs : List (List Char)} {n : Nat} {a b}
    (h : fieldsAgain start vs n = a ++ f :: g :: b) : f = bar ∨ g = bar ∨ g = ';' :: start := by
  cases n with
  | zero => cases a <;> cases h
  | succ n =>
    rw [fieldsAgain_succ] at h
    exact adjacent_fields h

/-- A text that starts again behind the literals of a union goes on as they do. -/
theorem prefix_fieldsAgain {key start : List Char} {vs : List (List Char)}
    (h : key <+: start.flatMap escapeLiteralChar ++ '"' :: (behindLiteral vs ++ key)) (n : Nat) :
    key.take n <+: unitsText (start.map some ++ quotedFields (fieldsAgain start vs n)) := by
  induction n with
  | zero => exact List.nil_prefix
  | succ n ih =>
    have again : unitsText (start.map some ++ quotedFields (fieldsAgain start vs (n + 1))) =
        start.flatMap escapeLiteralChar ++ '"' :: (behindLiteral vs ++
          unitsText (start.map some ++ quotedFields (fieldsAgain start vs n))) := by
      rw [fieldsAgain_succ, quotedFields_append, unitsText_append, unitsText_append,
        unitsText_append, unitsText_map_some, unitsText_fieldsBehind]
      simp
    have short : key.take (n + 1) <+:
        start.flatMap escapeLiteralChar ++ '"' :: (behindLiteral vs ++ key.take n) := by
      refine List.prefix_of_prefix_length_le ((List.take_prefix _ _).trans h) ?_ ?_
      · obtain ⟨rest, eq⟩ := List.take_prefix n key
        refine ⟨rest, ?_⟩
        conv => rhs; rw [← eq]
        simp
      · simp only [List.length_append, List.length_cons, List.length_take]
        omega
    rw [again]
    refine short.trans ?_
    obtain ⟨rest, eq⟩ := ih
    exact ⟨rest, by rw [← eq]; simp⟩

/-- The last quote before a character, and what comes behind it. -/
theorem exists_last_quote (us : List (Option Char)) :
    (∃ f : List Char, us = f.map some) ∨ ∃ vs, ∃ f : List Char, us = vs ++ none :: f.map some := by
  induction us with
  | nil => exact .inl ⟨[], rfl⟩
  | cons u us ih =>
    rcases ih with ⟨f, rfl⟩ | ⟨vs, f, rfl⟩
    · cases u with
      | none => exact .inr ⟨[], f, rfl⟩
      | some c => exact .inl ⟨c :: f, rfl⟩
    · exact .inr ⟨u :: vs, f, rfl⟩

/-- The first quote behind a character, and what comes before it. -/
theorem exists_first_quote (us : List (Option Char)) :
    (∃ f : List Char, us = f.map some) ∨ ∃ vs, ∃ f : List Char, us = f.map some ++ none :: vs := by
  induction us with
  | nil => exact .inl ⟨[], rfl⟩
  | cons u us ih =>
    cases u with
    | none => exact .inr ⟨us, [], rfl⟩
    | some c =>
      rcases ih with ⟨f, rfl⟩ | ⟨vs, f, rfl⟩
      · exact .inl ⟨c :: f, rfl⟩
      · exact .inr ⟨vs, c :: f, rfl⟩

/-! ### No start inside of a literal -/

theorem eq_single_of_isQuote {c : Char} (h : isQuote c = true) (double : c ≠ '"') :
    c = '\'' ∨ c = '\x60' := by
  simpa [isQuote, double] using h

/-- What separates literals is neither a comma nor a closing brace. -/
theorem separator_no_comma {g start gap rest rest' : List Char} {c : Char}
    (separator : g = bar ∨ g = ';' :: start)
    (text : g.flatMap escapeLiteralChar ++ rest = gap ++ c :: rest') (closed : ClosedGap gap)
    (mark : c = ',' ∨ c = '\x7d') : False := by
  have starts : startsToken (c :: rest') = true := by
    rcases mark with rfl | rfl <;> exact startsToken_cons (by decide) (by decide) _
  have split := closed 0 _ starts
  rw [← text] at split
  rcases separator with rfl | rfl
  · have found : splitGap 0 (bar.flatMap escapeLiteralChar ++ rest) =
        .ok ([' '], '|' :: ' ' :: rest) :=
      splitGap_blank (by decide)
        (splitGap_of_startsToken (startsToken_cons (by decide) (by decide) _) _)
    rw [found] at split
    cases split
    rcases mark with h | h <;> exact absurd h (by decide)
  · have found := splitGap_of_startsToken
      (startsToken_cons (c := ';') (by decide) (by decide) (start.flatMap escapeLiteralChar ++ rest)) 0
    rw [show (';' :: start).flatMap escapeLiteralChar ++ rest =
      ';' :: (start.flatMap escapeLiteralChar ++ rest) by
        simp [escapeLiteralChar], found] at split
    cases split
    rcases mark with h | h <;> exact absurd h (by decide)

section

variable {us zs : List (Option Char)} {start : List Char} {vs : List (List Char)} {n : Nat}
  (whole : us ++ zs = start.map some ++ quotedFields (fieldsAgain start vs n))

include whole

/-- A value other than the separator of the literals does not contain its own quotes, which are
single ones. -/
theorem own_quote {value : List Char} (l : UnitLiteral us value) (other : value ≠ bar) :
    l.quote ≠ '"' ∧ l.quote ∉ value := by
  obtain ⟨before, opening, content, closing, after, quote, rfl, isOpen, isClose, inner, rfl, isQ,
    followed⟩ := l
  have double : quote ≠ '"' := by
    rintro rfl
    -- in double quotes, the content is a whole field, behind which no comma or brace can come
    obtain rfl := eq_none_of_unitText isOpen
    obtain rfl := eq_none_of_unitText isClose
    rcases exists_first_quote content with ⟨f, rfl⟩ | ⟨more, f, rfl⟩
    · have value_eq : (f.map some).map unitChar = f := by
        rw [List.map_map]
        exact List.map_id f
      rw [value_eq] at other
      have quotes : start.map some ++ quotedFields (fieldsAgain start vs n) =
          before ++ none :: (f.map some ++ none :: (after ++ zs)) := by
        rw [← whole]
        simp
      obtain ⟨a', -, behind⟩ := behind_field quotes
      obtain ⟨earlier, later, fields, next⟩ := field_of_quotes behind
      cases later with
      | nil => cases next
      | cons g later =>
        rw [quotedFields_cons] at next
        obtain ⟨gap, c, rest, text, closed, mark⟩ := followed
        have continues : unitsText (after ++ zs) = gap ++ (c :: (rest ++ unitsText zs)) := by
          rw [unitsText_append, text]
          simp
        rw [(List.cons.inj next).2, unitsText_append, unitsText_map_some] at continues
        exact separator_no_comma (adjacent_fieldsAgain fields |>.resolve_left other) continues
          closed mark
    · exact inner none (by simp) rfl
  refine ⟨double, fun mem => ?_⟩
  obtain ⟨u, hu, rfl⟩ := List.mem_map.1 mem
  refine inner u hu ?_
  cases u with
  | none => exact absurd rfl double
  | some c =>
    rcases eq_single_of_isQuote isQ double with single | back
    · rw [show c = '\'' from single]
      rfl
    · rw [show c = '\x60' from back]
      rfl

omit whole in
/-- A field with a single quote in it is one of the values that follow. -/
theorem value_of_mem_field {field : List Char} {quote : Char}
    (mem : field ∈ start :: fieldsAgain start vs n) (single : quote = '\'' ∨ quote = '\x60')
    (inside : quote ∈ field) (outside : quote ∉ start) : field ∈ vs := by
  rcases List.mem_cons.1 mem with rfl | mem
  · exact absurd inside outside
  rcases mem_fieldsAgain mem with rfl | mem | rfl
  · rcases single with rfl | rfl <;> exact absurd inside (by decide)
  · exact mem
  · rcases List.mem_cons.1 inside with rfl | mem
    · rcases single with h | h <;> exact absurd h (by decide)
    · exact absurd mem outside

/-- No value that follows contains a single quote that `start` does not contain: the literal of
the shortest one would contain another one whole. -/
theorem not_mem_values (literals : ∀ v ∈ vs, Nonempty (UnitLiteral us v)) {quote : Char}
    (single : quote = '\'' ∨ quote = '\x60') (outside : quote ∉ start) {v : List Char}
    (mem : v ∈ vs) : quote ∉ v := by
  induction size : v.length using Nat.strongRecOn generalizing v with | _ size ih
  subst size
  intro inside
  have notBar : ∀ value, quote ∈ value → value ≠ bar := by
    rintro value hq rfl
    rcases single with rfl | rfl <;> exact absurd hq (by decide)
  obtain ⟨l⟩ := literals v mem
  obtain ⟨double, own⟩ := own_quote whole l (notBar v inside)
  have other := eq_single_of_isQuote l.isQuote_quote double
  -- no field contains both kinds of single quotes
  have both : ∀ field ∈ start :: fieldsAgain start vs n, quote ∈ field → l.quote ∉ field := by
    intro field hf hq hl
    have hv := value_of_mem_field hf single hq outside
    obtain ⟨l'⟩ := literals field hv
    obtain ⟨double', own'⟩ := own_quote whole l' (notBar field hq)
    have other' := eq_single_of_isQuote l'.isQuote_quote double'
    have differ : quote ≠ l.quote := fun same => own (same ▸ inside)
    rcases single with rfl | rfl <;> rcases other with h | h <;> rcases other' with h' | h' <;>
      simp_all
  obtain ⟨before, opening, content, closing, after, quote', rfl, isOpen, isClose, inner, rfl, isQ,
    followed⟩ := l
  dsimp only at double own other both
  obtain rfl := eq_some_of_unitText double isOpen
  obtain rfl := eq_some_of_unitText double isClose
  obtain ⟨u, hu, same⟩ := List.mem_map.1 inside
  obtain rfl : u = some quote := by
    cases u with
    | none => rcases single with rfl | rfl <;> exact absurd same (by decide)
    | some c => exact congrArg some same
  obtain ⟨left, right, rfl⟩ := List.append_of_mem hu
  rcases exists_last_quote left with ⟨y, rfl⟩ | ⟨left, y, rfl⟩
  · obtain ⟨field, hf, infix_⟩ := infix_field (g := quote' :: (y ++ [quote])) (a := before)
      (b := right ++ some quote' :: (after ++ zs)) (by rw [← whole]; simp) (by simp)
    exact both field hf (infix_.subset (by simp)) (infix_.subset (by simp))
  rcases exists_first_quote right with ⟨z, rfl⟩ | ⟨right, z, rfl⟩
  · obtain ⟨field, hf, infix_⟩ := infix_field (g := quote :: (z ++ [quote']))
      (a := before ++ some quote' :: (left ++ none :: y.map some)) (b := after ++ zs)
      (by rw [← whole]; simp) (by simp)
    exact both field hf (infix_.subset (by simp)) (infix_.subset (by simp))
  have quotes : start.map some ++ quotedFields (fieldsAgain start vs n) =
      (before ++ some quote' :: left) ++ none :: ((y ++ quote :: z).map some ++
        none :: (right ++ some quote' :: (after ++ zs))) := by
    rw [← whole]
    simp
  obtain ⟨a', -, behind⟩ := behind_field quotes
  obtain ⟨earlier, later, fields, -⟩ := field_of_quotes behind
  have hf : y ++ quote :: z ∈ start :: fieldsAgain start vs n := by
    rw [fields]
    simp
  refine ih (y ++ quote :: z).length ?_ (value_of_mem_field hf single (by simp) outside) rfl
    (by simp)
  simp only [List.length_map, List.length_append, List.length_cons]
  omega

end

section

variable {key : List Char} (starts : StartsEnum key) (ends : key.getLast? = some '\x7d')

include starts ends

/-- No enum declaration starts in a value that one of its own literals has. -/
theorem avoids_value {v : List Char} {vs : List (List Char)} (own : HasLiteral key v)
    (literals : ∀ v ∈ vs, HasLiteral key v) (after : List Char) :
    Avoids key (v.flatMap escapeLiteralChar) ('"' :: (behindLiteral vs ++ (key ++ after))) := by
  intro a b split hb pre
  rw [← unitsText_map_some] at split
  rcases units_of_append split with ⟨us, ws, values, -, rfl⟩ | ⟨-, d, mark, first⟩
  · obtain ⟨x, start, rfl, rfl, rfl⟩ := List.map_eq_append_iff.1 values
    have again : key <+: start.flatMap escapeLiteralChar ++ '"' :: (behindLiteral vs ++ key) := by
      rw [unitsText_map_some] at pre
      refine List.prefix_of_prefix_length_le pre ⟨after, by simp⟩ ?_
      simp only [List.length_append, List.length_cons]
      omega
    obtain ⟨rest, more⟩ := prefix_fieldsAgain again key.length
    rw [List.take_length] at more
    rcases units_of_append more.symm with ⟨us, zs, whole, rfl, -⟩ | ⟨backslash, -⟩
    · cases start with
      | nil => exact hb rfl
      | cons c start =>
        obtain ⟨l⟩ := own.units
        have notBar : x ++ c :: start ≠ bar := by
          intro isBar
          have mem : c ∈ bar := by
            rw [← isBar]
            simp
          have plain : ∀ c ∈ bar, c ∉ ['e', 'd', 'c'] ∧ c ∉ escapedChars :=
            List.all_iff_forall_prop.1 (by decide)
          rw [List.map_cons, unitsText_cons, unitText,
            escapeLiteralChar_of_not_mem (plain c mem).2] at pre
          exact not_prefix_cons starts (plain c mem).1 pre
        obtain ⟨double, outside⟩ := own_quote whole.symm l notBar
        have single := eq_single_of_isQuote l.isQuote_quote double
        have outside' : l.quote ∉ c :: start := fun mem => outside (List.mem_append_right x mem)
        obtain ⟨field, hf, inside⟩ := infix_field (g := [l.quote]) (a := l.before)
          (b := l.content ++ l.closing :: l.after ++ zs)
          (by rw [whole]; conv => lhs; rw [l.split, eq_some_of_unitText double l.text_opening]
              simp) (by simp)
        have mem := inside.subset (List.mem_singleton.2 rfl)
        exact not_mem_values whole.symm (fun v hv => (literals v hv).units) single outside'
          (value_of_mem_field hf single mem outside') mem
    · rw [ends] at backslash
      exact absurd backslash (by decide)
  · obtain ⟨r, rfl⟩ := List.head?_eq_some_iff.1 first
    have other : ∀ d ∈ escapeMarks, d ∉ ['e', 'd', 'c'] :=
      List.all_iff_forall_prop.1 (by decide)
    exact not_prefix_cons starts (other d mark) pre

theorem avoids_stringLiteral {v : List Char} {vs : List (List Char)} (own : HasLiteral key v)
    (literals : ∀ v ∈ vs, HasLiteral key v) (after : List Char) :
    Avoids key (stringLiteral v) (behindLiteral vs ++ (key ++ after)) := by
  rw [stringLiteral, List.cons_append]
  refine avoids_cons.2 ⟨not_prefix_cons starts (by decide), avoids_append.2 ⟨?_, ?_⟩⟩
  · exact avoids_value starts ends own literals after
  · exact avoids_cons.2 ⟨not_prefix_cons starts (by decide), avoids_nil _⟩

theorem avoids_behindLiteral {vs : List (List Char)} (literals : ∀ v ∈ vs, HasLiteral key v)
    (after : List Char) : Avoids key (behindLiteral vs) (key ++ after) := by
  induction vs with
  | nil => exact avoids_cons.2 ⟨not_prefix_cons starts (by decide), avoids_nil _⟩
  | cons v vs ih =>
    have others : ∀ v ∈ vs, HasLiteral key v := fun v hv => literals v (List.mem_cons_of_mem _ hv)
    rw [behindLiteral, List.append_assoc]
    refine avoids_append.2 ⟨?_, avoids_append.2 ⟨?_, ih others⟩⟩
    · rw [bar]
      repeat' refine avoids_cons.2 ⟨not_prefix_cons starts (by decide), ?_⟩
      exact avoids_nil _
    · exact avoids_stringLiteral starts ends (literals v List.mem_cons_self) others after

end

theorem intercalate_stringLiteral (v : List Char) (vs : List (List Char)) :
    List.intercalate [' ', '|', ' '] ((v :: vs).map stringLiteral) ++ [';'] =
      stringLiteral v ++ behindLiteral vs := by
  induction vs generalizing v with
  | nil => simp [behindLiteral, List.intercalate]
  | cons w vs ih =>
    rw [List.map_cons, List.map_cons, List.intercalate_cons_cons, ← List.map_cons,
      List.append_assoc, List.append_assoc, ih w, behindLiteral, List.append_assoc]
    rfl

section

variable {key : List Char} (starts : StartsEnum key)

include starts

/-- No enum declaration starts in front of the `=` of a type declaration. -/
theorem avoids_head (decl : EnumDecl) {target : List Char}
    (chars : ∀ c ∈ target, isNameChar c = true) (rest : List Char) :
    Avoids key (exportText decl ++ "type ".toList ++ target) (" = ".toList ++ rest) := by
  rw [List.append_assoc]
  refine avoids_append.2 ⟨?_, avoids_append.2 ⟨avoids_type starts _, ?_⟩⟩
  · unfold exportText
    split
    · rw [List.append_assoc]
      exact avoids_export starts _
    · exact avoids_nil _
  · have next : splitGap 0 (" = ".toList ++ rest) = .ok ([' '], '=' :: ' ' :: rest) :=
      splitGap_blank (by decide)
        (splitGap_of_startsToken (startsToken_cons (by decide) (by decide) _) _)
    have stop : isNameChar ' ' = false := by decide
    exact avoids_name starts chars stop next (by decide)

theorem avoids_unionDeclaration (ends : key.getLast? = some '\x7d') (decl : EnumDecl)
    {target : String} (chars : ∀ c ∈ target.toList, isNameChar c = true) {values : List String}
    (nonempty : values ≠ []) (literals : ∀ v ∈ values, HasLiteral key v.toList)
    (after : List Char) : Avoids key (unionDeclaration decl target values) (key ++ after) := by
  cases values with
  | nil => exact absurd rfl nonempty
  | cons v vs =>
    have text : unionDeclaration decl target (v :: vs) =
        (exportText decl ++ "type ".toList ++ target.toList) ++ (" = ".toList ++
          (stringLiteral v.toList ++ behindLiteral (vs.map String.toList))) := by
      rw [← intercalate_stringLiteral, unionDeclaration, ← List.map_cons (f := String.toList),
        List.map_map]
      simp
      rfl
    rw [text]
    have others : ∀ v ∈ vs.map String.toList, HasLiteral key v := by
      simp only [List.forall_mem_map]
      exact fun v hv => literals v (List.mem_cons_of_mem _ hv)
    refine avoids_append.2 ⟨?_, avoids_append.2 ⟨?_, avoids_append.2 ⟨?_, ?_⟩⟩⟩
    · rw [List.append_assoc " = ".toList]
      exact avoids_head starts decl chars _
    · repeat' refine avoids_cons.2 ⟨not_prefix_cons starts (by decide), ?_⟩
      exact avoids_nil _
    · exact avoids_stringLiteral starts ends (literals v List.mem_cons_self) others after
    · exact avoids_behindLiteral starts ends others after

theorem avoids_brandedDeclaration (decl : EnumDecl) {target : String}
    (chars : ∀ c ∈ target.toList, isNameChar c = true) (after : List Char) :
    Avoids key (brandedDeclaration decl target) (key ++ after) := by
  have text : brandedDeclaration decl target =
      (exportText decl ++ "type ".toList ++ target.toList) ++ (" = ".toList ++
        ("Branded".toList ++ ("<string, \"".toList ++ (target.toList ++ "\">;".toList)))) := by
    rw [brandedDeclaration,
      stringLiteral_plain fun c hc => not_mem_escapedChars_of_isNameChar (chars c hc)]
    simp
  rw [text]
  have mark : ∀ {c : Char} {rest}, isBlank c = false → c ≠ '/' →
      splitGap 0 (c :: rest) = .ok ([], c :: rest) :=
    fun blank slash => splitGap_of_startsToken (startsToken_cons blank slash _) 0
  refine avoids_append.2 ⟨?_, avoids_append.2 ⟨?_, avoids_append.2 ⟨?_, avoids_append.2 ⟨?_,
    avoids_append.2 ⟨?_, ?_⟩⟩⟩⟩⟩
  · rw [List.append_assoc " = ".toList]
    exact avoids_head starts decl chars _
  · repeat' refine avoids_cons.2 ⟨not_prefix_cons starts (by decide), ?_⟩
    exact avoids_nil _
  · have stop : isNameChar '<' = false := by decide
    exact avoids_name starts (List.all_eq_true.1 (by decide)) stop
      (mark (c := '<') (by decide) (by decide)) (by decide)
  · repeat' refine avoids_cons.2 ⟨not_prefix_cons starts (by decide), ?_⟩
    exact avoids_nil _
  · have stop : isNameChar '"' = false := by decide
    exact avoids_name starts chars stop (mark (c := '"') (by decide) (by decide))
      (by decide)
  · repeat' refine avoids_cons.2 ⟨not_prefix_cons starts (by decide), ?_⟩
    exact avoids_nil _

end

end OpenApiModels.Retyping
