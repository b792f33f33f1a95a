import Mathlib.Data.List.Basic
import OpenApiModels.Proofs.Retyping.Applying
import OpenApiModels.Proofs.Retyping.ImportLine
import OpenApiModels.Proofs.TypeScript.WordSequence

/-!
# Lines that pass for imports

Where imports stand is looked for in the text as it is written, in which a line of a comment can
pass for an import. In a quiet text no line does, and none does when declarations are replaced and
names are followed (`Choice.Sound.quietsDown_retyped`, `quietsDown_renameTokens`).
-/

namespace OpenApiModels.Retyping

open Text TypeScript

/-- Where a character stands in its line. -/
inductive Place where
  | lineStart
  /-- Behind blanks only. -/
  | indented
  | inside
deriving DecidableEq, Repr

namespace Place

def next (p : Place) (c : Char) : Place :=
  if c = '\n' then .lineStart
  else if isBlank c ∧ p ≠ .inside then .indented
  else .inside

/-- The place behind a text. -/
def behind (p : Place) (cs : List Char) : Place :=
  cs.foldl next p

/-- Whether the word `import` counts where it stands and where `rest` follows it. -/
def admits (p : Place) (rest : List Char) : Bool :=
  match p with
  | .lineStart => endsWord rest || rest.head?.all isBlank
  | .indented => rest.head?.all isBlank
  | .inside => false

end Place

/-- Whether a text passes for an import at the place. -/
def passesAt (p : Place) (cs : List Char) : Bool :=
  (stripStart? "import".toList cs).any p.admits

/-- No line of the text passes for an import; the text starts at the place. -/
def isQuiet (p : Place) : List Char → Bool
  | [] => true
  | c :: cs => !passesAt p (c :: cs) && isQuiet (p.next c) cs

/-! ### Places -/

namespace Place

variable {p : Place} {c : Char} {cs : List Char}

@[simp] theorem behind_nil : p.behind [] = p := rfl

@[simp] theorem behind_cons : p.behind (c :: cs) = (p.next c).behind cs := rfl

theorem behind_append (a b : List Char) : p.behind (a ++ b) = (p.behind a).behind b :=
  List.foldl_append

theorem next_eq_lineStart_iff : p.next c = .lineStart ↔ c = '\n' := by
  unfold next
  split
  · simp [*]
  · split <;> simp [*]

theorem next_inside (h : c ≠ '\n') : Place.inside.next c = .inside := by
  simp [next, h]

theorem next_of_not_blank (h : isBlank c = false) : p.next c = .inside := by
  have notBreak : c ≠ '\n' := by
    rintro rfl
    cases h
  simp [next, notBreak, h]

theorem behind_inside (h : '\n' ∉ cs) : Place.inside.behind cs = .inside := by
  induction cs with
  | nil => rfl
  | cons c cs ih =>
    rw [List.mem_cons, not_or] at h
    rw [behind_cons, next_inside (Ne.symm h.1), ih h.2]

/-- What starts with something else than a blank goes on inside of its line. -/
theorem behind_of_not_blank (blank : isBlank c = false) (line : '\n' ∉ cs) :
    p.behind (c :: cs) = .inside := by
  rw [behind_cons, next_of_not_blank blank, behind_inside line]

theorem behind_concat (h : isBlank c = false) : p.behind (cs ++ [c]) = .inside := by
  rw [behind_append, behind_cons, next_of_not_blank h, behind_nil]

theorem behind_break : p.behind (cs ++ ['\n']) = .lineStart := by
  rw [behind_append, behind_cons, next, if_pos rfl, behind_nil]

theorem admits_congr {rest rest' : List Char} (same : rest.head? = rest'.head?) :
    p.admits rest = p.admits rest' := by
  cases p <;> simp [admits, endsWord, same]

/-- A blank ends a word like the end of a text does. -/
theorem admits_blank (h : isBlank c = true) : p.admits (c :: cs) = p.admits [] := by
  cases p <;> simp [admits, endsWord, h]

end Place

/-! ### Parts of texts -/

variable {p : Place}

theorem passesAt_inside (cs : List Char) : passesAt .inside cs = false := by
  unfold passesAt
  cases stripStart? "import".toList cs <;> rfl

theorem passesAt_of_ne {c : Char} (h : c ≠ 'i') (cs : List Char) :
    passesAt p (c :: cs) = false := by
  have none : stripStart? "import".toList (c :: cs) = none := if_neg (Ne.symm h)
  rw [passesAt, none]
  rfl

/-- What follows a text does not matter where the word would have to end in the text. -/
theorem passesAt_append {y : List Char} {c : Char} (last : y.getLast? = some c)
    (other : c ∉ "import".toList) (b : List Char) : passesAt p (y ++ b) = passesAt p y := by
  have more {rest z : List Char} (split : y ++ z = "import".toList ++ rest) :
      ∃ r, r ≠ [] ∧ y = "import".toList ++ r ∧ rest = r ++ z := by
    rcases List.append_eq_append_iff.1 split with ⟨z', word, -⟩ | ⟨r, rfl, rfl⟩
    · rw [word] at other
      exact absurd (List.mem_append_left z' (List.mem_of_getLast? last)) other
    · refine ⟨r, ?_, rfl, rfl⟩
      rintro rfl
      rw [List.append_nil] at last
      exact absurd (List.mem_of_getLast? last) other
  unfold passesAt
  cases whole : stripStart? "import".toList (y ++ b) with
  | some rest =>
    obtain ⟨r, nonempty, rfl, rfl⟩ := more (stripStart?_eq_some_iff.1 whole)
    rw [stripStart?_eq_some_iff.2 rfl, Option.any_some, Option.any_some]
    exact Place.admits_congr (List.head?_append_of_ne_nil _ nonempty)
  | none =>
    cases part : stripStart? "import".toList y with
    | none => rfl
    | some r =>
      have again : y ++ b = "import".toList ++ (r ++ b) := by
        rw [stripStart?_eq_some_iff.1 part, List.append_assoc]
      rw [stripStart?_eq_some_iff.2 again] at whole
      cases whole

/-- Whether a word stands first does not depend on what follows a blank. -/
theorem any_stripStart?_blank {word b : List Char} {c : Char} {q : List Char → Bool}
    (letters : ∀ d ∈ word, isBlank d = false) (blank : isBlank c = true)
    (same : ∀ r, q (r ++ c :: b) = q r) (y : List Char) :
    (stripStart? word (y ++ c :: b)).any q = (stripStart? word y).any q := by
  induction word generalizing y with
  | nil => exact same y
  | cons k word ih =>
    obtain ⟨first, others⟩ := List.forall_mem_cons.1 letters
    cases y with
    | nil =>
      have differ : k ≠ c := by
        rintro rfl
        rw [first] at blank
        cases blank
      have none : stripStart? (k :: word) (c :: b) = none := if_neg differ
      rw [List.nil_append, none]
      rfl
    | cons d y =>
      rw [List.cons_append, stripStart?, stripStart?]
      split
      · exact ih others y
      · rfl

/-- A blank behind a text does not matter. -/
theorem passesAt_blank {c : Char} (blank : isBlank c = true) (y b : List Char) :
    passesAt p (y ++ c :: b) = passesAt p y := by
  refine any_stripStart?_blank (List.all_iff_forall_prop.1 (by decide)) blank (fun r => ?_) y
  cases r with
  | nil => exact Place.admits_blank blank
  | cons d r => exact Place.admits_congr rfl

/-- A text is quiet if nothing in its first part passes for an import and the second one is
quiet. -/
theorem isQuiet_append_iff {a b : List Char} :
    isQuiet p (a ++ b) = true ↔
      (∀ x y, a = x ++ y → y ≠ [] → passesAt (p.behind x) (y ++ b) = false) ∧
        isQuiet (p.behind a) b = true := by
  induction a generalizing p with
  | nil =>
    refine ⟨fun h => ⟨fun x y none more => ?_, h⟩, fun h => h.2⟩
    exact absurd (List.append_eq_nil_iff.1 none.symm).2 more
  | cons c a ih =>
    rw [List.cons_append, isQuiet, Bool.and_eq_true, Bool.not_eq_true', ih, Place.behind_cons]
    constructor
    · rintro ⟨here, later, rest⟩
      refine ⟨fun x y split more => ?_, rest⟩
      cases x with
      | nil =>
        rw [List.nil_append] at split
        rw [← split]
        exact here
      | cons d x =>
        obtain ⟨rfl, rfl⟩ := List.cons.inj split
        exact later x y rfl more
    · rintro ⟨each, rest⟩
      refine ⟨each [] (c :: a) rfl (List.cons_ne_nil c a), fun x y split more => ?_, rest⟩
      exact each (c :: x) y (by rw [split]; rfl) more

theorem isQuiet_of_append {a b : List Char} (h : isQuiet p (a ++ b) = true) :
    isQuiet (p.behind a) b = true :=
  (isQuiet_append_iff.1 h).2

theorem isQuiet_iff {a : List Char} :
    isQuiet p a = true ↔
      ∀ x y, a = x ++ y → y ≠ [] → passesAt (p.behind x) y = false := by
  have whole := isQuiet_append_iff (p := p) (a := a) (b := [])
  simpa [isQuiet] using whole

/-- In front of a blank nothing depends on what follows. -/
theorem isQuiet_append_blank {a b : List Char} {c : Char} (blank : isBlank c = true) :
    isQuiet p (a ++ c :: b) = true ↔
      isQuiet p a = true ∧ isQuiet (p.behind a) (c :: b) = true := by
  rw [isQuiet_append_iff, isQuiet_iff (a := a)]
  simp only [passesAt_blank blank]

/-- Nothing passes for an import where the first letter of the word is missing. -/
theorem isQuiet_plain {a : List Char} (h : 'i' ∉ a) (b : List Char) :
    isQuiet p (a ++ b) = isQuiet (p.behind a) b := by
  induction a generalizing p with
  | nil => rfl
  | cons c a ih =>
    rw [List.mem_cons, not_or] at h
    rw [List.cons_append, isQuiet, passesAt_of_ne (Ne.symm h.1), ih h.2]
    rfl

/-- Nothing passes for an import inside of a line. -/
theorem isQuiet_inside {a : List Char} (line : '\n' ∉ a) (b : List Char) :
    isQuiet .inside (a ++ b) = isQuiet .inside b := by
  rw [Bool.eq_iff_iff, isQuiet_append_iff, Place.behind_inside line, and_iff_right]
  rintro x y rfl -
  rw [Place.behind_inside fun mem => line (List.mem_append_left y mem)]
  exact passesAt_inside _

/-- Nor does a line pass that starts with another letter. -/
theorem isQuiet_cons_append {c : Char} {a : List Char} (blank : isBlank c = false) (other : c ≠ 'i')
    (line : '\n' ∉ a) (b : List Char) : isQuiet p (c :: a ++ b) = isQuiet .inside b := by
  rw [List.cons_append, isQuiet, passesAt_of_ne other, Place.next_of_not_blank blank,
    isQuiet_inside line]
  rfl

/-! ### Scans -/

theorem afterImport?_of_not_passes {cs : List Char} (h : passesAt .lineStart cs = false) :
    afterImport? cs = none := by
  unfold afterImport?
  unfold passesAt at h
  split
  · rfl
  · rename_i rest found
    rw [found, Option.any_some, Place.admits, Bool.or_eq_false_iff] at h
    rw [h.1, if_neg Bool.false_ne_true]

/-- In a quiet text no import statement is found. -/
theorem afterLastImport?_of_isQuiet {cs : List Char} (h : isQuiet p cs = true) :
    afterLastImport? (p == .lineStart) cs = none := by
  induction cs generalizing p with
  | nil => rw [afterLastImport?]
  | cons c cs ih =>
    rw [isQuiet, Bool.and_eq_true, Bool.not_eq_true'] at h
    have next : (p.next c == .lineStart) = (c == '\n') := by
      rw [Bool.eq_iff_iff, beq_iff_eq, beq_iff_eq, Place.next_eq_lineStart_iff]
    have later := ih h.2
    rw [next] at later
    rw [afterLastImport?]
    split
    · rename_i start
      obtain rfl := beq_iff_eq.1 start
      split
      · rename_i found
        rw [afterImport?_of_not_passes h.1] at found
        cases found
      · exact later
    · exact later

theorem importsBrandedHere_of_isQuiet {cs : List Char} (outside : p ≠ .inside)
    (h : isQuiet p cs = true) : importsBrandedHere cs = false := by
  have notBlank : ∀ rest, stripStart? "import".toList (trimStart cs) = some rest →
      rest.head?.any isBlank = false := by
    induction cs generalizing p with
    | nil =>
      intro rest found
      cases found
    | cons c cs ih =>
      rw [isQuiet, Bool.and_eq_true, Bool.not_eq_true'] at h
      intro rest found
      cases blank : isBlank c with
      | true =>
        rw [trimStart, List.dropWhile_cons_of_pos blank] at found
        refine ih (p := p.next c) ?_ h.2 rest found
        unfold Place.next
        split
        · exact Place.noConfusion
        · rw [if_pos ⟨blank, outside⟩]
          exact Place.noConfusion
      | false =>
        rw [trimStart, List.dropWhile_cons_of_neg (by simp [blank])] at found
        have admits := h.1
        rw [passesAt, found, Option.any_some] at admits
        cases first : rest.head? with
        | none => rfl
        | some d =>
          cases p with
          | lineStart => simp_all [Place.admits]
          | indented => simp_all [Place.admits]
          | inside => exact absurd rfl outside
  unfold importsBrandedHere
  cases found : stripStart? "import".toList (trimStart cs) with
  | none => rfl
  | some rest =>
    have stops : afterBlanks? rest = none := by
      rw [afterBlanks?, notBlank rest found, if_neg Bool.false_ne_true]
    simp [stops]

/-- Nor is an import of `Branded`. -/
theorem importsBranded_of_isQuiet {cs : List Char} (h : isQuiet p cs = true) :
    importsBranded (p == .lineStart) cs = false := by
  induction cs generalizing p with
  | nil => rfl
  | cons c cs ih =>
    have whole := h
    rw [isQuiet, Bool.and_eq_true] at h
    have next : (p.next c == .lineStart) = (c == '\n') := by
      rw [Bool.eq_iff_iff, beq_iff_eq, beq_iff_eq, Place.next_eq_lineStart_iff]
    have later := ih h.2
    rw [next] at later
    rw [importsBranded, later, Bool.or_false, Bool.and_eq_false_iff]
    by_cases start : p = .lineStart
    · subst start
      exact .inr (importsBrandedHere_of_isQuiet Place.noConfusion whole)
    · exact .inl (by simpa using start)

/-! ### Gaps and tokens -/

/-- What follows a gap before a token does not matter to the lines in it. -/
theorem isQuiet_gap {gap b : List Char} (closed : ClosedGap gap) :
    isQuiet p (gap ++ b) = true ↔ isQuiet p gap = true ∧ isQuiet (p.behind gap) b = true := by
  rw [isQuiet_append_iff, isQuiet_iff (a := gap)]
  refine and_congr_left fun _ => forall_congr' fun x => forall_congr' fun y =>
    forall_congr' fun split => forall_congr' fun more => ?_
  obtain ⟨c, last⟩ : ∃ c, y.getLast? = some c := by
    cases last : y.getLast? with
    | none => exact absurd (List.getLast?_eq_none_iff.1 last) more
    | some c => exact ⟨c, rfl⟩
  have ends : gap.getLast? = some c := by rw [split, List.getLast?_append, last]; rfl
  have cut := closed 0 ['x'] (by decide)
  have other : c ∉ "import".toList := by
    have letters : ∀ d ∈ "import".toList, isBlank d = false ∧ d ≠ '/' :=
      List.all_iff_forall_prop.1 (by decide)
    intro mem
    rcases getLast?_of_splitGap cut (List.cons_ne_nil _ _) ends with blank | slash
    · rw [(letters c mem).1] at blank
      cases blank
    · exact (letters c mem).2 slash
  rw [passesAt_append last other]

/-- A word is followed by no letter, so it is known from the word where `import` ends. -/
theorem passesAt_word {t : Token} {rest rest' : List Char} (fits : t.Fits rest)
    (same : Alike rest rest') : passesAt p (t.text ++ rest) = passesAt p (t.text ++ rest') := by
  have fits' := fits.alike same
  by_cases word : t.kind = .word
  · obtain ⟨c, r, text, chars, stop⟩ := (Token.fits_word_iff word).1 fits
    have heads : rest.head? = rest'.head? := by
      rcases same with same | ⟨d, e, x, x', rfl, -, isName, -⟩
      · exact same
      · rw [List.head?_cons, Option.any_some, isName] at stop
        cases stop
    -- the word `import` would not end behind the token
    have inside {rest z : List Char} (stop : rest.head?.any isNameChar = false)
        (split : t.text ++ rest = "import".toList ++ z) :
        ∃ x, t.text = "import".toList ++ x ∧ z = x ++ rest := by
      have letters : ∀ d ∈ "import".toList, isNameChar d = true :=
        List.all_iff_forall_prop.1 (by decide)
      rcases List.append_eq_append_iff.1 split with ⟨x, isWord, more⟩ | ⟨x, isText, more⟩
      · cases x with
        | nil => exact ⟨[], by rw [isWord, List.append_nil, List.append_nil], by rw [more]; rfl⟩
        | cons d x =>
          rw [more, List.cons_append, List.head?_cons, Option.any_some,
            letters d (by rw [isWord]; simp)] at stop
          cases stop
      · exact ⟨x, isText, more⟩
    have stop' : rest'.head?.any isNameChar = false := heads ▸ stop
    unfold passesAt
    cases one : stripStart? "import".toList (t.text ++ rest) with
    | some z =>
      obtain ⟨x, isText, rfl⟩ := inside stop (stripStart?_eq_some_iff.1 one)
      have other : t.text ++ rest' = "import".toList ++ (x ++ rest') := by
        rw [isText, List.append_assoc]
      rw [stripStart?_eq_some_iff.2 other, Option.any_some, Option.any_some]
      refine Place.admits_congr ?_
      cases x with
      | nil => exact heads
      | cons d x => rfl
    | none =>
      cases two : stripStart? "import".toList (t.text ++ rest') with
      | none => rfl
      | some z =>
        obtain ⟨x, isText, rfl⟩ := inside stop' (stripStart?_eq_some_iff.1 two)
        have other : t.text ++ rest = "import".toList ++ (x ++ rest) := by
          rw [isText, List.append_assoc]
        rw [stripStart?_eq_some_iff.2 other] at one
        cases one
  · obtain ⟨c, r, text, -, split⟩ := fits
    have other : c ≠ 'i' := by
      rintro rfl
      have found := split 0
      rw [text, Token.splitToken_append_iff] at found
      rcases found with ⟨quote, -⟩ | ⟨-, digit, -⟩ | ⟨-, -, -, isWord, -⟩ | ⟨-, -, notStart, -⟩
      · exact absurd quote (by decide)
      · exact absurd digit (by decide)
      · exact word isWord
      · exact absurd notStart (by decide)
    rw [text, List.cons_append, List.cons_append, passesAt_of_ne other, passesAt_of_ne other]

/-- What passes for an import in a token or behind it depends on the token. -/
theorem passesAt_token {t : Token} {rest rest' x y : List Char} (fits : t.Fits rest)
    (same : Alike rest rest') (split : t.text = x ++ y) (more : y ≠ []) :
    passesAt (p.behind x) (y ++ rest) = passesAt (p.behind x) (y ++ rest') := by
  cases x with
  | nil =>
    rw [List.nil_append] at split
    rw [← split]
    exact passesAt_word fits same
  | cons c x =>
    by_cases line : '\n' ∈ t.text
    · obtain ⟨quote, r, text, isQ, -, literal⟩ := literal_of_break fits line
      have last := getLast?_of_append (a := c :: x) (b := y) (c := quote) (by
        rw [← split, text, List.getLast?_cons, getLast?_of_splitLiteral literal]
        rfl) more
      have other : quote ∉ "import".toList := by
        simp only [isQuote, Bool.or_eq_true, beq_iff_eq] at isQ
        rcases isQ with (rfl | rfl) | rfl <;> decide
      rw [passesAt_append last other, passesAt_append last other]
    · have notBlank : isBlank c = false := by
        have starts := fits.startsToken
        rw [split, List.cons_append, List.cons_append, startsToken, Bool.and_eq_true,
          Bool.not_eq_true'] at starts
        exact starts.1
      have unbroken : '\n' ∉ x := fun mem => line (by rw [split]; simp [mem])
      rw [Place.behind_of_not_blank notBlank unbroken, passesAt_inside, passesAt_inside]

/-! ### New declarations -/

/-- `rest'` is quiet wherever `rest` is. -/
def QuietsDown (rest rest' : List Char) : Prop :=
  ∀ p, isQuiet p rest = true → isQuiet p rest' = true

theorem QuietsDown.gap {gap rest rest' : List Char} (h : QuietsDown rest rest')
    (closed : ClosedGap gap) : QuietsDown (gap ++ rest) (gap ++ rest') := by
  intro p quiet
  rw [isQuiet_gap closed] at quiet ⊢
  exact ⟨quiet.1, h _ quiet.2⟩

theorem QuietsDown.token {t : Token} {rest rest' : List Char} (h : QuietsDown rest rest')
    (fits : t.Fits rest) (same : Alike rest rest') :
    QuietsDown (t.text ++ rest) (t.text ++ rest') := by
  intro p quiet
  rw [isQuiet_append_iff] at quiet ⊢
  refine ⟨fun x y split more => ?_, h _ quiet.2⟩
  rw [← passesAt_token fits same split more]
  exact quiet.1 x y split more

theorem QuietsDown.tokens {ts : List Token} {rest rest' : List Char} (h : QuietsDown rest rest')
    (stable : StableBefore ts rest) (same : Alike rest rest') :
    QuietsDown (textOf ts rest) (textOf ts rest') := by
  induction ts with
  | nil => exact h
  | cons t ts ih =>
    obtain ⟨closed, fits, more⟩ := stable
    rw [textOf_cons, textOf_cons]
    exact ((ih more).token fits (more.alike same).2).gap closed

theorem noBreak_stringLiteral (value : List Char) : '\n' ∉ stringLiteral value := by
  have inside : '\n' ∉ value.flatMap escapeLiteralChar := by
    rw [List.mem_flatMap]
    rintro ⟨c, -, mem⟩
    unfold escapeLiteralChar at mem
    split at mem
    case h_6 notBreak _ _ => exact notBreak (List.mem_singleton.1 mem).symm
    all_goals exact absurd mem (by decide)
  simp [stringLiteral, inside]

theorem noBreak_textOf {ts : List Token}
    (h : ∀ t ∈ ts, '\n' ∉ t.gap ∧ '\n' ∉ t.text) : '\n' ∉ textOf ts [] := by
  induction ts with
  | nil => exact List.not_mem_nil
  | cons t ts ih =>
    obtain ⟨⟨gap, text⟩, others⟩ := List.forall_mem_cons.1 h
    rw [textOf_cons, List.mem_append, List.mem_append, not_or, not_or]
    exact ⟨gap, text, ih others⟩

theorem noBreak_typeTokens (exported : Bool) {name : String} (isName : Token.IsName name)
    (type : NewType) :
    ∀ t ∈ typeTokens [] exported name type, '\n' ∉ t.gap ∧ '\n' ∉ t.text := by
  have each : EachToken (fun t => '\n' ∉ t.gap ∧ '\n' ∉ t.text) [] name :=
    { keyword := by decide
      word := by decide
      name := ⟨by simp [Token.word], noBreak_isName isName⟩
      mark := by simp [Token.mark]
      literal := fun value => ⟨by simp [Token.literal], noBreak_stringLiteral _⟩ }
  exact each.of_mem_typeTokens exported type

/-- A type declaration is one line that passes for no import. -/
theorem isQuiet_typeText (exported : Bool) {name : String} (isName : Token.IsName name)
    (type : NewType) (rest : List Char) :
    isQuiet p (typeText exported name type ++ rest) = isQuiet .inside rest := by
  have line := noBreak_textOf (noBreak_typeTokens exported isName type)
  rw [textOf_typeTokens, List.nil_append, List.append_nil] at line
  obtain ⟨c, cs, text, blank, other⟩ : ∃ c cs, typeText exported name type = c :: cs ∧
      isBlank c = false ∧ c ≠ 'i' := by
    cases exported with
    | true => exact ⟨'e', _, rfl, by decide, by decide⟩
    | false => exact ⟨'t', _, rfl, by decide, by decide⟩
  rw [text, List.mem_cons, not_or] at line
  rw [text]
  exact isQuiet_cons_append blank other line.2 rest

variable {choose : Choice}

theorem Choice.Sound.quietsDown (sound : choose.Sound) {e : EnumTokens} {rest rest' : List Char}
    (h : QuietsDown rest rest') (stable : StableBefore e.tokens rest) (same : Alike rest rest') :
    QuietsDown (textOf e.tokens rest) (textOf (choose.tokens e) rest') := by
  unfold Choice.tokens
  cases chosen : choose e.decl with
  | none => exact h.tokens stable same
  | some c =>
    obtain ⟨name, type⟩ := c
    have closed : ClosedGap e.first.gap := by
      have first := stable
      rw [e.tokens_eq] at first
      exact first.1
    dsimp only
    rw [e.textOf_tokens, textOf_typeTokens]
    have own : QuietsDown (e.decl.text ++ rest)
        (typeText e.decl.exported name type ++ rest') := by
      intro p quiet
      have behind := isQuiet_of_append quiet
      obtain ⟨init, text⟩ := List.getLast?_eq_some_iff.1 e.getLast?_text
      rw [text, Place.behind_concat (by decide)] at behind
      rw [isQuiet_typeText _ (sound.isName stable chosen)]
      exact h _ behind
    exact own.gap closed

theorem Choice.Sound.quietsDown_retyped (sound : choose.Sound) {pieces : Pieces}
    {rest rest' : List Char} (h : QuietsDown rest rest')
    (stable : StableBefore pieces.tokens rest) (same : Alike rest rest') :
    QuietsDown (textOf pieces.tokens rest) (textOf (pieces.retyped choose) rest') := by
  induction pieces with
  | nil => exact h
  | cons p pieces ih =>
    obtain ⟨lead, e⟩ := p
    rw [Pieces.tokens_cons, stableBefore_append, stableBefore_append] at stable
    obtain ⟨before, own, later⟩ := stable
    have behind := ih later
    obtain ⟨-, alike⟩ := sound.stableBefore_retyped later same
    obtain ⟨-, alike'⟩ := sound.stableBefore_tokens own alike
    rw [textOf_append] at before
    simp only [Pieces.tokens_cons, Pieces.retyped_cons, textOf_append]
    exact (sound.quietsDown behind own alike).tokens before alike'

/-! ### New names -/

variable {renames : List Rename}

/-- Names that start with the letter of `import` stay, so none becomes an import. -/
theorem quietsDown_renameTokens (shortens : ∀ r ∈ renames, r.Shortens)
    (others : ∀ r ∈ renames, r.old.toList.head? ≠ some 'i') {ts : List Token} {rest : List Char}
    (stable : StableBefore ts rest) (afterPoint : Bool) :
    QuietsDown (textOf ts rest) (textOf (renameTokens renames afterPoint ts) rest) := by
  induction ts generalizing afterPoint with
  | nil => exact fun _ quiet => quiet
  | cons t ts ih =>
    obtain ⟨closed, fits, more⟩ := stable
    have heads := (head?_textOf_renameTokens shortens more (t.isMark '.')).symm
    have later := ih more (t.isMark '.')
    rw [renameTokens_cons, textOf_cons, textOf_cons, Token.gap_renameName]
    refine QuietsDown.gap ?_ closed
    by_cases stays : t.renameName renames afterPoint = t
    · rw [stays]
      exact later.token fits (.inl heads)
    · have word : t.kind = .word := by
        by_contra notWord
        exact stays (if_neg fun both => notWord both.1)
      obtain ⟨c, r, text, chars, -⟩ := (Token.fits_word_iff word).1 fits
      obtain ⟨r', text', shorter⟩ := Token.renameName_cons shortens afterPoint text
      have other : c ≠ 'i' := by
        rintro rfl
        refine stays ?_
        unfold Token.renameName
        split
        · have same : renamed renames t.name = t.name := by
            rcases renamed_eq_or renames t.name with same | ⟨d, hd, old, -⟩
            · exact same
            · refine absurd ?_ (others d hd)
              rw [old, Token.name, String.toList_ofList, text]
              rfl
          rw [same, Token.name, String.toList_ofList]
        · rfl
      have line : '\n' ∉ r := fun mem => absurd (chars.chars _ mem) (by decide)
      intro p quiet
      rw [text, isQuiet_cons_append chars.notBlank other line] at quiet
      rw [text', isQuiet_cons_append chars.notBlank other fun mem => line (shorter.subset mem)]
      exact later _ quiet

end OpenApiModels.Retyping
