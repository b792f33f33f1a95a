import OpenApiModels.Proofs.Retyping.TypeTokens
import OpenApiModels.Proofs.Text.CaseForms
import OpenApiModels.Proofs.TypeScript.TypeReading
import OpenApiModels.Proofs.TypeScript.WholeTexts

/-!
# Names as identifiers

A generated name is one identifier where it consists of name characters and starts with a letter
(`isIdentifier_iff_chars`). `isIdentifier_typeName` and `isIdentifier_memberName` tell for which
names of a spec it does.
-/

namespace OpenApiModels.Text

variable {c : Char}

/-! ### Words -/

theorem flatten_splitRun {last : LastCase} {word run : List Char} (more : run ≠ []) :
    (splitRun last word run).flatten = word.reverse ++ run := by
  fun_induction splitRun last word run with
  | case1 => exact absurd rfl more
  | case2 last word c => simp
  | case3 last word c next rest _ ih => simp [ih]
  | case4 last word c next rest _ _ ih => simp [ih]
  | case5 last word c next rest _ _ ih => simp [ih]

theorem eq_of_isChain {p : Char → Bool} {c d : Char} {rest : List Char}
    (chain : (c :: rest).IsChain fun a b => p a == p b) (h : d ∈ c :: rest) : p d = p c := by
  induction rest generalizing c with
  | nil => rw [List.mem_singleton.1 h]
  | cons next rest ih =>
    obtain ⟨same, chain⟩ := List.isChain_cons_cons.1 chain
    rw [beq_iff_eq] at same
    rcases List.mem_cons.1 h with rfl | h
    · rfl
    · rw [ih chain h, same]

theorem flatten_filter_runs {p : Char → Bool} {runs : List (List Char)} (solid : [] ∉ runs)
    (chains : ∀ run ∈ runs, run.IsChain fun a b => p a == p b) :
    (runs.filter fun run => run.head?.any p).flatten = runs.flatten.filter p := by
  induction runs with
  | nil => rfl
  | cons run runs ih =>
    rw [List.mem_cons, not_or] at solid
    obtain ⟨chain, chains⟩ := List.forall_mem_cons.1 chains
    rw [List.flatten_cons, List.filter_append, ← ih solid.2 chains]
    cases run with
    | nil => exact absurd rfl solid.1
    | cons c rest =>
      cases first : p c with
      | true =>
        rw [List.filter_cons_of_pos (by simpa using first), List.flatten_cons,
          List.filter_eq_self.2 fun d hd => (eq_of_isChain chain hd).trans first]
      | false =>
        have none : (c :: rest).filter p = [] :=
          List.filter_eq_nil_iff.2 fun d hd => by simp [eq_of_isChain chain hd, first]
        rw [List.filter_cons_of_neg (by simpa using first), none, List.nil_append]

/-- The words consist of the letters and digits of the name. -/
theorem flatten_words (cs : List Char) : (words cs).flatten = cs.filter isAlphanumeric := by
  have runs : (alphanumericRuns cs).flatten = cs.filter isAlphanumeric := by
    rw [alphanumericRuns, flatten_filter_runs (List.nil_notMem_splitBy _ _)
      fun run hrun => List.isChain_of_mem_splitBy hrun, List.flatten_splitBy]
  have solid : ∀ run ∈ alphanumericRuns cs, (splitRun .none [] run).flatten = run := by
    intro run hrun
    exact flatten_splitRun (List.ne_nil_of_mem_splitBy (List.mem_of_mem_filter hrun))
  -- no run is empty, so each of them is split without loss
  rw [← runs, words, List.flatMap_def]
  generalize alphanumericRuns cs = runs at solid
  induction runs with
  | nil => rfl
  | cons run runs ih =>
    obtain ⟨first, others⟩ := List.forall_mem_cons.1 solid
    rw [List.map_cons, List.flatten_cons, List.flatten_append, first, ih others, List.flatten_cons]

theorem ne_nil_of_mem_splitRun {last : LastCase} {word run piece : List Char}
    (started : last = .capital → word ≠ []) (h : piece ∈ splitRun last word run) : piece ≠ [] := by
  fun_induction splitRun last word run with
  | case1 => cases h
  | case2 last word c =>
    rw [List.mem_singleton.1 h]
    simp
  | case3 last word c next rest _ ih =>
    rcases List.mem_cons.1 h with rfl | h
    · simp
    · exact ih (by simp) h
  | case4 last word c next rest _ before ih =>
    rcases List.mem_cons.1 h with rfl | h
    · have isCapital : last = .capital := by simp_all
      simpa using started isCapital
    · exact ih (by simp) h
  | case5 last word c next rest _ _ ih => exact ih (by simp) h

theorem ne_nil_of_mem_words {cs word : List Char} (h : word ∈ words cs) : word ≠ [] := by
  obtain ⟨run, -, split⟩ := List.mem_flatMap.1 h
  exact ne_nil_of_mem_splitRun (by simp) split

/-- The first letter or digit starts the first word. -/
theorem words_cases (cs : List Char) :
    (cs.find? isAlphanumeric = none ∧ words cs = []) ∨
      ∃ c rest more, cs.find? isAlphanumeric = some c ∧ words cs = (c :: rest) :: more := by
  have letters := congrArg List.head? (flatten_words cs)
  rw [List.head?_filter] at letters
  cases split : words cs with
  | nil =>
    rw [split] at letters
    exact .inl ⟨letters.symm, rfl⟩
  | cons word more =>
    have solid : word ≠ [] := ne_nil_of_mem_words (by rw [split]; exact List.mem_cons_self)
    cases word with
    | nil => exact absurd rfl solid
    | cons c rest =>
      rw [split] at letters
      exact .inr ⟨c, rest, more, letters.symm, rfl⟩

end OpenApiModels.Text

namespace OpenApiModels.TypeScript

open Text

variable {c d : Char} {cs : List Char} {name : String}

/-! ### Words of a source -/

theorem alphabeticRanges_solid : ∀ r ∈ alphabeticRanges,
    ∀ s ∈ [(0x9, 0xD), (0x20, 0x20), (0x85, 0x85), (0xA0, 0xA0), (0x1680, 0x1680),
      (0x2000, 0x200A), (0x2028, 0x2029), (0x202F, 0x202F), (0x205F, 0x205F), (0x3000, 0x3000)],
      r.2 < s.1 ∨ s.2 < r.1 := by
  decide +kernel

theorem isNameStart_ascii : ∀ n < 0x80, isNameStart (Char.ofNat n) = true →
    isBlank (Char.ofNat n) = false ∧ isQuote (Char.ofNat n) = false ∧
      (Char.ofNat n).isDigit = false := by
  decide

theorem ne_of_beyond (beyond : ¬ c.toNat < 0x80) (ascii : d.toNat < 0x80) : c ≠ d := by
  rintro rfl
  exact beyond ascii

/-- What starts a name starts nothing else. -/
theorem isWordText_iff {r : List Char} :
    Token.IsWordText c r ↔ isNameStart c = true ∧ ∀ d ∈ r, isNameChar d = true := by
  refine ⟨fun h => ⟨h.start, h.chars⟩, fun ⟨start, chars⟩ => ?_⟩
  by_cases ascii : c.toNat < 0x80
  · have others := isNameStart_ascii c.toNat ascii
    rw [Char.ofNat_toNat] at others
    obtain ⟨blank, quote, digit⟩ := others start
    exact ⟨blank, quote, digit, start, chars⟩
  · have letter : isAlphabetic c = true := by
      simpa [isNameStart, ne_of_beyond ascii (d := '_') (by decide),
        ne_of_beyond ascii (d := '$') (by decide)] using start
    refine ⟨?_, ?_, ?_, start, chars⟩
    · by_contra blank
      rw [Bool.not_eq_false] at blank
      rw [isAlphabetic, if_neg ascii] at letter
      obtain ⟨r, hr, lower, upper⟩ := inRanges_iff.1 letter
      obtain ⟨s, hs, lower', upper'⟩ := inRanges_iff.1 blank
      have apart := alphabeticRanges_solid r hr s hs
      omega
    · simp [isQuote, ne_of_beyond ascii (d := '"') (by decide),
        ne_of_beyond ascii (d := '\'') (by decide), ne_of_beyond ascii (d := '\x60') (by decide)]
    · by_contra digit
      rw [Bool.not_eq_false] at digit
      simp only [Char.isDigit, Bool.and_eq_true, decide_eq_true_eq] at digit
      exact ascii (Nat.lt_of_le_of_lt digit.2 (by decide))

/-- The whole text is read as one word. -/
def IsIdentifier (name : String) : Prop :=
  Source.ofText? name.toList = .ok ⟨[⟨[], .word, name.toList, 0⟩], []⟩

theorem isIdentifier_iff_isName : IsIdentifier name ↔ Token.IsName name := by
  constructor
  · intro read
    obtain ⟨⟨⟨-, fits, -⟩, -⟩, -⟩ := stable_of_readSource read
    obtain ⟨c, r, text, chars, -⟩ := (Token.fits_word_iff rfl).1 fits
    exact ⟨c, r, text, chars⟩
  · intro isName
    have fits : (Token.word [] name).Fits [] := Token.fits_word isName rfl
    have stable : Stable [Token.word [] name] [] :=
      ⟨⟨closedGap_nil, fits, trivial⟩, fun _ => by rw [splitGap]⟩
    have read := readSource_of_stable stable 0
    rwa [textOf_cons, textOf_nil, List.append_nil] at read

/-- An identifier starts with a letter, an underscore or a dollar sign and consists of name
characters. -/
theorem isIdentifier_iff_chars : IsIdentifier name ↔
    name.toList.head?.any isNameStart = true ∧ ∀ d ∈ name.toList, isNameChar d = true := by
  rw [isIdentifier_iff_isName, Token.IsName]
  cases text : name.toList with
  | nil => simp
  | cons c r =>
    have start : isNameStart c = true → isNameChar c = true := by
      rw [isNameStart, isNameChar, isAlphanumeric]
      simp only [Bool.or_eq_true]
      tauto
    constructor
    · rintro ⟨_, _, ⟨⟩, chars⟩
      obtain ⟨first, rest⟩ := isWordText_iff.1 chars
      exact ⟨first, List.forall_mem_cons.2 ⟨start first, rest⟩⟩
    · rintro ⟨first, chars⟩
      exact ⟨c, r, rfl, isWordText_iff.2 ⟨first, (List.forall_mem_cons.1 chars).2⟩⟩

/-! ### Words of names -/

def AllNameChars (cs : List Char) : Prop :=
  ∀ d ∈ cs, isNameChar d = true

theorem allNameChars_append {a b : List Char} :
    AllNameChars (a ++ b) ↔ AllNameChars a ∧ AllNameChars b :=
  List.forall_mem_append

theorem isNameChar_of_isAlphanumeric (h : isAlphanumeric c = true) : isNameChar c = true := by
  rw [isNameChar, h]
  rfl

theorem not_allNameChars_of_isMark (h : ∃ d ∈ cs, IsMark d) : ¬ AllNameChars cs := by
  obtain ⟨d, hd, beyond, other⟩ := h
  intro all
  have isName := all d hd
  simp only [isNameChar, other, Bool.false_or, Bool.or_eq_true, beq_iff_eq] at isName
  rcases isName with rfl | rfl <;> exact absurd beyond (by decide)

theorem allNameChars_capital_iff (h : isAlphanumeric c = true) :
    AllNameChars (capital c) ↔ hasMarkedCapital c = false := by
  constructor
  · intro all
    by_contra marked
    rw [Bool.not_eq_false] at marked
    exact not_allNameChars_of_isMark (exists_isMark_capital marked) all
  · intro unmarked d hd
    exact isNameChar_of_isAlphanumeric (isAlphanumeric_of_mem_capital h unmarked hd)

theorem allNameChars_smallWord_iff {word : List Char} (h : ∀ c ∈ word, isAlphanumeric c = true) :
    AllNameChars (smallWord word) ↔ 'İ' ∉ word := by
  constructor
  · intro all mem
    exact not_allNameChars_of_isMark (exists_isMark_smallWord mem) all
  · intro others d hd
    exact isNameChar_of_isAlphanumeric (isAlphanumeric_of_mem_smallWord h others hd)

/-- The letters keep their form in title case, without marks. -/
structure IsPlainWord (word : List Char) : Prop where
  first : word.head?.any hasMarkedCapital = false
  rest : 'İ' ∉ word.tail

theorem allNameChars_titleWord_iff {word : List Char} (h : ∀ c ∈ word, isAlphanumeric c = true) :
    AllNameChars (titleWord word) ↔ IsPlainWord word := by
  cases word with
  | nil => exact iff_of_true (List.forall_mem_nil _) ⟨rfl, List.not_mem_nil⟩
  | cons c rest =>
    obtain ⟨letter, letters⟩ := List.forall_mem_cons.1 h
    rw [titleWord, allNameChars_append, allNameChars_capital_iff letter,
      allNameChars_smallWord_iff letters]
    exact ⟨fun plain => ⟨plain.1, plain.2⟩, fun plain => ⟨plain.first, plain.rest⟩⟩

theorem allNameChars_guardDigit_iff : AllNameChars (guardDigit cs) ↔ AllNameChars cs := by
  unfold guardDigit
  split
  · exact (List.forall_mem_cons).trans (and_iff_right (by decide))
  · rfl

theorem head?_guardDigit (cs : List Char) : (guardDigit cs).head?.any isNameStart =
    cs.head?.any fun c => isNameStart c || c.isDigit := by
  unfold guardDigit
  cases cs with
  | nil => rfl
  | cons c rest =>
    cases digit : c.isDigit with
    | true => simp [digit, isNameStart]
    | false => simp [digit]

/-- The first letter or digit, if there is one, is a letter or a digit of ASCII. -/
def StartsWell (cs : List Char) : Prop :=
  ∀ c ∈ cs.find? isAlphanumeric, (isAlphabetic c || c.isDigit) = true

/-- Whether a capital form can start a name, behind an underscore if need be. -/
theorem start_capital (h : isAlphanumeric c = true) (rest : List Char) :
    ((capital c ++ rest).head?.any fun d => isNameStart d || d.isDigit) =
      (isAlphabetic c || c.isDigit) := by
  rcases head?_capital c with ⟨other, form⟩ | ⟨letter, d, r, form, upper⟩
  · have notUnderscore : c ≠ '_' := by
      rintro rfl
      exact absurd h (by decide)
    have notDollar : c ≠ '$' := by
      rintro rfl
      exact absurd h (by decide)
    rw [form]
    simp [isNameStart, other, notUnderscore, notDollar]
  · rw [form, letter]
    simp [isNameStart, upper]

/-! ### Type names -/

theorem allNameChars_typeName_iff : AllNameChars (typeName name).toList ↔
    ∀ word ∈ words name.toList, IsPlainWord word := by
  rw [typeName, String.toList_ofList, allNameChars_guardDigit_iff, pascalCase]
  simp only [AllNameChars, List.mem_flatMap, forall_exists_index, and_imp]
  constructor
  · intro all word hword
    exact (allNameChars_titleWord_iff fun c hc => isAlphanumeric_of_mem_words hword hc).1
      fun d hd => all d word hword hd
  · intro plain d word hword hd
    exact (allNameChars_titleWord_iff fun c hc => isAlphanumeric_of_mem_words hword hc).2
      (plain word hword) d hd

/-- A type name starts like the letters and digits of its name. -/
theorem head?_typeName (name : String) :
    (name.toList.find? isAlphanumeric = none ∧ typeName name = "") ∨
      ∃ c d, name.toList.find? isAlphanumeric = some c ∧ (typeName name).toList.head? = some d ∧
        isNameStart d = (isAlphabetic c || c.isDigit) := by
  rcases words_cases name.toList with ⟨none, noWords⟩ | ⟨c, rest, more, first, split⟩
  · refine .inl ⟨none, ?_⟩
    rw [typeName, pascalCase, noWords]
    rfl
  · have letter : isAlphanumeric c = true := by simpa using List.find?_some first
    have text : (typeName name).toList =
        guardDigit (capital c ++ (smallWord rest ++ more.flatMap titleWord)) := by
      rw [typeName, String.toList_ofList, pascalCase, split, List.flatMap_cons, titleWord,
        List.append_assoc]
    have start := head?_guardDigit (capital c ++ (smallWord rest ++ more.flatMap titleWord))
    rw [start_capital letter, ← text] at start
    cases front : (typeName name).toList.head? with
    | some d =>
      rw [front, Option.any_some] at start
      exact .inr ⟨c, d, first, rfl, start⟩
    | none =>
      have solid := capital_ne_nil c
      rw [text, guardDigit] at front
      split at front <;> simp_all

/-- A name without letters and digits has no type name. -/
theorem typeName_eq_empty_iff (name : String) :
    typeName name = "" ↔ name.toList.any isAlphanumeric = false := by
  have none : name.toList.any isAlphanumeric = false ↔ name.toList.find? isAlphanumeric = none := by
    rw [List.any_eq_false, List.find?_eq_none]
  rw [none]
  rcases head?_typeName name with ⟨absent, empty⟩ | ⟨c, d, first, front, -⟩
  · exact iff_of_true empty absent
  · refine iff_of_false (fun empty => ?_) (by simp [first])
    rw [empty] at front
    cases front

/-- A type name is an identifier where its name has a letter or digit and starts well, and no letter
gets a mark. -/
theorem isIdentifier_typeName_iff (name : String) : IsIdentifier (typeName name) ↔
    name.toList.any isAlphanumeric = true ∧ StartsWell name.toList ∧
      ∀ word ∈ words name.toList, IsPlainWord word := by
  have some : name.toList.any isAlphanumeric = (name.toList.find? isAlphanumeric).isSome := by
    rw [Bool.eq_iff_iff, List.any_eq_true, List.find?_isSome]
  rw [isIdentifier_iff_chars, ← AllNameChars, allNameChars_typeName_iff, some, StartsWell,
    ← and_assoc]
  refine and_congr ?_ Iff.rfl
  rcases head?_typeName name with ⟨none, empty⟩ | ⟨c, d, first, front, start⟩
  · rw [none, empty]
    decide
  · rw [first, front]
    simp [start]

/-! ### Member names -/

theorem allNameChars_intercalate_iff {parts : List (List Char)} :
    AllNameChars (List.intercalate ['_'] parts) ↔ ∀ part ∈ parts, AllNameChars part := by
  constructor
  · intro all part hpart d hd
    exact all d ((isInside_intercalate hpart).subset hd)
  · intro each
    exact intercalate_of_append (List.forall_mem_nil _) (fun a b => allNameChars_append.2 ⟨a, b⟩)
      (List.forall_mem_singleton.2 (by decide)) each

theorem allNameChars_capitalSnakeCase_iff : AllNameChars (capitalSnakeCase cs) ↔
    ∀ c ∈ cs, hasMarkedCapital c = false := by
  have letters : (∀ word ∈ words cs, AllNameChars (capitalWord word)) ↔
      ∀ c ∈ (words cs).flatten, AllNameChars (capital c) := by
    simp only [AllNameChars, capitalWord, List.mem_flatMap, List.mem_flatten]
    grind
  rw [capitalSnakeCase, allNameChars_intercalate_iff, List.forall_mem_map, letters, flatten_words]
  constructor
  · intro all c hc
    by_contra marked
    rw [Bool.not_eq_false] at marked
    have letter := isAlphanumeric_of_isAlphabetic (isAlphabetic_of_hasMarkedCapital marked)
    exact not_allNameChars_of_isMark (exists_isMark_capital marked)
      (all c (List.mem_filter.2 ⟨hc, letter⟩))
  · intro unmarked c hc
    obtain ⟨mem, letter⟩ := List.mem_filter.1 hc
    exact (allNameChars_capital_iff letter).2 (unmarked c mem)

theorem memberName_ne (value : String) : memberName value ≠ "" := by
  rw [memberName]
  split
  · decide
  · rename_i solid
    intro same
    have text := congrArg String.toList same
    rw [String.toList_ofList, guardDigit] at text
    split at text <;> simp_all

/-- A member name is an identifier where the value starts well and no letter of it gets a mark. -/
theorem isIdentifier_memberName_iff (value : String) : IsIdentifier (memberName value) ↔
    StartsWell value.toList ∧ ∀ c ∈ value.toList, hasMarkedCapital c = false := by
  rw [← allNameChars_capitalSnakeCase_iff, memberName, StartsWell]
  rcases words_cases value.toList with ⟨none, noWords⟩ | ⟨c, rest, more, first, split⟩
  · have noText : capitalSnakeCase value.toList = [] := by
      rw [capitalSnakeCase, noWords]
      rfl
    rw [noText, none]
    refine iff_of_true (isIdentifier_iff_chars.2
      ⟨by decide, List.all_eq_true.1 (by decide)⟩)
      ⟨fun c front => (by cases front), List.forall_mem_nil _⟩
  · have letter : isAlphanumeric c = true := by simpa using List.find?_some first
    obtain ⟨tail, text⟩ : ∃ tail, capitalSnakeCase value.toList = capital c ++ tail := by
      rw [capitalSnakeCase, split, List.map_cons, capitalWord, List.flatMap_cons]
      cases more with
      | nil => exact ⟨_, List.intercalate_singleton⟩
      | cons word more =>
        rw [List.map_cons, List.intercalate_cons_cons, List.append_assoc, List.append_assoc]
        exact ⟨_, rfl⟩
    have solid : (capital c ++ tail).isEmpty = false := by
      cases form : capital c with
      | nil => exact absurd form (capital_ne_nil c)
      | cons => rfl
    rw [text, solid]
    rw [if_neg (by decide), isIdentifier_iff_chars, String.toList_ofList, head?_guardDigit,
      start_capital letter, first]
    exact and_congr (by simp) allNameChars_guardDigit_iff

end OpenApiModels.TypeScript
