import Mathlib.Logic.Function.Iterate
import OpenApiModels.Proofs.Retyping.QuietLines
import OpenApiModels.Proofs.TypeScript.WordSequence

/-!
# Import statements on top of a file

Below the header of a file stand its import statements, a line for each. Where no further line
passes for an import, the import of `Branded` becomes the last one of them
(`addBrandedImport_fileText`).
-/

namespace OpenApiModels.Retyping

open Text TypeScript

/-- A name and the module that it is imported from. -/
abbrev Import := String × String

/-- The tokens of an import, with a gap before them. -/
def Import.tokens (gap : List Char) (i : Import) : List Token :=
  [.word gap "import", .word [' '] "type", .mark [' '] '\x7b', .word [' '] i.1, .mark [' '] '\x7d',
    .word [' '] "from", .literal [' '] i.2, .mark [] ';']

def Import.text (i : Import) : List Char :=
  "import type \x7b ".toList ++ (i.1.toList ++
    (" \x7d from ".toList ++ (stringLiteral i.2.toList ++ [';'])))

def Import.line (i : Import) : List Char :=
  i.text ++ ['\n']

/-- The text of a file with imports between its header and what stands below. -/
def fileText (header : List Char) (imports : List Import) (below : List Char) : List Char :=
  header ++ (imports.flatMap Import.line ++ below)

/-- The name does not become `Branded`, however often its suffix is dropped. -/
def StaysUnbranded (name : String) : Prop :=
  ∀ n, containsWord "Branded".toList false (baseName^[n] name).toList = false

/-- An import of another model. -/
structure Import.OfModel (i : Import) : Prop where
  name : Token.IsName i.1
  capital : i.1.toList.head?.any Char.isLower = false
  unbranded : StaysUnbranded i.1
  module : ∀ c ∈ i.2.toList, isNameChar c = true ∨ c = '.' ∨ c = '/'

/-! ### Lines -/

theorem afterLastImport?_inside {line : List Char} (h : '\n' ∉ line) (rest : List Char) :
    afterLastImport? false (line ++ '\n' :: rest) = afterLastImport? true rest := by
  induction line with
  | nil =>
    rw [List.nil_append, afterLastImport?, if_neg Bool.false_ne_true]
    rfl
  | cons c line ih =>
    rw [List.mem_cons, not_or] at h
    have inLine : (c == '\n') = false := by simpa using Ne.symm h.1
    rw [List.cons_append, afterLastImport?, if_neg Bool.false_ne_true, inLine, ih h.2]

theorem importsBranded_inside {line : List Char} (h : '\n' ∉ line) (rest : List Char) :
    importsBranded false (line ++ '\n' :: rest) = importsBranded true rest := by
  induction line with
  | nil => rfl
  | cons c line ih =>
    rw [List.mem_cons, not_or] at h
    have inLine : (c == '\n') = false := by simpa using Ne.symm h.1
    rw [List.cons_append, importsBranded, Bool.false_and, Bool.false_or, inLine, ih h.2]

theorem importsBranded_line {c : Char} {line : List Char} (h : '\n' ∉ c :: line)
    (rest : List Char) :
    importsBranded true (c :: line ++ '\n' :: rest) =
      (importsBrandedHere (c :: line ++ '\n' :: rest) || importsBranded true rest) := by
  rw [List.mem_cons, not_or] at h
  have inLine : (c == '\n') = false := by simpa using Ne.symm h.1
  rw [List.cons_append, importsBranded, inLine, importsBranded_inside h.2, Bool.true_and]

/-! ### Words in names -/

theorem containsWord_blank {word : List Char} (letters : ∀ c ∈ word, isBlank c = false)
    (nonempty : word ≠ []) {inWord : Bool} (cs : List Char) :
    containsWord word inWord (cs ++ [' ']) = containsWord word inWord cs := by
  have same (cs : List Char) : (stripStart? word (cs ++ [' '])).any endsWord =
      (stripStart? word cs).any endsWord :=
    any_stripStart?_blank letters (by decide) (fun r => by cases r <;> rfl) cs
  induction cs generalizing inWord with
  | nil =>
    obtain ⟨c, word, rfl⟩ := List.exists_cons_of_ne_nil nonempty
    have none : (stripStart? (c :: word) [' ']).any endsWord = false := same []
    rw [List.nil_append, containsWord.eq_2, none, Bool.and_false]
    rfl
  | cons c cs ih =>
    have here := same (c :: cs)
    rw [List.cons_append] at here
    rw [List.cons_append, containsWord, containsWord, ih, here]

/-! ### Import lines -/

section Import

variable {i : Import}

theorem ne_of_isNameChar {c d : Char} (h : isNameChar c = true) (other : isNameChar d = false) :
    c ≠ d := by
  rintro rfl
  rw [h] at other
  cases other

theorem Import.OfModel.not_mem_name (h : i.OfModel) {d : Char} (other : isNameChar d = false) :
    d ∉ i.1.toList :=
  fun mem => ne_of_isNameChar (isNameChar_of_isName h.name d mem) other rfl

theorem stringLiteral_module {module : List Char}
    (h : ∀ c ∈ module, isNameChar c = true ∨ c = '.' ∨ c = '/') :
    stringLiteral module = '"' :: (module ++ ['"']) := by
  refine stringLiteral_plain fun c hc => ?_
  rcases h c hc with name | rfl | rfl
  · exact not_mem_escapedChars_of_isNameChar name
  · decide
  · decide

theorem Import.OfModel.not_mem_literal (h : i.OfModel) {d : Char} (other : isNameChar d = false)
    (mark : d ≠ '.' ∧ d ≠ '/' ∧ d ≠ '"') : d ∉ stringLiteral i.2.toList := by
  rw [stringLiteral_module h.module]
  simp only [List.mem_cons, List.mem_append, List.not_mem_nil, or_false, not_or]
  refine ⟨mark.2.2, fun mem => ?_, mark.2.2⟩
  rcases h.module d mem with name | rfl | rfl
  · exact ne_of_isNameChar name other rfl
  · exact mark.1 rfl
  · exact mark.2.1 rfl

theorem Import.OfModel.afterImport?_line (h : i.OfModel) (rest : List Char) :
    afterImport? (i.line ++ rest) = some rest := by
  have split : i.line ++ rest = "import".toList ++ (" type \x7b ".toList ++ (i.1.toList ++
      (" \x7d from ".toList ++ (stringLiteral i.2.toList ++ ';' :: '\n' :: rest)))) := by
    have keyword : "import type \x7b ".toList = "import".toList ++ " type \x7b ".toList := rfl
    unfold Import.line Import.text
    rw [keyword]
    simp only [List.append_assoc, List.cons_append, List.nil_append]
  have before : ∀ c ∈ " type \x7b ".toList ++ (i.1.toList ++
      (" \x7d from ".toList ++ stringLiteral i.2.toList)), (c != ';') = true := by
    intro c hc
    rw [bne_iff_ne]
    rintro rfl
    simp only [List.mem_append] at hc
    rcases hc with hc | hc | hc | hc
    · exact absurd hc (by decide)
    · exact h.not_mem_name (by decide) hc
    · exact absurd hc (by decide)
    · exact h.not_mem_literal (by decide) (by decide) hc
  have behind : (" type \x7b ".toList ++ (i.1.toList ++ (" \x7d from ".toList ++
      (stringLiteral i.2.toList ++ ';' :: '\n' :: rest)))).dropWhile (· != ';') =
      ';' :: '\n' :: rest := by
    have dropped := @List.dropWhile_append_of_pos _ _ _ (';' :: '\n' :: rest) before
    simp only [List.append_assoc] at dropped
    exact dropped
  rw [afterImport?, stripStart?_eq_some_iff.2 split]
  dsimp only
  rw [behind]
  rfl

theorem Import.OfModel.importsBrandedHere_line (h : i.OfModel) (rest : List Char) :
    importsBrandedHere (i.line ++ rest) = false := by
  have split : i.line ++ rest = "import".toList ++ (' ' :: ("type".toList ++ (' ' :: '\x7b' ::
      ((' ' :: (i.1.toList ++ [' '])) ++ '\x7d' ::
        (" from ".toList ++ (stringLiteral i.2.toList ++ ';' :: '\n' :: rest)))))) := by
    have keywords : "import type \x7b ".toList =
        "import".toList ++ ' ' :: ("type".toList ++ [' ', '\x7b', ' ']) := rfl
    have closing : " \x7d from ".toList = ' ' :: '\x7d' :: " from ".toList := rfl
    unfold Import.line Import.text
    rw [keywords, closing]
    simp only [List.append_assoc, List.cons_append, List.nil_append]
  have inBraces : ∀ c ∈ ' ' :: (i.1.toList ++ [' ']), (c != '\x7d') = true := by
    intro c hc
    rw [bne_iff_ne]
    rintro rfl
    simp only [List.mem_cons, List.mem_append, List.not_mem_nil, or_false] at hc
    rcases hc with hc | hc | hc
    · cases hc
    · exact h.not_mem_name (by decide) hc
    · cases hc
  have unbranded : containsWord "Branded".toList false (' ' :: (i.1.toList ++ [' '])) = false := by
    have first : containsWord "Branded".toList false (' ' :: (i.1.toList ++ [' '])) =
        containsWord "Branded".toList false (i.1.toList ++ [' ']) := rfl
    rw [first, containsWord_blank (List.all_iff_forall_prop.1 (by decide)) (by decide)]
    exact h.unbranded 0
  have start : trimStart (i.line ++ rest) = i.line ++ rest := rfl
  have blank (cs : List Char) {c : Char} (next : isBlank c = false) :
      afterBlanks? (' ' :: c :: cs) = some (c :: cs) := by
    simp [afterBlanks?, trimStart, next, show isBlank ' ' = true from rfl]
  unfold importsBrandedHere
  rw [start, split, stripStart?_eq_some_iff.2 rfl]
  dsimp only [Option.bind_eq_bind, Option.bind_some]
  rw [show "type".toList = 't' :: "ype".toList from rfl, List.cons_append, blank _ (by decide),
    Option.bind_some, ← List.cons_append, stripStart?_eq_some_iff.2 rfl, Option.bind_some,
    blank _ (by decide), Option.getD_some, stripStart?_eq_some_iff.2 (List.singleton_append).symm,
    Option.bind_some, List.takeWhile_append_of_pos inBraces,
    List.takeWhile_cons_of_neg (by decide), List.append_nil, unbranded, beq_eq_false_iff_ne, Ne,
    Option.bind_eq_some_iff]
  rintro ⟨_, -, found⟩
  obtain ⟨_, -, found⟩ := Option.bind_eq_some_iff.1 found
  cases found

theorem Import.OfModel.noBreak_text (h : i.OfModel) : '\n' ∉ i.text := by
  unfold Import.text
  simp only [List.mem_append, not_or]
  exact ⟨by decide, h.not_mem_name (by decide), by decide, h.not_mem_literal (by decide) (by decide),
    by decide⟩

/-- The lines of the imports leave off where the text below them starts. -/
theorem afterLastImport?_lines {imports : List Import} (h : ∀ i ∈ imports, i.OfModel)
    {below : List Char} (none : afterLastImport? true below = none) :
    afterLastImport? true (imports.flatMap Import.line ++ below) =
      if imports = [] then Option.none else some below := by
  induction imports with
  | nil => exact none
  | cons i imports ih =>
    obtain ⟨first, others⟩ := List.forall_mem_cons.1 h
    have step : ∀ rest, afterLastImport? true (i.line ++ rest) =
        (afterLastImport? true rest).or (some rest) := by
      intro rest
      have here := first.afterImport?_line rest
      obtain ⟨c, cs, text⟩ : ∃ c cs, i.line ++ rest = c :: cs := ⟨_, _, rfl⟩
      rw [text] at here ⊢
      rw [afterLastImport?, if_pos rfl]
      split
      · rename_i found
        rw [here] at found
        cases found
        rfl
      · rename_i found
        rw [here] at found
        cases found
    rw [List.flatMap_cons, List.append_assoc, step, ih others, if_neg (List.cons_ne_nil _ _)]
    split
    · rename_i last
      rw [last]
      rfl
    · rfl

theorem importsBranded_lines {imports : List Import} (h : ∀ i ∈ imports, i.OfModel)
    (below : List Char) :
    importsBranded true (imports.flatMap Import.line ++ below) = importsBranded true below := by
  induction imports with
  | nil => rfl
  | cons i imports ih =>
    obtain ⟨first, others⟩ := List.forall_mem_cons.1 h
    have line (rest : List Char) :
        importsBranded true (i.line ++ rest) = importsBranded true rest := by
      have here := first.importsBrandedHere_line rest
      have inLine := first.noBreak_text
      obtain ⟨c, cs, text⟩ : ∃ c cs, i.text = c :: cs := ⟨_, _, rfl⟩
      rw [text] at inLine
      rw [Import.line, text, List.append_assoc] at here ⊢
      rw [List.singleton_append] at here
      exact (importsBranded_line inLine rest).trans (by rw [here]; rfl)
    rw [List.flatMap_cons, List.append_assoc, line, ih others]

end Import

/-! ### The header -/

/-- The header is a line comment. -/
def IsHeader (header : List Char) : Prop :=
  ∃ line, '\n' ∉ line ∧ header = '/' :: '/' :: (line ++ ['\n'])

section Header

variable {header : List Char}

theorem IsHeader.afterLastImport? (h : IsHeader header) (rest : List Char) :
    afterLastImport? true (header ++ rest) = Retyping.afterLastImport? true rest := by
  obtain ⟨line, inLine, rfl⟩ := h
  have noImport : afterImport? ('/' :: '/' :: (line ++ ['\n']) ++ rest) = none := rfl
  have behind := afterLastImport?_inside (show '\n' ∉ '/' :: line by simpa using inLine) rest
  rw [List.cons_append] at noImport ⊢
  rw [Retyping.afterLastImport?, if_pos rfl]
  split
  · rename_i found
    rw [noImport] at found
    cases found
  · simpa using behind

theorem IsHeader.importsBranded (h : IsHeader header) (rest : List Char) :
    importsBranded true (header ++ rest) = Retyping.importsBranded true rest := by
  obtain ⟨line, inLine, rfl⟩ := h
  have here : importsBrandedHere ('/' :: '/' :: line ++ '\n' :: rest) = false := rfl
  have own := importsBranded_line (show '\n' ∉ '/' :: '/' :: line by simpa using inLine) rest
  rw [here, Bool.false_or] at own
  simpa using own

theorem linesWithBreaks_line {line : List Char} (h : '\n' ∉ line) (rest : List Char) :
    linesWithBreaks (line ++ '\n' :: rest) = (line ++ ['\n']) :: linesWithBreaks rest := by
  induction line with
  | nil => rw [List.nil_append, linesWithBreaks, if_pos rfl]; rfl
  | cons c line ih =>
    rw [List.mem_cons, not_or] at h
    rw [List.cons_append, linesWithBreaks, if_neg (Ne.symm h.1), ih h.2]
    rfl

/-- An empty line ends the comment lines. -/
theorem IsHeader.headerLines (h : IsHeader header) (rest : List Char) :
    headerLines (header ++ '\n' :: rest) = header := by
  obtain ⟨line, inLine, rfl⟩ := h
  have lines := linesWithBreaks_line (show '\n' ∉ '/' :: '/' :: line by simpa using inLine)
    ('\n' :: rest)
  have next := linesWithBreaks_line (show '\n' ∉ [] from List.not_mem_nil) rest
  rw [List.nil_append] at next
  rw [next] at lines
  rw [Retyping.headerLines, show '/' :: '/' :: (line ++ ['\n']) ++ '\n' :: rest =
    '/' :: '/' :: line ++ '\n' :: '\n' :: rest by simp, lines]
  rw [List.takeWhile_cons_of_pos rfl, List.nil_append, List.takeWhile_cons_of_neg Bool.false_ne_true]
  simp

theorem splitAt_length (a b : List Char) : (a ++ b).splitAt a.length = (a, b) := by
  rw [List.splitAt_eq, List.take_left, List.drop_left]

/-- Nothing else in the text is taken for an import, so the new one is put behind the others. -/
theorem addBrandedImport_fileText (isHeader : IsHeader header) {imports : List Import}
    (ofModel : ∀ i ∈ imports, i.OfModel) {below : List Char} (starts : below.head? = some '\n')
    (quiet : isQuiet .lineStart below = true) (path : String) :
    addBrandedImport path (fileText header imports below) =
      fileText header (imports ++ [("Branded", importPath path)]) below := by
  have free : importsBranded true (fileText header imports below) = false := by
    rw [fileText, isHeader.importsBranded, importsBranded_lines ofModel]
    exact importsBranded_of_isQuiet quiet
  have cut : splitAtImports (fileText header imports below) =
      (header ++ imports.flatMap Import.line, below) := by
    have none : afterLastImport? true below = none := afterLastImport?_of_isQuiet quiet
    have last := afterLastImport?_lines ofModel none
    rw [splitAtImports, fileText, isHeader.afterLastImport?, last]
    by_cases first : imports = []
    · obtain ⟨rest, rfl⟩ := List.head?_eq_some_iff.1 starts
      rw [if_pos first, first, List.flatMap_nil, List.nil_append, List.append_nil]
      dsimp only
      rw [isHeader.headerLines, splitAt_length]
    · have before : (header ++ (imports.flatMap Import.line ++ below)).length - below.length =
          (header ++ imports.flatMap Import.line).length := by
        simp only [List.length_append]
        omega
      rw [if_neg first]
      dsimp only
      rw [before, ← List.append_assoc, splitAt_length]
  have new : brandedImport path = Import.text ("Branded", importPath path) := by
    unfold Import.text
    rw [brandedImport_eq, stringLiteral_importPath]
    have words : "import type \x7b Branded \x7d from ".toList =
        "import type \x7b ".toList ++ ("Branded".toList ++ " \x7d from ".toList) := rfl
    rw [words]
    simp only [List.append_assoc, List.cons_append, List.nil_append]
  rw [addBrandedImport, free, if_neg Bool.false_ne_true, cut, new, fileText]
  simp [Import.line]

end Header

/-! ### Reading imports -/

section Reading

variable {i : Import} {gap : List Char}

theorem textOf_tokens (gap : List Char) (i : Import) (rest : List Char) :
    textOf (i.tokens gap) rest = gap ++ (i.text ++ rest) := by
  have keywords : "import type \x7b ".toList =
      "import".toList ++ (' ' :: ("type".toList ++ [' ', '\x7b', ' '])) := rfl
  have closing : " \x7d from ".toList = [' ', '\x7d', ' '] ++ ("from".toList ++ [' ']) := rfl
  unfold Import.text Import.tokens
  rw [keywords, closing]
  simp [textOf_cons, Token.word, Token.mark, Token.literal]

theorem stableBefore_tokens (closed : ClosedGap gap) (name : Token.IsName i.1) (rest : List Char) :
    StableBefore (i.tokens gap) rest := by
  have words : Token.IsName "import" ∧ Token.IsName "type" ∧ Token.IsName "from" := by
    refine ⟨?_, ?_, ?_⟩ <;> exact Token.isName_of_chars rfl (by decide)
  have stop : isNameChar ' ' = false := by decide
  refine ⟨closed, Token.fits_word words.1 stop, closedGap_space, Token.fits_word words.2.1 stop,
    closedGap_space, ?_, closedGap_space, Token.fits_word name stop, closedGap_space, ?_,
    closedGap_space, Token.fits_word words.2.2 stop, closedGap_space, Token.fits_literal _ _ _,
    closedGap_nil, ?_, trivial⟩ <;>
    exact Token.fits_mark (by decide) (by decide) (by decide) (by decide) (by decide)

/-- The tokens of an import without their gaps. -/
def Import.bare (i : Import) : List Token :=
  (i.tokens []).map Token.bare

theorem readsAs_line (name : Token.IsName i.1) : TypeScript.ReadsAs i.line i.bare := by
  intro rest
  have reads := bareTokens_textOf (stableBefore_tokens closedGap_nil name ('\n' :: rest))
  rw [textOf_tokens, bareTokens_blank (by decide)] at reads
  rw [Import.line, List.append_assoc]
  exact reads

/-- A gap that the gap before the next token starts with. -/
structure LeadsGap (gap : List Char) : Prop where
  closed : ClosedGap gap
  start : ∀ {cs g rest}, splitGap 0 (gap ++ cs) = .ok (g, rest) → gap <+: g
  reads : TypeScript.ReadsAs gap []
  quiet : ∀ cs, isQuiet .lineStart (gap ++ cs) = isQuiet .lineStart cs

theorem prefix_of_splitGap_break {offset : Nat} {cs g rest : List Char}
    (h : splitGap offset ('\n' :: cs) = .ok (g, rest)) : ['\n'] <+: g := by
  rw [splitGap.eq_def] at h
  dsimp only at h
  rw [if_pos (by decide)] at h
  split at h
  · cases h
    exact ⟨_, rfl⟩
  · cases h

theorem leadsGap_break : LeadsGap ['\n'] where
  closed := closedGap_blank (by decide) closedGap_nil
  start := prefix_of_splitGap_break
  reads := TypeScript.readsAs_newline
  quiet _ := rfl

theorem IsHeader.leadsGap {header : List Char} (h : IsHeader header) : LeadsGap header := by
  obtain ⟨line, inLine, rfl⟩ := h
  refine ⟨?_, fun {cs g rest} split => ?_, TypeScript.readsAs_line inLine, fun cs => ?_⟩
  · have closed := closedGap_line inLine (closedGap_blank (by decide) closedGap_nil)
    simpa using closed
  · have whole := splitGap_line_eq 0 inLine (.inr (show ('\n' :: cs).head? = some '\n' from rfl))
    simp only [List.cons_append, List.append_assoc, List.nil_append] at split
    rw [split] at whole
    cases next : splitGap (0 + 2 + byteSize line) ('\n' :: cs) with
    | error e =>
      rw [next] at whole
      cases whole
    | ok found =>
      obtain ⟨g', rest'⟩ := found
      rw [next] at whole
      cases whole
      obtain ⟨more, rfl⟩ := prefix_of_splitGap_break next
      exact ⟨more, by simp⟩
  · have here := isQuiet_cons_append (p := .lineStart) (c := '/') (a := '/' :: line) (by decide)
      (by decide) (by simpa using inLine) ('\n' :: cs)
    rw [show '/' :: '/' :: (line ++ ['\n']) ++ cs = '/' :: '/' :: line ++ '\n' :: cs by simp, here]
    rfl

/-! ### Imports in a row -/

/-- The tokens of imports, each on its line; the gap stands before the first of them. -/
def importTokensFrom (gap : List Char) : List Import → List Token
  | [] => []
  | i :: imports => i.tokens gap ++ importTokensFrom ['\n'] imports

/-- What stands behind the imports before the next token. -/
def gapBehind (gap : List Char) (imports : List Import) : List Char :=
  if imports = [] then gap else ['\n']

theorem textOf_importTokensFrom (gap : List Char) (imports : List Import) (below : List Char) :
    textOf (importTokensFrom gap imports) (gapBehind gap imports ++ below) =
      gap ++ (imports.flatMap Import.line ++ below) := by
  induction imports generalizing gap with
  | nil => rfl
  | cons i imports ih =>
    have behind : gapBehind gap (i :: imports) = gapBehind ['\n'] imports := by
      unfold gapBehind
      split <;> simp_all
    rw [importTokensFrom, textOf_append, behind, ih, textOf_tokens, List.flatMap_cons, Import.line]
    simp

theorem leadsGap_gapBehind (h : LeadsGap gap) (imports : List Import) :
    LeadsGap (gapBehind gap imports) := by
  unfold gapBehind
  split
  · exact h
  · exact leadsGap_break

theorem stableBefore_importTokensFrom (closed : ClosedGap gap) {imports : List Import}
    (names : ∀ i ∈ imports, Token.IsName i.1) (rest : List Char) :
    StableBefore (importTokensFrom gap imports) rest := by
  induction imports generalizing gap with
  | nil => trivial
  | cons i imports ih =>
    obtain ⟨first, others⟩ := List.forall_mem_cons.1 names
    rw [importTokensFrom, stableBefore_append]
    exact ⟨stableBefore_tokens closed first _, ih leadsGap_break.closed others⟩

/-- An import under the new name; the module stays. -/
def Import.renamed (renames : List Rename) (i : Import) : Import :=
  (TypeScript.renamed renames i.1, i.2)

theorem renameName_word_eq (renames : List Rename) (gap : List Char) (name : String) :
    (Token.word gap name).renameName renames false = .word gap (renamed renames name) := by
  have own : (Token.word gap name).name = name := String.ofList_toList
  rw [Token.renameName, if_pos ⟨rfl, rfl⟩, own]
  rfl

/-- Names are followed token by token where no point stands. -/
theorem renameTokens_append_of_noPoint {renames : List Rename} {us : List Token}
    (noPoint : ∀ u ∈ us, u.isMark '.' = false) (ts : List Token) :
    renameTokens renames false (us ++ ts) =
      us.map (·.renameName renames false) ++ renameTokens renames false ts := by
  induction us with
  | nil => rfl
  | cons u us ih =>
    obtain ⟨here, others⟩ := List.forall_mem_cons.1 noPoint
    rw [List.cons_append, renameTokens_cons, here, ih others]
    rfl

theorem renameTokens_tokens {renames : List Rename} (drops : ∀ r ∈ renames, DropsSuffix r)
    (gap : List Char) (i : Import) (ts : List Token) :
    renameTokens renames false (i.tokens gap ++ ts) =
      (i.renamed renames).tokens gap ++ renameTokens renames false ts := by
  have kept {word : String} (own : baseName word = word) (gap : List Char) :
      (Token.word gap word).renameName renames false = .word gap word := by
    rw [renameName_word_eq, renamed_of_baseName_eq drops own]
  have importKept := kept (show baseName "import" = "import" by decide)
  have typeKept := kept (show baseName "type" = "type" by decide)
  have fromKept := kept (show baseName "from" = "from" by decide)
  have mark (gap : List Char) (c : Char) :
      (Token.mark gap c).renameName renames false = .mark gap c := rfl
  have literal (gap : List Char) (value : String) :
      (Token.literal gap value).renameName renames false = .literal gap value := rfl
  have noPoint : ∀ t ∈ i.tokens gap, t.isMark '.' = false := by
    intro t ht
    simp only [Import.tokens, List.mem_cons, List.not_mem_nil, or_false] at ht
    rcases ht with rfl | rfl | rfl | rfl | rfl | rfl | rfl | rfl <;> rfl
  rw [renameTokens_append_of_noPoint noPoint]
  simp only [Import.tokens, List.map_cons, List.map_nil, importKept, typeKept, fromKept, mark,
    literal, renameName_word_eq]
  rfl

theorem renameTokens_importTokensFrom {renames : List Rename} (drops : ∀ r ∈ renames, DropsSuffix r)
    (gap : List Char) (imports : List Import) :
    renameTokens renames false (importTokensFrom gap imports) =
      importTokensFrom gap (imports.map (Import.renamed renames)) := by
  induction imports generalizing gap with
  | nil => rfl
  | cons i imports ih =>
    rw [importTokensFrom, renameTokens_tokens drops, ih]
    rfl

end Reading

end OpenApiModels.Retyping
