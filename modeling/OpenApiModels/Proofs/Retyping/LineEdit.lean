import OpenApiModels.Proofs.Retyping.ImportLine
import OpenApiModels.Proofs.TypeScript.Resemblance

/-!
# What an import line does to the tokens

An import line goes into a gap or into a literal, or its tokens go between others; at the end of a
text, its first word can go on with the last token (`insert_line`).
-/

namespace OpenApiModels.Retyping

open Text TypeScript

/-- The text is read as the tokens, offsets aside. -/
def ReadsAs (cs : List Char) (ts : List Token) : Prop :=
  ∃ tail, cs = textOf ts tail ∧ Stable ts tail

theorem ReadsAs.ofText? {cs : List Char} {ts : List Token} (h : ReadsAs cs ts) :
    ∃ tail, Source.ofText? cs = .ok ⟨rebase 0 ts, tail⟩ := by
  obtain ⟨tail, rfl, stable⟩ := h
  exact ⟨tail, readSource_of_stable stable 0⟩

theorem readsAs_of_closedGap {gap : List Char} (closed : ClosedGap gap) : ReadsAs gap [] := by
  refine ⟨gap, rfl, trivial, fun offset => ?_⟩
  have split := closed offset [] rfl
  rwa [List.append_nil] at split

theorem ReadsAs.cons {t : Token} {p rest : List Char} {ts : List Token} (h : ReadsAs p ts)
    (closed : ClosedGap t.gap) (fits : t.Fits (p ++ rest)) (more : p ≠ []) :
    ReadsAs (t.gap ++ (t.text ++ p)) (t :: ts) := by
  obtain ⟨tail, rfl, stable, ends⟩ := h
  refine ⟨tail, (textOf_cons t ts tail).symm, ⟨closed, fits.congr ?_, stable⟩, ends⟩
  rw [List.head?_append_of_ne_nil _ more]

/-- How a line behind the text `p` changes the tokens. -/
inductive LineEdit (path : String) (p : List Char) (ts ts' : List Token) : Prop where
  | within (same : ts'.map Token.bare = ts.map Token.bare)
  | literal {a b : List Token} {l l' : Token} (before : ts = a ++ l :: b)
      (after : ts' = a ++ l' :: b) (kind : l.kind = .literal) (kind' : l'.kind = .literal)
      (template : SameTemplate l.text l'.text)
  | between {a b b' : List Token} {gap : List Char} (before : ts = a ++ b)
      (after : ts' = a ++ (importTokens gap path ++ b'))
      (same : b'.map Token.bare = b.map Token.bare) (reads : ReadsAs p a)
  /-- The first word goes on with the last token of the text. -/
  | glued {a : List Token} {t t' : Token} (before : ts = a ++ [t])
      (after : ts' = a ++ t' :: (importTokens [] path).tail)
      (text : t'.text = t.text ++ "import".toList) (kind : t'.kind = t.kind)
      (solid : t.kind = .word ∨ t.kind = .number) (reads : ReadsAs p ts)

theorem LineEdit.cons {path : String} {p rest : List Char} {ts ts' : List Token} {t : Token}
    (h : LineEdit path p ts ts') (closed : ClosedGap t.gap) (fits : t.Fits (p ++ rest))
    (more : p ≠ []) : LineEdit path (t.gap ++ (t.text ++ p)) (t :: ts) (t :: ts') := by
  cases h with
  | within same => exact .within (congrArg (t.bare :: ·) same)
  | @literal a b l l' before after kind kind' template =>
    exact .literal (a := t :: a) (congrArg (t :: ·) before) (congrArg (t :: ·) after) kind kind'
      template
  | between before after same reads =>
    exact .between (congrArg (t :: ·) before) (congrArg (t :: ·) after) same
      (reads.cons closed fits more)
  | @glued a last last' before after text kind solid reads =>
    exact .glued (a := t :: a) (congrArg (t :: ·) before) (congrArg (t :: ·) after) text kind solid
      (reads.cons closed fits more)

/-! ### Lines in literals -/

theorem infix_pair_append {c d : Char} {x y : List Char} (h : x.getLast? ≠ some c) :
    [c, d] <:+: x ++ y ↔ [c, d] <:+: x ∨ [c, d] <:+: y := by
  induction x with
  | nil => simp
  | cons e x ih =>
    cases x with
    | nil =>
      have differ : c ≠ e := fun same => h (congrArg some same.symm)
      simp [List.infix_cons_iff, differ]
    | cons f x =>
      have inner := ih fun last => h (by rw [List.getLast?_cons, last]; rfl)
      rw [List.cons_append, List.infix_cons_iff, inner, List.infix_cons_iff (a := e), or_assoc]
      simp

/-- A line in a literal starts no substitution. -/
theorem sameTemplate_insert {x extra : List Char} (last : x.getLast? = some '\n')
    (plain : '$' ∉ extra) (y : List Char) : SameTemplate (x ++ y) (x ++ (extra ++ y)) := by
  have ends : extra.getLast? ≠ some '$' := fun last => plain (List.mem_of_getLast? last)
  have other : ¬ ['$', '\x7b'] <:+: extra := fun inside => plain (inside.subset (by simp))
  rw [SameTemplate, Bool.eq_iff_iff, containsText_iff, containsText_iff,
    infix_pair_append (by rw [last]; decide), infix_pair_append (by rw [last]; decide),
    infix_pair_append ends]
  simp only [other, false_or]

/-! ### Lines at the end of a text -/

theorem noBreak_brandedImport (path : String) : '\n' ∉ brandedImport path := by
  intro mem
  exact absurd (mem_brandedImport mem) (by decide)

theorem textOf_importTokens_glued (t : Token) (path : String) (rest : List Char) :
    textOf ({ t with text := t.text ++ "import".toList } :: (importTokens [] path).tail) rest =
      t.gap ++ (t.text ++ (brandedImport path ++ rest)) := by
  have line := textOf_importTokens [] path rest
  rw [List.nil_append] at line
  rw [← line]
  simp [importTokens, textOf_cons, Token.word]

theorem stableBefore_tail_importTokens (path : String) (rest : List Char) :
    StableBefore (importTokens [] path).tail rest :=
  (stableBefore_importTokens closedGap_nil path rest).2.2

/-- The last token of a text goes on with a word, or it ends where the word starts. -/
theorem fits_before_import {t : Token} (fits : t.Fits []) :
    (∀ rest, t.Fits ('i' :: rest)) ∨ ((t.kind = .word ∨ t.kind = .number) ∧
      ∀ rest, Token.Fits { t with text := t.text ++ "import".toList } (' ' :: rest)) := by
  obtain ⟨c, r, text, starts, split⟩ := fits
  rw [List.append_nil, text] at starts
  have notBlank : isBlank c = false := by
    simp only [startsToken, Bool.and_eq_true, Bool.not_eq_true'] at starts
    exact starts.1
  have apart (rest : List Char) (starts : startsToken (c :: (r ++ rest)) = true)
      (again : ∀ offset, splitToken offset c (r ++ rest) = .ok (t.kind, c :: r, rest)) :
      t.Fits rest :=
    ⟨c, r, text, by rw [text]; exact starts, by rw [text]; exact again⟩
  have glued (rest : List Char) (notSlash : c ≠ '/')
      (again : ∀ offset, splitToken offset c ((r ++ "import".toList) ++ rest) =
        .ok (t.kind, c :: (r ++ "import".toList), rest)) :
      Token.Fits { t with text := t.text ++ "import".toList } rest :=
    ⟨c, r ++ "import".toList, by rw [text]; rfl,
      by rw [text]; exact startsToken_cons notBlank notSlash _, by rw [text]; exact again⟩
  have numbers : ∀ d ∈ "import".toList, isNumberChar d = true :=
    List.all_eq_true.1 (by decide)
  have names : ∀ d ∈ "import".toList, isNameChar d = true := List.all_eq_true.1 (by decide)
  have notName : isNameChar ' ' = false := by decide
  have kinds := Token.splitToken_append_iff.1 (text ▸ split 0)
  rcases kinds with ⟨isQ, kind, literal⟩ | ⟨notQ, digit, kind, chars, -⟩ |
    ⟨notQ, notDigit, start, kind, chars, -⟩ | ⟨notQ, notDigit, notStart, kind, rfl⟩
  · exact .inl fun rest => apart _ (startsToken_quote isQ _) fun _ =>
      Token.splitToken_append_iff.2 (.inl ⟨isQ, kind, literal⟩)
  · have notSlash : c ≠ '/' := fun same => by rw [same] at digit; exact absurd digit (by decide)
    refine .inr ⟨.inr kind, fun rest => glued _ notSlash fun _ =>
      Token.splitToken_append_iff.2 (.inr (.inl ⟨notQ, digit, kind, ?_, rfl⟩))⟩
    intro d hd
    exact (List.mem_append.1 hd).elim (chars d) (numbers d)
  · have notSlash : c ≠ '/' := fun same => by
      rw [same] at start
      exact absurd start (by decide)
    refine .inr ⟨.inl kind, fun rest => glued _ notSlash fun _ => Token.splitToken_append_iff.2
      (.inr (.inr (.inl ⟨notQ, notDigit, start, kind, ?_, notName⟩)))⟩
    intro d hd
    exact (List.mem_append.1 hd).elim (chars d) (names d)
  · refine .inl fun rest => apart _ ?_ fun _ =>
      Token.splitToken_append_iff.2 (.inr (.inr (.inr ⟨notQ, notDigit, notStart, kind, rfl⟩)))
    simp [startsToken, notBlank]

theorem head?_textOf_cons {t t' : Token} (gap : t'.gap = t.gap)
    (text : t'.text.head? = t.text.head?) (more : t.text ≠ []) (ts ts' : List Token)
    (rest rest' : List Char) :
    (textOf (t :: ts) rest).head? = (textOf (t' :: ts') rest').head? := by
  obtain ⟨c, r, isText⟩ := List.exists_cons_of_ne_nil more
  rw [isText, List.head?_cons] at text
  obtain ⟨r', isText'⟩ := List.head?_eq_some_iff.1 text
  rw [textOf_cons, textOf_cons, gap, isText, isText']
  cases t.gap <;> rfl

theorem endsGap_break : EndsGap ['\n'] :=
  fun _ => splitGap_blank (by decide) (by rw [splitGap])

/-- A line behind the last token of a text. -/
theorem line_behind_token {a : List Token} {t : Token} (path : String)
    (stable : Stable (a ++ [t]) []) :
    ∃ ts', textOf (a ++ [t]) [] ++ (brandedImport path ++ ['\n']) = textOf ts' ['\n'] ∧
      Stable ts' ['\n'] ∧ LineEdit path (textOf (a ++ [t]) []) (a ++ [t]) ts' := by
  obtain ⟨before, closed, fits, -⟩ := stableBefore_append.1 stable.1
  have reads : ReadsAs (textOf (a ++ [t]) []) (a ++ [t]) := ⟨[], rfl, stable⟩
  have more := fits.text_ne_nil
  rcases fits_before_import fits with apart | ⟨solid, glued⟩
  · have line : textOf (importTokens [] path) ['\n'] = brandedImport path ++ ['\n'] :=
      textOf_importTokens [] path _
    obtain ⟨r, first⟩ : ∃ r, brandedImport path = 'i' :: r := ⟨_, brandedImport_eq path⟩
    refine ⟨(a ++ [t]) ++ importTokens [] path, ?_, ⟨stableBefore_append.2
      ⟨stableBefore_append.2 ⟨before.congr (head?_textOf_cons rfl rfl more _ _ _ _), closed, ?_,
        trivial⟩, stableBefore_importTokens closedGap_nil path _⟩, endsGap_break⟩,
      .between (b := []) (List.append_nil _).symm (by rw [List.append_nil]) List.map_nil reads⟩
    · rw [textOf_append _ (importTokens [] path), line, textOf_eq_append _ (_ ++ _)]
    · rw [line, textOf_nil, first]
      exact apart _
  · have first : (textOf [t] []).head? =
        (textOf ({ t with text := t.text ++ "import".toList } :: (importTokens [] path).tail)
          ['\n']).head? := by
      refine head?_textOf_cons ?_ ?_ more _ _ _ _
      · rfl
      · exact List.head?_append_of_ne_nil _ more
    refine ⟨_, ?_, ⟨stableBefore_append.2 ⟨before.congr first, closed,
        glued _, stableBefore_tail_importTokens path _⟩, endsGap_break⟩,
      .glued rfl rfl rfl rfl solid reads⟩
    rw [textOf_append, textOf_append, textOf_importTokens_glued, textOf_eq_append a,
      textOf_eq_append a (t.gap ++ _), textOf_cons, textOf_nil]
    simp

/-- A line behind a whole text. -/
theorem append_line {ts : List Token} {tail : List Char} (path : String) (stable : Stable ts tail) :
    ∃ ts' tail', textOf ts tail ++ (brandedImport path ++ ['\n']) = textOf ts' tail' ∧
      Stable ts' tail' ∧ LineEdit path (textOf ts tail) ts ts' := by
  have reads : ReadsAs (textOf ts tail) ts := ⟨tail, rfl, stable⟩
  by_cases behind : tail = []
  · subst behind
    rcases List.eq_nil_or_concat ts with rfl | ⟨a, t, rfl⟩
    · exact ⟨importTokens [] path, ['\n'], by rw [textOf_importTokens]; rfl,
        ⟨stableBefore_importTokens closedGap_nil path _, endsGap_break⟩,
        .between (a := []) (b := []) rfl (List.append_nil _).symm List.map_nil reads⟩
    · rw [List.concat_eq_append] at stable ⊢
      obtain ⟨ts', line⟩ := line_behind_token path stable
      exact ⟨ts', ['\n'], line⟩
  obtain ⟨before, ends⟩ := stable
  rcases endsGap_append ends (noBreak_brandedImport path) with closed | comment
  · refine ⟨ts ++ importTokens tail path, ['\n'], ?_, ⟨stableBefore_append.2 ⟨before.congr ?_,
        stableBefore_importTokens closed path _⟩, endsGap_break⟩,
      .between (b := []) (List.append_nil _).symm (by rw [List.append_nil]) List.map_nil reads⟩
    · rw [textOf_append, textOf_importTokens, textOf_eq_append ts tail,
        textOf_eq_append ts (tail ++ _), List.append_assoc]
    · rw [textOf_importTokens, List.head?_append_of_ne_nil _ behind]
  · refine ⟨ts, _, ?_, ⟨before.congr ?_, comment⟩, .within rfl⟩
    · rw [textOf_eq_append ts tail, textOf_eq_append ts (tail ++ _), List.append_assoc]
    · rw [List.head?_append_of_ne_nil _ behind]

/-! ### Lines anywhere -/

theorem plain_brandedImport (path : String) :
    '*' ∉ brandedImport path ++ ['\n'] ∧ '$' ∉ brandedImport path ++ ['\n'] := by
  constructor <;> intro mem <;> rcases List.mem_append.1 mem with mem | mem
  · exact absurd (mem_brandedImport mem) (by decide)
  · exact absurd mem (by decide)
  · exact absurd (mem_brandedImport mem) (by decide)
  · exact absurd mem (by decide)

/-- A line at the start of another one of a text that can still be read. -/
theorem insert_line_start {ts : List Token} {tail p q : List Char} (path : String)
    (stable : Stable ts tail) (split : textOf ts tail = p ++ q)
    (line : p = [] ∨ p.getLast? = some '\n')
    (read : ¬ Unreadable (p ++ (brandedImport path ++ '\n' :: q))) :
    ∃ ts' tail', p ++ (brandedImport path ++ '\n' :: q) = textOf ts' tail' ∧
      Stable ts' tail' ∧ LineEdit path p ts ts' := by
  have noStar := (plain_brandedImport path).1
  induction ts generalizing p with
  | nil =>
    rw [textOf_nil] at split
    subst split
    rcases endsGap_insert line noStar stable.2 with ⟨before, after⟩ | whole
    · refine ⟨importTokens p path, '\n' :: q, ?_, ⟨stableBefore_importTokens before path _, ?_⟩,
        .between (a := []) (b := []) rfl (List.append_nil _).symm List.map_nil
          (readsAs_of_closedGap before)⟩
      · rw [textOf_importTokens]
      · exact fun _ => splitGap_blank (by decide) (after _)
    · refine ⟨[], _, rfl, ⟨trivial, ?_⟩, .within rfl⟩
      simpa using whole
  | cons t ts ih =>
    obtain ⟨⟨closed, fits, later⟩, ends⟩ := stable
    rw [textOf_cons] at split
    -- the line is put into the gap, into the token, or behind it
    have place : (∃ c, t.gap = p ++ c ∧ q = c ++ (t.text ++ textOf ts tail)) ∨
        (∃ p₁ c, p = t.gap ++ p₁ ∧ t.text = p₁ ++ c ∧ q = c ++ textOf ts tail ∧
          p₁.getLast? = some '\n' ∧ c ≠ []) ∨
        ∃ p₂, p = t.gap ++ (t.text ++ p₂) ∧ textOf ts tail = p₂ ++ q ∧ p₂ ≠ [] := by
      rcases List.append_eq_append_iff.1 split with ⟨p₁, rfl, inText⟩ | ⟨c, isGap, isRest⟩
      · by_cases hp₁ : p₁ = []
        · subst hp₁
          exact .inl ⟨[], by simp, inText.symm⟩
        have last : p₁.getLast? = some '\n' := by
          rcases line with nothing | last
          · exact absurd (List.append_eq_nil_iff.1 nothing).2 hp₁
          · exact getLast?_of_append last hp₁
        have notText : t.text ≠ p₁ := fun same => getLast?_text_ne fits (same ▸ last)
        rcases List.append_eq_append_iff.1 inText with ⟨p₂, rfl, behind⟩ | ⟨c, isText, isRest⟩
        · refine .inr (.inr ⟨p₂, rfl, behind, ?_⟩)
          rintro rfl
          exact notText (List.append_nil _).symm
        · refine .inr (.inl ⟨p₁, c, rfl, isText, isRest, last, ?_⟩)
          rintro rfl
          exact notText (isText.trans (List.append_nil _))
      · exact .inl ⟨c, isGap, isRest⟩
    rcases place with ⟨c, isGap, rfl⟩ | ⟨p₁, c, rfl, isText, rfl, last, hc⟩ | ⟨p₂, rfl, behind, hp₂⟩
    · rw [isGap] at closed
      rcases closedGap_insert line noStar closed with ⟨before, after⟩ | whole
      · refine ⟨importTokens p path ++ { t with gap := '\n' :: c } :: ts, tail, ?_,
          ⟨stableBefore_append.2 ⟨stableBefore_importTokens before path _,
            closedGap_blank (by decide) after, fits, later⟩, ends⟩,
          .between (a := []) rfl rfl rfl (readsAs_of_closedGap before)⟩
        rw [textOf_append, textOf_importTokens, textOf_cons]
        simp
      · refine ⟨{ t with gap := p ++ (brandedImport path ++ ['\n'] ++ c) } :: ts, tail, ?_,
          ⟨⟨whole, fits, later⟩, ends⟩, .within rfl⟩
        rw [textOf_cons]
        simp
    · obtain ⟨quote, r, text, isQ, isLiteral, literal⟩ := literal_of_break fits (by
        rw [isText]
        exact List.mem_append_left c (List.mem_of_getLast? last))
      obtain ⟨x, rfl, rfl, inner⟩ : ∃ x, p₁ = quote :: x ∧ r = x ++ c ∧ x.getLast? = some '\n' := by
        rw [isText] at text
        match p₁ with
        | [] => cases last
        | [d] =>
          obtain ⟨rfl, -⟩ := List.cons.inj text
          obtain rfl : d = '\n' := Option.some.inj last
          cases isQ
        | d :: e :: x =>
          obtain ⟨rfl, rest⟩ := List.cons.inj text
          exact ⟨e :: x, rfl, rest.symm, getLast?_of_append (a := [d]) last (List.cons_ne_nil _ _)⟩
      rcases literal_insert closed isQ literal hc inner path (textOf ts tail) with again | fails
      · refine ⟨{ t with text := quote :: (x ++ (brandedImport path ++ '\n' :: c)) } :: ts, tail, ?_,
          ⟨⟨closed, ⟨quote, _, rfl, startsToken_quote isQ _, fun _ => ?_⟩, later⟩, ends⟩,
          .literal (a := []) rfl rfl isLiteral isLiteral ?_⟩
        · rw [textOf_cons]
          simp
        · exact Token.splitToken_append_iff.2 (.inl ⟨isQ, isLiteral, again⟩)
        · have same := sameTemplate_insert last ((plain_brandedImport path).2) c
          rw [isText]
          simpa using same
      · refine absurd ?_ read
        simpa using fails
    · have head : (p₂ ++ q).head? = (p₂ ++ (brandedImport path ++ '\n' :: q)).head? := by
        rw [List.head?_append_of_ne_nil _ hp₂, List.head?_append_of_ne_nil _ hp₂]
      rw [behind] at fits
      have read' : ¬ Unreadable (p₂ ++ (brandedImport path ++ '\n' :: q)) := by
        intro fails
        have first : StableBefore [t] (p₂ ++ (brandedImport path ++ '\n' :: q)) :=
          ⟨closed, fits.congr head, trivial⟩
        have fails := fails.behind first
        rw [textOf_cons, textOf_nil] at fails
        exact read (by simpa using fails)
      have inner : p₂.getLast? = some '\n' := by
        rcases line with nothing | last
        · exact absurd (List.append_eq_nil_iff.1 (List.append_eq_nil_iff.1 nothing).2).2 hp₂
        · rw [← List.append_assoc] at last
          exact getLast?_of_append last hp₂
      obtain ⟨ts', tail', text, ⟨stable', ends'⟩, edit⟩ :=
        ih ⟨later, ends⟩ behind (.inr inner) read'
      refine ⟨t :: ts', tail', ?_, ⟨⟨closed, fits.congr ?_, stable'⟩, ends'⟩,
        edit.cons closed fits hp₂⟩
      · rw [textOf_cons, ← text]
        simp
      · rw [← text, head]

/-- A line at the start of another one, or at the end of the text, of a text that can still be
read. -/
theorem insert_line {ts : List Token} {tail p q : List Char} (path : String)
    (stable : Stable ts tail) (split : textOf ts tail = p ++ q)
    (line : p = [] ∨ p.getLast? = some '\n' ∨ q = [])
    (read : ¬ Unreadable (p ++ (brandedImport path ++ '\n' :: q))) :
    ∃ ts' tail', p ++ (brandedImport path ++ '\n' :: q) = textOf ts' tail' ∧
      Stable ts' tail' ∧ LineEdit path p ts ts' := by
  rcases line with nothing | last | rfl
  · exact insert_line_start path stable split (.inl nothing) read
  · exact insert_line_start path stable split (.inr last) read
  · rw [List.append_nil] at split
    rw [← split]
    exact append_line path stable

end OpenApiModels.Retyping
