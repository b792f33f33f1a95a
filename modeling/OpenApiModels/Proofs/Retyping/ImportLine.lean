import Mathlib.Data.Bool.AllAny
import OpenApiModels.Proofs.Retyping.ImportPlace
import OpenApiModels.Proofs.Retyping.TypeTokens

/-!
# Inserting an import line

A line that is put at the start of another one goes into a comment or into a literal in back
quotes, or it stands between tokens. Where it would go into another literal, the text cannot be
read any more. So what is read behind it is what was read before (`insert_spec`).
-/

namespace OpenApiModels.TypeScript

open Text Retyping

/-! ### Lines in gaps -/

theorem getLast?_of_append {a b : List Char} {c : Char} (h : (a ++ b).getLast? = some c)
    (hb : b ≠ []) : b.getLast? = some c := by
  rw [List.getLast?_append] at h
  cases last : b.getLast? with
  | none => exact absurd (List.getLast?_eq_none_iff.1 last) hb
  | some d =>
    rw [last] at h
    exact h

theorem mem_of_getLast?_append {a b : List Char} {c : Char} (h : a.getLast? = some c) :
    c ∈ a ++ b :=
  List.mem_append_left b (List.mem_of_getLast? h)

/-- A block comment is still one with a line in it. -/
theorem block_insert {before after extra r : List Char}
    (h : splitFirst? ['*', '/'] (before ++ after ++ (['*', '/'] ++ r)) = some (before ++ after, r))
    (last : before.getLast? = some '\n') (noStar : '*' ∉ extra) :
    splitFirst? ['*', '/'] (before ++ (extra ++ after) ++ (['*', '/'] ++ r)) =
      some (before ++ (extra ++ after), r) := by
  obtain ⟨inBefore, inAfter⟩ := avoids_append.1 (avoids_of_splitFirst? h)
  refine splitFirst?_of_avoids (avoids_append.2 ⟨?_, avoids_append.2 ⟨?_, inAfter⟩⟩)
  · rintro a b rfl hb pre
    have ends := getLast?_of_append last hb
    match b with
    | [] => exact hb rfl
    | [c] =>
      obtain ⟨rfl, -⟩ := List.cons_prefix_cons.1 pre
      exact absurd ends (by decide)
    | c :: d :: b =>
      refine inBefore a (c :: d :: b) rfl hb ?_
      obtain ⟨rfl, second⟩ := List.cons_prefix_cons.1 pre
      obtain ⟨rfl, -⟩ := List.cons_prefix_cons.1 second
      exact ⟨_, rfl⟩
  · rintro a b rfl hb pre
    cases b with
    | nil => exact hb rfl
    | cons c b =>
      obtain ⟨rfl, -⟩ := List.cons_prefix_cons.1 pre
      exact noStar (by simp)

/-- The gap is split off where `rest` follows it. -/
def GapBefore (gap rest : List Char) : Prop :=
  ∀ offset, splitGap offset (gap ++ rest) = .ok (gap, rest)

section GapBefore

variable {gap rest : List Char}

theorem gapBefore_of_splitGap {offset : Nat} {cs : List Char}
    (h : splitGap offset cs = .ok (gap, rest)) : GapBefore gap rest := by
  intro other
  rw [append_of_splitGap h]
  exact (splitGap_spec h).1 other

theorem GapBefore.closed (h : GapBefore gap rest) (more : rest ≠ []) : ClosedGap gap :=
  (splitGap_spec (h 0)).2.2 more

theorem gapBefore_nil_iff : GapBefore gap [] ↔ EndsGap gap := by
  rw [GapBefore, List.append_nil, EndsGap]

theorem gapBefore_blank {c : Char} (h : isBlank c = true) (next : GapBefore gap rest) :
    GapBefore (c :: gap) rest :=
  fun _ => splitGap_blank h (next _)

theorem gapBefore_line {line : List Char} (h : '\n' ∉ line) (next : GapBefore ('\n' :: gap) rest) :
    GapBefore ('/' :: '/' :: line ++ '\n' :: gap) rest := by
  intro offset
  have split := splitGap_line offset h (.inr rfl) (next _)
  simpa using split

theorem gapBefore_block {body r : List Char}
    (h : splitFirst? ['*', '/'] (body ++ ['*', '/'] ++ r) = some (body, r))
    (next : GapBefore gap rest) : GapBefore ('/' :: '*' :: body ++ ['*', '/'] ++ gap) rest := by
  intro offset
  have split := splitGap_block offset (splitFirst?_congr (gap ++ rest) h) (next _)
  simpa using split

end GapBefore

/-- What follows the line of a comment starts with a line break. -/
theorem head_behind_line {offset : Nat} {text gap rest : List Char} {d : Char}
    (h : splitGap offset (text.dropWhile (· != '\n')) = .ok (d :: gap, rest)) : d = '\n' := by
  have tiles := append_of_splitGap h
  rcases dropWhile_line text with nothing | first
  · rw [nothing] at tiles
    cases tiles
  · rw [← tiles] at first
    exact Option.some.inj first

/-- A line in a comment stays in the comment; any other line in a gap cuts the gap in two. -/
theorem splitGap_insert {offset : Nat} {cs gap rest extra : List Char}
    (h : splitGap offset cs = .ok (gap, rest)) (noStar : '*' ∉ extra)
    {p q : List Char} (split : gap = p ++ q) (last : p.getLast? = some '\n') :
    (ClosedGap p ∧ GapBefore q rest) ∨ GapBefore (p ++ (extra ++ q)) rest := by
  fun_induction splitGap offset cs generalizing gap rest p with
  | case1 =>
    cases h
    obtain ⟨rfl, rfl⟩ := List.append_eq_nil_iff.1 split.symm
    cases last
  | case2 offset c r blank g s found ih =>
    cases h
    cases p with
    | nil => cases last
    | cons d p =>
      obtain ⟨rfl, rfl⟩ := List.cons.inj split
      cases p with
      | nil => exact .inl ⟨closedGap_blank blank closedGap_nil, gapBefore_of_splitGap found⟩
      | cons e p =>
        have inner := getLast?_of_append (a := [c]) last (List.cons_ne_nil e p)
        rcases ih found rfl inner with ⟨before, after⟩ | whole
        · exact .inl ⟨closedGap_blank blank before, after⟩
        · exact .inr (gapBefore_blank blank whole)
  | case3 => cases h
  | case4 =>
    rename_i text comment _ gap rest found _ ih
    cases h
    have noBreak : '\n' ∉ '/' :: '/' :: comment := by
      simpa using not_mem_takeWhile_line text
    rcases List.append_eq_append_iff.1 split with ⟨p', rfl, rfl⟩ | ⟨c, inside, -⟩
    · cases p' with
      | nil =>
        rw [List.append_nil] at last
        exact absurd (List.mem_of_getLast? last) noBreak
      | cons d p' =>
        obtain rfl := head_behind_line found
        have inner := getLast?_of_append last (List.cons_ne_nil _ _)
        rcases ih found rfl inner with ⟨before, after⟩ | whole
        · exact .inl ⟨closedGap_line (not_mem_takeWhile_line text) before, after⟩
        · rw [List.append_assoc]
          exact .inr (gapBefore_line (not_mem_takeWhile_line text) whole)
    · rw [inside] at noBreak
      exact absurd (mem_of_getLast?_append last) noBreak
  | case5 => cases h
  | case6 => cases h
  | case7 =>
    rename_i text body r found _ gap rest next _ ih
    cases h
    have split' : '/' :: '*' :: body ++ ['*', '/'] ++ gap = p ++ q := by
      rw [← split]
      simp
    have block := splitFirst?_eq_some found
    rw [block] at found
    rcases List.append_eq_append_iff.1 split' with ⟨p', rfl, rfl⟩ | ⟨c, inside, rfl⟩
    · cases p' with
      | nil =>
        rw [List.append_nil, show '/' :: '*' :: body ++ ['*', '/'] =
          ('/' :: '*' :: body ++ ['*']) ++ ['/'] by simp, List.getLast?_concat] at last
        exact absurd last (by decide)
      | cons d p' =>
        have inner := getLast?_of_append last (List.cons_ne_nil _ _)
        rcases ih next rfl inner with ⟨before, after⟩ | whole
        · have before := closedGap_block found before
          exact .inl ⟨by simpa using before, after⟩
        · have whole := gapBefore_block found whole
          rw [List.append_assoc _ (d :: p')]
          exact .inr whole
    · rcases p with - | ⟨_, - | ⟨_, b₁⟩⟩
      · cases last
      · obtain ⟨rfl, -⟩ := List.cons.inj inside
        exact absurd last (by decide)
      · obtain ⟨rfl, second⟩ := List.cons.inj inside
        obtain ⟨rfl, inBody⟩ := List.cons.inj second
        have inner : b₁.getLast? = some '\n' := by
          cases b₁ with
          | nil => exact absurd last (by decide)
          | cons d b₁ => exact getLast?_of_append (a := ['/', '*']) last (List.cons_ne_nil _ _)
        -- the line break is in the comment, not in its end
        obtain ⟨b₂, rfl, rfl⟩ : ∃ b₂, body = b₁ ++ b₂ ∧ c = b₂ ++ ['*', '/'] := by
          rcases List.append_eq_append_iff.1 inBody with ⟨d, rfl, mark⟩ | ⟨d, rfl, rfl⟩
          · cases d with
            | nil => exact ⟨[], by simp, by simpa using mark.symm⟩
            | cons e d =>
              have ends := List.mem_of_getLast? (getLast?_of_append inner (List.cons_ne_nil e d))
              have mem : '\n' ∈ ['*', '/'] := by
                rw [show ['*', '/'] = _ from mark]
                exact List.mem_append_left c ends
              exact absurd mem (by decide)
          · exact ⟨d, rfl, rfl⟩
        rw [List.append_assoc] at found
        have whole := gapBefore_block (r := r) (by
          rw [List.append_assoc]
          exact block_insert found inner noStar) (gapBefore_of_splitGap next)
        refine .inr ?_
        simpa using whole
  | case8 => cases h
  | case9 =>
    cases h
    obtain ⟨rfl, rfl⟩ := List.append_eq_nil_iff.1 split.symm
    cases last
  | case10 =>
    cases h
    obtain ⟨rfl, rfl⟩ := List.append_eq_nil_iff.1 split.symm
    cases last

section Insert

variable {p q extra : List Char} (line : p = [] ∨ p.getLast? = some '\n') (noStar : '*' ∉ extra)

include line noStar

theorem gapBefore_insert {rest : List Char} (h : GapBefore (p ++ q) rest) :
    (ClosedGap p ∧ GapBefore q rest) ∨ GapBefore (p ++ (extra ++ q)) rest := by
  rcases line with rfl | last
  · exact .inl ⟨closedGap_nil, h⟩
  · exact splitGap_insert (h 0) noStar rfl last

theorem closedGap_insert (closed : ClosedGap (p ++ q)) :
    (ClosedGap p ∧ ClosedGap q) ∨ ClosedGap (p ++ (extra ++ q)) := by
  have before : GapBefore (p ++ q) ['x'] := fun offset => closed offset ['x'] (by decide)
  rcases gapBefore_insert line noStar before with ⟨first, second⟩ | whole
  · exact .inl ⟨first, second.closed (List.cons_ne_nil _ _)⟩
  · exact .inr (whole.closed (List.cons_ne_nil _ _))

theorem endsGap_insert (ends : EndsGap (p ++ q)) :
    (ClosedGap p ∧ EndsGap q) ∨ EndsGap (p ++ (extra ++ q)) := by
  simp only [← gapBefore_nil_iff] at ends ⊢
  exact gapBefore_insert line noStar ends

end Insert

/-- Behind the gap that a text ends with, a line goes into a comment, unless the gap is closed. -/
theorem splitGap_append {offset : Nat} {cs gap rest line : List Char}
    (h : splitGap offset cs = .ok (gap, rest)) (nothing : rest = []) (noBreak : '\n' ∉ line) :
    ClosedGap gap ∨ GapBefore (gap ++ (line ++ ['\n'])) [] := by
  fun_induction splitGap offset cs generalizing gap with
  | case1 => cases h; exact .inl closedGap_nil
  | case2 offset c r blank g s found ih =>
    cases h
    rcases ih found with closed | ends
    · exact .inl (closedGap_blank blank closed)
    · exact .inr (gapBefore_blank blank ends)
  | case3 => cases h
  | case4 =>
    rename_i text comment _ gap rest found _ ih
    cases h
    have inLine := not_mem_takeWhile_line text
    cases gap with
    | nil =>
      have noBreak : '\n' ∉ comment ++ line := by
        rw [List.mem_append]
        exact not_or.2 ⟨inLine, noBreak⟩
      have whole := gapBefore_line noBreak (gapBefore_blank (by decide)
        (gapBefore_nil_iff.2 fun offset => by rw [splitGap]))
      refine .inr ?_
      simpa using whole
    | cons d gap =>
      obtain rfl := head_behind_line found
      rcases ih found with closed | ends
      · exact .inl (closedGap_line inLine closed)
      · have whole := gapBefore_line inLine ends
        refine .inr ?_
        simpa using whole
  | case5 => cases h
  | case6 => cases h
  | case7 =>
    rename_i text body r found _ gap rest next _ ih
    cases h
    have block := splitFirst?_eq_some found
    rw [block] at found
    rcases ih next with closed | ends
    · exact .inl (closedGap_block found closed)
    · have whole := gapBefore_block found ends
      refine .inr ?_
      simpa using whole
  | case8 => cases h
  | case9 => cases h; exact .inl closedGap_nil
  | case10 => cases h; exact .inl closedGap_nil

theorem endsGap_append {gap line : List Char} (ends : EndsGap gap) (noBreak : '\n' ∉ line) :
    ClosedGap gap ∨ EndsGap (gap ++ (line ++ ['\n'])) := by
  rw [← gapBefore_nil_iff]
  exact splitGap_append (ends 0) rfl noBreak

/-! ### Lines in literals -/

/-- Inside of a literal, what follows is read as the rest of the literal. -/
theorem splitLiteral_inside {quote : Char} {x y : List Char}
    (h : splitLiteral quote (x ++ y) = some (x ++ y, [])) (hy : y ≠ [])
    (last : x.getLast? ≠ some '\\') (z : List Char) :
    splitLiteral quote (x ++ z) =
      (splitLiteral quote z).map fun (text, rest) => (x ++ text, rest) := by
  induction n : x.length using Nat.strongRecOn generalizing x with
  | ind n ih =>
    cases x with
    | nil =>
      rw [List.nil_append]
      cases splitLiteral quote z <;> rfl
    | cons c x =>
      have inner : x.getLast? ≠ some '\\' := by
        intro ends
        exact last (by rw [List.getLast?_cons, ends]; rfl)
      rw [List.cons_append, splitLiteral.eq_def] at h ⊢
      dsimp only at h ⊢
      split at h
      · rename_i escape
        rw [if_pos escape]
        cases x with
        | nil => exact absurd (by rw [escape]; rfl) last
        | cons d x =>
          have inner' : x.getLast? ≠ some '\\' := by
            intro ends
            exact inner (by rw [List.getLast?_cons, ends]; rfl)
          simp only [List.cons_append, Option.map_eq_some_iff, Prod.exists, Prod.mk.injEq,
            List.cons.injEq, true_and] at h
          obtain ⟨_, _, found, rfl, rfl⟩ := h
          rw [List.cons_append]
          dsimp only
          rw [ih x.length (by rw [← n, List.length_cons, List.length_cons]; omega) found inner' rfl,
            Option.map_map]
          rfl
      · rename_i notEscape
        rw [if_neg notEscape]
        split at h
        · have rest := (Prod.mk.inj (Option.some.inj h)).2
          exact absurd (List.append_eq_nil_iff.1 rest).2 hy
        · rename_i notQuote
          rw [if_neg notQuote]
          split at h
          · cases h
          · rename_i inLine
            rw [if_neg inLine]
            simp only [Option.map_eq_some_iff, Prod.exists, Prod.mk.injEq, List.cons.injEq,
              true_and] at h
            obtain ⟨_, _, found, rfl, rfl⟩ := h
            rw [ih x.length (by rw [← n, List.length_cons]; omega) found inner rfl, Option.map_map]
            rfl

/-- Characters that mean nothing in a literal are parts of it. -/
theorem splitLiteral_plain {quote : Char} {x : List Char}
    (h : ∀ c ∈ x, c ≠ '\\' ∧ c ≠ quote ∧ (c = '\n' → quote = '\x60')) (z : List Char) :
    splitLiteral quote (x ++ z) =
      (splitLiteral quote z).map fun (text, rest) => (x ++ text, rest) := by
  induction x with
  | nil =>
    rw [List.nil_append]
    cases splitLiteral quote z <;> rfl
  | cons c x ih =>
    obtain ⟨⟨notEscape, notQuote, inLine⟩, others⟩ := List.forall_mem_cons.1 h
    rw [List.cons_append, splitLiteral.eq_def]
    dsimp only
    rw [if_neg notEscape, if_neg notQuote, if_neg fun both => both.2 (inLine both.1), ih others,
      Option.map_map]
    rfl

/-! ### Texts that cannot be read -/

def Unreadable (cs : List Char) : Prop :=
  ∀ offset s, readSource offset cs ≠ .ok s

/-- What cannot be read cannot be read behind other tokens. -/
theorem Unreadable.behind {ts : List Token} {rest : List Char} (h : Unreadable rest)
    (stable : StableBefore ts rest) : Unreadable (textOf ts rest) := by
  intro offset s read
  rw [readSource_of_stableBefore stable] at read
  cases found : readSource (offset + byteSize (textOf ts [])) rest with
  | ok s' => exact h _ s' found
  | error e =>
    rw [found] at read
    cases read

theorem startsToken_quote {quote : Char} (isQ : isQuote quote = true) (r : List Char) :
    startsToken (quote :: r) = true := by
  refine startsToken_cons ?_ ?_ r
  · simp only [isQuote, Bool.or_eq_true, beq_iff_eq] at isQ
    rcases isQ with (rfl | rfl) | rfl <;> decide
  · rintro rfl
    exact absurd isQ (by decide)

theorem unreadable_literal {quote : Char} {gap r : List Char} (closed : ClosedGap gap)
    (isQ : isQuote quote = true) (h : splitLiteral quote r = none) :
    Unreadable (gap ++ quote :: r) := by
  intro offset s read
  have cut := closed offset _ (startsToken_quote isQ r)
  rw [readSource] at read
  split at read
  · cases read
  · rename_i found
    rw [cut] at found
    cases found
  · rename_i found
    rw [cut] at found
    cases found
    dsimp only at read
    split at read
    · cases read
    · rename_i token
      rw [splitToken, if_pos isQ, h] at token
      cases token

end OpenApiModels.TypeScript

namespace OpenApiModels.Retyping

open Text TypeScript

/-! ### The import line -/

/-- Where the support file is imported from by a file at `path`. -/
def importPath (path : String) : String :=
  (if Path.depth path = 0 then "./" else String.join (List.replicate (Path.depth path) "../")) ++
    "branded"

/-- The tokens of the import with a gap before it. -/
def importTokens (gap : List Char) (path : String) : List Token :=
  [.word gap "import", .word [' '] "type", .mark [' '] '\x7b', .word [' '] "Branded",
    .mark [' '] '\x7d', .word [' '] "from", .literal [' '] (importPath path), .mark [] ';']

theorem toList_importPath (path : String) :
    (importPath path).toList =
      (if Path.depth path = 0 then ['.', '/']
        else (List.replicate (Path.depth path) ['.', '.', '/']).flatten) ++ "branded".toList := by
  unfold importPath
  split
  · rw [String.toList_append]
    rfl
  · rw [String.toList_append, String.toList_join, List.flatMap_replicate]
    rfl

theorem mem_importPath {path : String} {c : Char} (h : c ∈ (importPath path).toList) :
    c ∈ "./branded".toList := by
  rw [toList_importPath] at h
  have word : ∀ c ∈ "branded".toList, c ∈ "./branded".toList :=
    List.all_iff_forall_prop.1 (by decide)
  have marks : ∀ c ∈ ['.', '.', '/'], c ∈ "./branded".toList :=
    List.all_iff_forall_prop.1 (by decide)
  rcases List.mem_append.1 h with up | name
  · split at up
    · exact marks c (List.mem_cons_of_mem _ up)
    · obtain ⟨step, hs, mem⟩ := List.mem_flatten.1 up
      rw [(List.mem_replicate.1 hs).2] at mem
      exact marks c mem
  · exact word c name

theorem stringLiteral_importPath (path : String) :
    stringLiteral (importPath path).toList = '"' :: ((importPath path).toList ++ ['"']) :=
  have plain : ∀ c ∈ "./branded".toList, c ∉ escapedChars :=
    List.all_iff_forall_prop.1 (by decide)
  stringLiteral_plain fun c hc => plain c (mem_importPath hc)

theorem brandedImport_eq (path : String) :
    brandedImport path = "import type \x7b Branded \x7d from ".toList ++
      '"' :: ((importPath path).toList ++ ['"', ';']) := by
  rw [brandedImport, importPath]
  simp only [String.toList_append]
  simp

theorem textOf_importTokens (gap : List Char) (path : String) (rest : List Char) :
    textOf (importTokens gap path) rest = gap ++ (brandedImport path ++ rest) := by
  rw [brandedImport_eq]
  simp [importTokens, textOf_cons, Token.word, Token.mark, Token.literal, stringLiteral_importPath]

theorem stableBefore_importTokens {gap : List Char} (closed : ClosedGap gap) (path : String)
    (rest : List Char) : StableBefore (importTokens gap path) rest := by
  have names : Token.IsName "import" ∧ Token.IsName "type" ∧ Token.IsName "Branded" ∧
      Token.IsName "from" := by
    refine ⟨?_, ?_, ?_, ?_⟩ <;> exact Token.isName_of_chars rfl (by decide)
  have stop : isNameChar ' ' = false := by decide
  refine ⟨closed, Token.fits_word names.1 stop, closedGap_space, Token.fits_word names.2.1 stop,
    closedGap_space, ?_, closedGap_space, Token.fits_word names.2.2.1 stop, closedGap_space, ?_,
    closedGap_space, Token.fits_word names.2.2.2 stop, closedGap_space, Token.fits_literal _ _ _,
    closedGap_nil, ?_, trivial⟩ <;>
    exact Token.fits_mark (by decide) (by decide) (by decide) (by decide) (by decide)

/-! ### Import lines in literals -/

theorem unreadable_up {rest : List Char} (h : Unreadable rest)
    (slash : rest.head? ≠ some '/') (star : rest.head? ≠ some '*') :
    Unreadable ('.' :: '/' :: rest) ∧ Unreadable ('.' :: '.' :: '/' :: rest) := by
  have point : ∀ rest, (Token.mark [] '.').Fits rest := fun rest =>
    Token.fits_mark (by decide) (by decide) (by decide) (by decide) (by decide)
  have up : (Token.mark [] '/').Fits rest := by
    refine ⟨'/', [], rfl, ?_, fun _ => ?_⟩
    · cases rest with
      | nil => rfl
      | cons c rest =>
        have slash : c ≠ '/' := fun same => slash (congrArg some same)
        have star : c ≠ '*' := fun same => star (congrArg some same)
        change startsToken ('/' :: c :: rest) = true
        simp [startsToken, isBlank_slash, slash, star]
    · exact Token.splitToken_append_iff.2 (.inr (.inr (.inr
        ⟨by decide, by decide, by decide, rfl, rfl⟩)))
  have here : StableBefore [.mark [] '.', .mark [] '/'] rest :=
    ⟨closedGap_nil, point _, closedGap_nil, up, trivial⟩
  have above : StableBefore [.mark [] '.', .mark [] '.', .mark [] '/'] rest :=
    ⟨closedGap_nil, point _, here⟩
  exact ⟨h.behind here, h.behind above⟩

/-- Behind the first quote of the import, the text goes on with a literal that is left open. -/
theorem unreadable_importPath (path : String) (rest : List Char) :
    Unreadable ((importPath path).toList ++ '"' :: ';' :: '\n' :: rest) := by
  have openLiteral : Unreadable ('"' :: ';' :: '\n' :: rest) :=
    unreadable_literal closedGap_nil (by decide) (by
      rw [← List.singleton_append, splitLiteral_plain (List.all_iff_forall_prop.1 (by decide)),
        splitLiteral.eq_def]
      rfl)
  have name : Unreadable ("branded".toList ++ '"' :: ';' :: '\n' :: rest) := by
    have isName : Token.IsName "branded" := Token.isName_of_chars rfl (by decide)
    have stop : isNameChar '"' = false := by decide
    have word : StableBefore [.word [] "branded"] ('"' :: ';' :: '\n' :: rest) :=
      ⟨closedGap_nil, Token.fits_word isName stop, trivial⟩
    exact openLiteral.behind word
  rw [toList_importPath, List.append_assoc]
  split
  · exact (unreadable_up name (by simp) (by simp)).1
  · generalize Path.depth path = depth
    -- each step up leads to a further one or to the name
    have steps : ∀ n, Unreadable ((List.replicate n ['.', '.', '/']).flatten ++
          ("branded".toList ++ '"' :: ';' :: '\n' :: rest)) ∧
        ((List.replicate n ['.', '.', '/']).flatten ++
          ("branded".toList ++ '"' :: ';' :: '\n' :: rest)).head? ≠ some '/' ∧
        ((List.replicate n ['.', '.', '/']).flatten ++
          ("branded".toList ++ '"' :: ';' :: '\n' :: rest)).head? ≠ some '*' := by
      intro n
      induction n with
      | zero => exact ⟨name, by simp, by simp⟩
      | succ n ih =>
        rw [List.replicate_succ, List.flatten_cons, List.append_assoc]
        exact ⟨(unreadable_up ih.1 ih.2.1 ih.2.2).2, by simp, by simp⟩
    exact (steps depth).1

theorem mem_brandedImport {path : String} {c : Char} (h : c ∈ brandedImport path) :
    c ∈ "import type \x7b Branded \x7d from \"./branded\";".toList := by
  rw [brandedImport_eq] at h
  have first : ∀ c ∈ "import type \x7b Branded \x7d from ".toList,
      c ∈ "import type \x7b Branded \x7d from \"./branded\";".toList :=
    List.all_iff_forall_prop.1 (by decide)
  have second : ∀ c ∈ "./branded".toList,
      c ∈ "import type \x7b Branded \x7d from \"./branded\";".toList :=
    List.all_iff_forall_prop.1 (by decide)
  rcases List.mem_append.1 h with mem | mem
  · exact first c mem
  rcases List.mem_cons.1 mem with rfl | mem
  · decide
  have third : ∀ c ∈ ['"', ';'],
      c ∈ "import type \x7b Branded \x7d from \"./branded\";".toList :=
    List.all_iff_forall_prop.1 (by decide)
  rcases List.mem_append.1 mem with mem | mem
  · exact second c (mem_importPath mem)
  · exact third c mem

/-- A literal over lines stays one with an import line in it only if it has back quotes. -/
theorem literal_insert {quote : Char} {gap x y : List Char} (closed : ClosedGap gap)
    (isQ : isQuote quote = true)
    (h : splitLiteral quote (x ++ y) = some (x ++ y, [])) (hy : y ≠ [])
    (last : x.getLast? = some '\n') (path : String) (rest : List Char) :
    splitLiteral quote (x ++ (brandedImport path ++ '\n' :: y)) =
        some (x ++ (brandedImport path ++ '\n' :: y), []) ∨
      Unreadable (gap ++ quote :: (x ++ (brandedImport path ++ '\n' :: (y ++ rest)))) := by
  have inside := splitLiteral_inside h hy (by rw [last]; decide)
  have own : splitLiteral quote y = some (y, []) := by
    have again := inside y
    rw [h] at again
    cases found : splitLiteral quote y with
    | none =>
      rw [found] at again
      cases again
    | some p =>
      rw [found] at again
      obtain ⟨text, rest'⟩ := p
      obtain ⟨texts, rests⟩ := Prod.mk.inj (Option.some.inj again)
      rw [List.append_cancel_left texts, ← rests]
  simp only [isQuote, Bool.or_eq_true, beq_iff_eq] at isQ
  have plain : ∀ c ∈ "import type \x7b Branded \x7d from \"./branded\";".toList,
      c ≠ '\\' ∧ c ≠ '\'' ∧ c ≠ '\x60' ∧ c ≠ '\n' := List.all_iff_forall_prop.1 (by decide)
  rcases isQ with (rfl | rfl) | rfl
  · right
    have before : ∀ c ∈ "import type \x7b Branded \x7d from ".toList,
        c ≠ '\\' ∧ c ≠ '"' ∧ (c = '\n' → '"' = '\x60') := List.all_iff_forall_prop.1 (by decide)
    have literal : ∀ z, splitLiteral '"' (x ++ ("import type \x7b Branded \x7d from ".toList ++
        '"' :: z)) = some (x ++ ("import type \x7b Branded \x7d from ".toList ++ ['"']), z) := by
      intro z
      rw [inside, splitLiteral_plain before, splitLiteral.eq_def]
      rfl
    have stable (rest : List Char) : StableBefore [⟨gap, .literal,
        '"' :: (x ++ ("import type \x7b Branded \x7d from ".toList ++ ['"'])), 0⟩] rest :=
      ⟨closed, ⟨'"', _, rfl, startsToken_cons (by decide) (by decide) _, fun _ =>
        Token.splitToken_append_iff.2 (.inl ⟨by decide, rfl, literal []⟩)⟩, trivial⟩
    have unreadable := (unreadable_importPath path (y ++ rest)).behind (stable _)
    rw [textOf_cons, textOf_nil] at unreadable
    rw [brandedImport_eq]
    simpa using unreadable
  · right
    refine unreadable_literal closed (by decide) ?_
    rw [inside, splitLiteral_plain, splitLiteral.eq_def]
    · rfl
    · intro c hc
      obtain ⟨escape, single, -, line⟩ := plain c (mem_brandedImport hc)
      exact ⟨escape, single, fun isLine => absurd isLine line⟩
  · left
    rw [inside, splitLiteral_plain, ← List.singleton_append, splitLiteral_plain, own]
    · rfl
    · intro c hc
      rw [List.mem_singleton.1 hc]
      decide
    · intro c hc
      obtain ⟨escape, -, back, line⟩ := plain c (mem_brandedImport hc)
      exact ⟨escape, back, fun isLine => absurd isLine line⟩

/-! ### Import lines among tokens -/

theorem getLast?_of_splitLiteral {quote : Char} {cs text rest : List Char}
    (h : splitLiteral quote cs = some (text, rest)) : text.getLast? = some quote := by
  fun_induction splitLiteral quote cs generalizing text with
  | case1 => cases h
  | case2 => cases h
  | case3 d r ih =>
    simp only [Option.map_eq_some_iff, Prod.exists, Prod.mk.injEq] at h
    obtain ⟨inner, _, found, rfl, rfl⟩ := h
    rw [List.getLast?_cons, List.getLast?_cons, ih found]
    rfl
  | case4 => cases h; rfl
  | case5 => cases h
  | case6 c r _ _ _ ih =>
    simp only [Option.map_eq_some_iff, Prod.exists, Prod.mk.injEq] at h
    obtain ⟨inner, _, found, rfl, rfl⟩ := h
    rw [List.getLast?_cons, ih found]
    rfl

/-- A token with a line break in it is a literal. -/
theorem literal_of_break {t : Token} {rest : List Char} (fits : t.Fits rest) (h : '\n' ∈ t.text) :
    ∃ quote r, t.text = quote :: r ∧ isQuote quote = true ∧ t.kind = .literal ∧
      splitLiteral quote r = some (r, []) := by
  obtain ⟨c, r, text, starts, split⟩ := fits
  have split := split 0
  rw [text, Token.splitToken_append_iff] at split
  have inside : '\n' ∈ r := by
    rw [text] at h starts
    rcases List.mem_cons.1 h with rfl | mem
    · cases starts
    · exact mem
  have others : isNameChar '\n' = false ∧ isNumberChar '\n' = false := by decide
  rcases split with ⟨isQ, kind, literal⟩ | ⟨-, -, -, chars, -⟩ | ⟨-, -, -, -, chars, -⟩ |
    ⟨-, -, -, -, rfl⟩
  · exact ⟨c, r, text, isQ, kind, literal⟩
  · rw [chars _ inside] at others
    exact absurd others.2 (by decide)
  · rw [chars _ inside] at others
    exact absurd others.1 (by decide)
  · cases inside

theorem getLast?_text_ne {t : Token} {rest : List Char} (fits : t.Fits rest) :
    t.text.getLast? ≠ some '\n' := by
  intro last
  obtain ⟨quote, r, text, isQ, -, literal⟩ :=
    literal_of_break fits (List.mem_of_getLast? last)
  rw [text, List.getLast?_cons, getLast?_of_splitLiteral literal] at last
  obtain rfl : quote = '\n' := Option.some.inj last
  cases isQ

end OpenApiModels.Retyping
