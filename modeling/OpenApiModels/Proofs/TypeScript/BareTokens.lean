import OpenApiModels.Proofs.TypeScript.Resemblance

/-!
# Kinds and texts of tokens

What a text says, apart from its gaps, are the kinds and the texts of its tokens. A text that leaves
no literal and no comment open adds tokens of its own to whatever follows it (`ReadsAs`), and a
comment adds none.
-/

namespace OpenApiModels.TypeScript

open Text

/-- What is read from a text: its tokens without gaps and offsets. -/
def bareTokens (cs : List Char) : Option (List Token) :=
  (Source.ofText? cs).toOption.map fun s => s.tokens.map Token.bare

/-- Where a text starts matters neither to whether it can be read nor to what is read. -/
theorem bareTokens_eq (offset : Nat) (cs : List Char) :
    bareTokens cs = (readSource offset cs).toOption.map fun s => s.tokens.map Token.bare := by
  have moved {m n : Nat} {s : Source} (h : readSource m cs = .ok s) :
      readSource n cs = .ok ⟨rebase n s.tokens, s.tail⟩ := by
    have again := readSource_of_stable (stable_of_readSource h).1 n
    rwa [show textOf s.tokens s.tail = cs from text_of_readSource h] at again
  rw [bareTokens, Source.ofText?]
  cases read : readSource 0 cs with
  | ok s =>
    rw [moved read]
    exact congrArg some (map_bare_rebase offset s.tokens).symm
  | error e =>
    cases again : readSource offset cs with
    | ok s => rw [moved again] at read; cases read
    | error e => rfl

theorem readSource_openGap {offset : Nat} {cs : List Char} {e : SourceError}
    (h : splitGap offset cs = .error e) : readSource offset cs = .error e := by
  rw [readSource]
  split
  · rename_i fails
    rw [h] at fails
    cases fails
    rfl
  · rename_i ends
    rw [h] at ends
    cases ends
  · rename_i starts
    rw [h] at starts
    cases starts

theorem readSource_openToken {offset : Nat} {cs gap r : List Char} {c : Char} {e : SourceError}
    (h : splitGap offset cs = .ok (gap, c :: r))
    (token : splitToken (offset + byteSize gap) c r = .error e) :
    readSource offset cs = .error e := by
  rw [readSource]
  split
  · rename_i fails
    rw [h] at fails
    cases fails
  · rename_i ends
    rw [h] at ends
    cases ends
  · rename_i starts
    rw [h] at starts
    cases starts
    dsimp only
    split
    · rename_i fails
      rw [token] at fails
      cases fails
      rfl
    · rename_i found
      rw [token] at found
      cases found

/-- Blanks and comments in front of a text do not matter to its tokens. -/
theorem bareTokens_gap {offset : Nat} {cs gap rest : List Char}
    (h : splitGap offset cs = .ok (gap, rest)) : bareTokens cs = bareTokens rest := by
  obtain ⟨any, starts, -⟩ := splitGap_spec h
  have none := splitGap_of_startsToken starts (byteSize gap)
  rw [bareTokens_eq 0 cs, bareTokens_eq (byteSize gap) rest]
  cases rest with
  | nil => rw [readSource_end (any 0), readSource_end none]; rfl
  | cons c r =>
    have start : 0 + byteSize gap = byteSize gap + byteSize [] := by
      rw [byteSize_nil, Nat.zero_add, Nat.add_zero]
    cases token : splitToken (0 + byteSize gap) c r with
    | error e =>
      rw [readSource_openToken (any 0) token, readSource_openToken none (start ▸ token)]
    | ok split =>
      obtain ⟨kind, text, rest⟩ := split
      rw [readSource_token (any 0) token, readSource_token none (start ▸ token), start]
      cases readSource (byteSize gap + byteSize [] + byteSize text) rest <;> rfl

/-- A text with a gap in front is read like what follows the gap, if the gap is split off whatever
that is. -/
theorem bareTokens_of_splitGap (offset offset' : Nat) {cs rest : List Char}
    (extend : List Char → List Char)
    (h : splitGap offset cs = (splitGap offset' rest).map fun (gap, r) => (extend gap, r)) :
    bareTokens cs = bareTokens rest := by
  cases next : splitGap offset' rest with
  | ok found =>
    obtain ⟨gap, r⟩ := found
    rw [next] at h
    rw [bareTokens_gap h, bareTokens_gap next]
  | error e =>
    rw [next] at h
    rw [bareTokens_eq offset, bareTokens_eq offset' rest, readSource_openGap h,
      readSource_openGap next]

theorem bareTokens_blank {c : Char} (h : isBlank c = true) (rest : List Char) :
    bareTokens (c :: rest) = bareTokens rest := by
  refine bareTokens_of_splitGap 0 (0 + c.utf8Size) (c :: ·) ?_
  rw [splitGap.eq_def]
  dsimp only
  rw [if_pos h]
  cases splitGap (0 + c.utf8Size) rest <;> rfl

/-- What follows a line comment is read as if the comment was not there. -/
theorem bareTokens_line {line : List Char} (h : '\n' ∉ line) (rest : List Char) :
    bareTokens ('/' :: '/' :: (line ++ '\n' :: rest)) = bareTokens ('\n' :: rest) :=
  bareTokens_of_splitGap 0 _ _ (splitGap_line_eq (r := '\n' :: rest) 0 h (.inr rfl))

theorem bareTokens_block {body : List Char} (h : Avoids ['*', '/'] body ['*', '/'])
    (rest : List Char) :
    bareTokens ('/' :: '*' :: (body ++ '*' :: '/' :: rest)) = bareTokens rest := by
  have found : splitFirst? ['*', '/'] (body ++ '*' :: '/' :: rest) = some (body, rest) := by
    have alone := splitFirst?_of_avoids (show Avoids ['*', '/'] body (['*', '/'] ++ []) from h)
    rw [← List.append_assoc] at alone
    simpa using splitFirst?_congr rest alone
  refine bareTokens_of_splitGap 0 (0 + 4 + byteSize body)
    (fun gap => '/' :: '*' :: body ++ '*' :: '/' :: gap) ?_
  rw [splitGap, if_neg (by simp [isBlank_slash]), if_pos rfl]
  dsimp only
  split
  · rename_i none
    rw [found] at none
    cases none
  · rename_i body' r' found'
    obtain ⟨rfl, rfl⟩ := Prod.mk.inj (Option.some.inj (found'.symm.trans found))
    cases splitGap (0 + 4 + byteSize body') r' <;> rfl

/-- A text behind two slashes is a comment up to its first line break. -/
theorem bareTokens_slashes {cs : List Char} (h : '\n' ∈ cs) :
    bareTokens ('/' :: '/' :: cs) = bareTokens (cs.dropWhile (· != '\n')) := by
  obtain ⟨line, rest, rfl, unbroken⟩ := List.eq_append_cons_of_mem h
  have keep : ∀ c ∈ line, (c != '\n') = true := by
    intro c hc
    rw [bne_iff_ne]
    rintro rfl
    exact unbroken hc
  rw [bareTokens_line unbroken, List.dropWhile_append_of_pos keep]
  rfl

/-! ### Texts that are read by themselves -/

theorem bareTokens_token (offset : Nat) {c : Char} {r text rest : List Char} {kind : TokenKind}
    (starts : startsToken (c :: r) = true)
    (split : splitToken offset c r = .ok (kind, text, rest)) :
    bareTokens (c :: r) = (bareTokens rest).map (⟨[], kind, text, 0⟩ :: ·) := by
  have start : offset = offset + byteSize [] := rfl
  rw [bareTokens_eq offset,
    readSource_token (splitGap_of_startsToken starts offset) (start ▸ split),
    bareTokens_eq (offset + byteSize [] + byteSize text) rest]
  cases readSource (offset + byteSize [] + byteSize text) rest <;> rfl

theorem bareTokens_of_stable {ts : List Token} {tail : List Char} (h : Stable ts tail) :
    bareTokens (textOf ts tail) = some (ts.map Token.bare) := by
  rw [bareTokens_eq 0, readSource_of_stable h 0]
  exact congrArg some (map_bare_rebase 0 ts)

theorem bareTokens_textOf {ts : List Token} {rest : List Char} (h : StableBefore ts rest) :
    bareTokens (textOf ts rest) = (bareTokens rest).map (ts.map Token.bare ++ ·) := by
  rw [bareTokens_eq 0, readSource_of_stableBefore h,
    bareTokens_eq (0 + byteSize (textOf ts [])) rest]
  cases readSource (0 + byteSize (textOf ts [])) rest with
  | error e => rfl
  | ok s =>
    refine congrArg some ?_
    change (rebase 0 ts ++ s.tokens).map Token.bare = _
    rw [List.map_append, map_bare_rebase]

/-- Whatever follows the text, it is read as these tokens and then the rest. -/
def ReadsAs (cs : List Char) (ts : List Token) : Prop :=
  ∀ rest, bareTokens (cs ++ rest) = (bareTokens rest).map (ts ++ ·)

theorem readsAs_of_eq {cs : List Char} (h : ∀ rest, bareTokens (cs ++ rest) = bareTokens rest) :
    ReadsAs cs [] := by
  intro rest
  rw [h]
  cases bareTokens rest <;> rfl

theorem readsAs_nil : ReadsAs [] [] :=
  readsAs_of_eq fun _ => rfl

theorem ReadsAs.append {cs ds : List Char} {ts us : List Token} (first : ReadsAs cs ts)
    (second : ReadsAs ds us) : ReadsAs (cs ++ ds) (ts ++ us) := by
  intro rest
  rw [List.append_assoc, first, second, Option.map_map]
  refine congrArg (Option.map · (bareTokens rest)) (funext fun more => ?_)
  exact (List.append_assoc ts us more).symm

theorem ReadsAs.flatMap {α : Type} {f : α → List Char} {g : α → List Token} {xs : List α}
    (h : ∀ x ∈ xs, ReadsAs (f x) (g x)) : ReadsAs (xs.flatMap f) (xs.flatMap g) := by
  induction xs with
  | nil => exact readsAs_nil
  | cons x xs ih =>
    obtain ⟨first, others⟩ := List.forall_mem_cons.1 h
    rw [List.flatMap_cons, List.flatMap_cons]
    exact first.append (ih others)

theorem readsAs_blank {c : Char} (h : isBlank c = true) : ReadsAs [c] [] :=
  readsAs_of_eq fun rest => bareTokens_blank h rest

theorem readsAs_newline : ReadsAs ['\n'] [] :=
  readsAs_blank (by decide)

theorem readsAs_line {line : List Char} (h : '\n' ∉ line) :
    ReadsAs ('/' :: '/' :: (line ++ ['\n'])) [] := by
  refine readsAs_of_eq fun rest => ?_
  rw [List.cons_append, List.cons_append, List.append_assoc, List.singleton_append,
    bareTokens_line h, bareTokens_blank (by decide)]

theorem readsAs_block {body : List Char} (h : Avoids ['*', '/'] body ['*', '/']) :
    ReadsAs ('/' :: '*' :: (body ++ ['*', '/'])) [] := by
  refine readsAs_of_eq fun rest => ?_
  rw [List.cons_append, List.cons_append, List.append_assoc]
  exact bareTokens_block h rest

/-- A text that is read by itself is read as a whole. -/
theorem ReadsAs.bareTokens {cs : List Char} {ts : List Token} (h : ReadsAs cs ts) :
    bareTokens cs = some ts := by
  have alone := h []
  have nothing : TypeScript.bareTokens [] = some [] := by
    rw [TypeScript.bareTokens, Source.ofText?, readSource_end (splitGap_of_startsToken rfl 0)]
    rfl
  rw [List.append_nil, nothing] at alone
  rw [alone, Option.map_some, List.append_nil]

/-! ### Texts without open literals and comments -/

/-- Characters outside of literals and comments, and whole literals. -/
inductive IsWhole : List Char → Prop where
  | nil : IsWhole []
  | char {c : Char} {cs : List Char} (notQuote : isQuote c = false) (notSlash : c ≠ '/') :
    IsWhole cs → IsWhole (c :: cs)
  | literal {quote : Char} {r cs : List Char} (isQuote : isQuote quote = true)
    (closed : splitLiteral quote r = some (r, [])) : IsWhole cs → IsWhole (quote :: (r ++ cs))

theorem IsWhole.append {cs ds : List Char} (first : IsWhole cs) (second : IsWhole ds) :
    IsWhole (cs ++ ds) := by
  induction first with
  | nil => exact second
  | char notQuote notSlash _ ih => exact .char notQuote notSlash ih
  | literal isQuote closed _ ih =>
    rw [List.cons_append, List.append_assoc]
    exact .literal isQuote closed ih

/-- The character is outside of literals and comments. -/
def isPlain (c : Char) : Bool :=
  !isQuote c && c != '/'

theorem isWhole_of_all {cs : List Char} (h : cs.all isPlain = true) : IsWhole cs := by
  induction cs with
  | nil => exact .nil
  | cons c cs ih =>
    rw [List.all_cons, Bool.and_eq_true] at h
    obtain ⟨first, others⟩ := h
    simp only [isPlain, Bool.and_eq_true, Bool.not_eq_true', bne_iff_ne] at first
    exact .char first.1 first.2 (ih others)

/-- Outside of literals a part can be cut off. -/
theorem IsWhole.behind {cs ds : List Char} (h : IsWhole (cs ++ ds))
    (noQuote : ∀ c ∈ cs, isQuote c = false) : IsWhole ds := by
  induction cs with
  | nil => exact h
  | cons c cs ih =>
    obtain ⟨first, others⟩ := List.forall_mem_cons.1 noQuote
    generalize whole : c :: cs ++ ds = text at h
    cases h with
    | nil => cases whole
    | char _ _ rest =>
      obtain ⟨rfl, rfl⟩ := List.cons.inj whole
      exact ih rest others
    | literal quoted closed rest =>
      obtain ⟨rfl, -⟩ := List.cons.inj whole
      rw [first] at quoted
      cases quoted

theorem isQuote_of_isNumberChar {c : Char} (h : isNumberChar c = true) : isQuote c = false := by
  cases quote : isQuote c with
  | false => rfl
  | true =>
    simp only [isQuote, Bool.or_eq_true, beq_iff_eq] at quote
    rcases quote with (rfl | rfl) | rfl <;> exact absurd h (by decide)

theorem isQuote_of_isNameChar {c : Char} (h : isNameChar c = true) : isQuote c = false := by
  cases quote : isQuote c with
  | false => rfl
  | true =>
    simp only [isQuote, Bool.or_eq_true, beq_iff_eq] at quote
    rcases quote with (rfl | rfl) | rfl <;> exact absurd h (by decide)

theorem IsWhole.dropWhile {p : Char → Bool} {cs : List Char} (h : IsWhole cs)
    (noQuote : ∀ c, p c = true → isQuote c = false) : IsWhole (cs.dropWhile p) := by
  rw [← List.takeWhile_append_dropWhile (p := p) (l := cs)] at h
  exact h.behind fun c hc => noQuote c (List.all_eq_true.1 List.all_takeWhile c hc)

theorem bareTokens_literal {quote : Char} {r : List Char} (quoted : isQuote quote = true)
    (closed : splitLiteral quote r = some (r, [])) (rest : List Char) :
    bareTokens (quote :: (r ++ rest)) =
      (bareTokens rest).map (⟨[], .literal, quote :: r, 0⟩ :: ·) := by
  have notGap : isBlank quote = false ∧ quote ≠ '/' := by
    simp only [isQuote, Bool.or_eq_true, beq_iff_eq] at quoted
    rcases quoted with (rfl | rfl) | rfl <;> decide
  refine bareTokens_token 0 (startsToken_cons notGap.1 notGap.2 _) ?_
  exact Token.splitToken_append_iff.2 (.inl ⟨quoted, rfl, closed⟩)

/-! ### Parts of a line -/

/-- No word and no number at the end of another text goes on here. -/
def StopsWord (rest : List Char) : Prop :=
  rest.head?.any (fun c => isNameChar c || isNumberChar c) = false

theorem StopsWord.append {a rest : List Char} (here : StopsWord a) (there : StopsWord rest) :
    StopsWord (a ++ rest) := by
  cases a with
  | nil => exact there
  | cons c a => exact here

theorem StopsWord.any_eq_false {rest : List Char} (h : StopsWord rest) {p : Char → Bool}
    (within : ∀ d, p d = true → (isNameChar d || isNumberChar d) = true) :
    rest.head?.any p = false := by
  rw [StopsWord] at h
  cases first : rest.head? with
  | none => rfl
  | some d =>
    rw [first, Option.any_some] at h
    rw [Option.any_some, Bool.eq_false_iff]
    intro holds
    rw [within d holds] at h
    cases h

/-- The text is read as the tokens wherever it stands, unless a word at its end goes on. -/
def Tokenizes (cs : List Char) (ts : List Token) : Prop :=
  ∀ rest, StopsWord rest → bareTokens (cs ++ rest) = (bareTokens rest).map (ts ++ ·)

section Tokenizes

variable {a b : List Char} {ts us : List Token}

theorem ReadsAs.tokenizes (h : ReadsAs a ts) : Tokenizes a ts :=
  fun rest _ => h rest

theorem Tokenizes.append (first : Tokenizes a ts) (second : Tokenizes b us) (ends : StopsWord b) :
    Tokenizes (a ++ b) (ts ++ us) := by
  intro rest stop
  rw [List.append_assoc, first _ (ends.append stop), second rest stop, Option.map_map]
  simp [Function.comp_def]

theorem ReadsAs.append_tokenizes (first : ReadsAs a ts) (second : Tokenizes b us) :
    Tokenizes (a ++ b) (ts ++ us) := by
  intro rest stop
  rw [List.append_assoc, first, second rest stop, Option.map_map]
  simp [Function.comp_def]

/-- A line end ends every word. -/
theorem Tokenizes.line (h : Tokenizes a ts) : ReadsAs (a ++ ['\n']) ts := by
  intro rest
  rw [List.append_assoc, h (['\n'] ++ rest) rfl, readsAs_newline]
  simp

end Tokenizes

/-- Where a run of characters ends with the text, it ends there whatever follows. -/
theorem span_ends {p : Char → Bool} {rest : List Char} (stop : rest.head?.any p = false)
    (cs : List Char) :
    (cs ++ rest).takeWhile p = cs.takeWhile p ∧
      (cs ++ rest).dropWhile p = cs.dropWhile p ++ rest := by
  induction cs with
  | nil =>
    cases rest with
    | nil => exact ⟨rfl, rfl⟩
    | cons c rest => simp_all
  | cons c cs ih => cases holds : p c <;> simp [holds, ih]

/-- Outside of literals and comments, what is no blank starts a run of characters. -/
theorem exists_run {c : Char} (notQuote : isQuote c = false) :
    ∃ kind p, (∀ d, p d = true → (isNameChar d || isNumberChar d) = true) ∧
      ∀ r, splitToken 0 c r = .ok (kind, c :: r.takeWhile p, r.dropWhile p) := by
  cases digit : c.isDigit with
  | true =>
    refine ⟨.number, isNumberChar, fun d hd => by simp [hd], fun r => ?_⟩
    simp [splitToken, notQuote, digit]
  | false =>
    cases name : isNameStart c with
    | true =>
      refine ⟨.word, isNameChar, fun d hd => by simp [hd], fun r => ?_⟩
      simp [splitToken, notQuote, digit, name]
    | false =>
      refine ⟨.mark, fun _ => false, fun _ => Bool.noConfusion, fun r => ?_⟩
      cases r <;> simp [splitToken, notQuote, digit, name]

/-- A text that leaves nothing open is read as tokens of its characters. -/
theorem exists_tokenizes {cs : List Char} (h : IsWhole cs) :
    ∃ ts, Tokenizes cs ts ∧ ∀ t ∈ ts, t.text ⊆ cs := by
  induction len : cs.length using Nat.strongRecOn generalizing cs with
  | ind n ih =>
    cases h with
    | nil => exact ⟨[], readsAs_nil.tokenizes, fun t ht => absurd ht List.not_mem_nil⟩
    | @char c cs notQuote notSlash whole =>
      rw [List.length_cons] at len
      cases blank : isBlank c with
      | true =>
        obtain ⟨ts, reads, inside⟩ := ih cs.length (by omega) whole rfl
        refine ⟨ts, fun rest stop => ?_, fun t ht => List.subset_cons_of_subset c (inside t ht)⟩
        rw [List.cons_append, bareTokens_blank blank, reads rest stop]
      | false =>
        obtain ⟨kind, p, within, split⟩ := exists_run notQuote
        have shorter := (List.dropWhile_sublist (l := cs) p).length_le
        have later : IsWhole (cs.dropWhile p) := whole.dropWhile fun d hd =>
          (Bool.or_eq_true_iff.1 (within d hd)).elim isQuote_of_isNameChar isQuote_of_isNumberChar
        obtain ⟨ts, reads, inside⟩ := ih (cs.dropWhile p).length (by omega) later rfl
        refine ⟨⟨[], kind, c :: cs.takeWhile p, 0⟩ :: ts, fun rest stop => ?_,
          List.forall_mem_cons.2
            ⟨List.cons_subset_cons c (List.takeWhile_prefix p).subset, fun t ht => ?_⟩⟩
        · obtain ⟨taken, left⟩ := span_ends (stop.any_eq_false within) cs
          have first := split (cs ++ rest)
          rw [taken, left] at first
          rw [List.cons_append, bareTokens_token 0 (startsToken_cons blank notSlash _) first,
            reads rest stop, Option.map_map]
          rfl
        · exact List.subset_cons_of_subset c
            (List.Subset.trans (inside t ht) (List.dropWhile_sublist p).subset)
    | @literal quote r cs quoted closed whole =>
      rw [List.length_cons, List.length_append] at len
      obtain ⟨ts, reads, inside⟩ := ih cs.length (by omega) whole rfl
      refine ⟨⟨[], .literal, quote :: r, 0⟩ :: ts, fun rest stop => ?_, List.forall_mem_cons.2
        ⟨List.cons_subset_cons quote (List.subset_append_left r cs), fun t ht => ?_⟩⟩
      · rw [List.cons_append, List.append_assoc, bareTokens_literal quoted closed, reads rest stop,
          Option.map_map]
        rfl
      · exact List.subset_cons_of_subset quote
          (List.Subset.trans (inside t ht) (List.subset_append_right r cs))

/-- A line in which nothing is left open is read by itself. -/
theorem exists_readsAs_line {cs : List Char} (h : IsWhole cs) :
    ∃ ts, ReadsAs (cs ++ ['\n']) ts := by
  obtain ⟨ts, reads, -⟩ := exists_tokenizes h
  exact ⟨ts, reads.line⟩

end OpenApiModels.TypeScript
