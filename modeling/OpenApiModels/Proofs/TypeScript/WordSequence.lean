import OpenApiModels.Proofs.Json.StringText
import OpenApiModels.Proofs.TypeScript.SchemaReading
import OpenApiModels.Proofs.TypeScript.WholeTexts

/-!
# What stands behind words

In a settled row of tokens no import starts, and no declaration has a name with a small first
letter. A calm part of a line is read as such a row (`IsCalm`).
-/

namespace OpenApiModels.TypeScript

open Text

/-! ### Tokens in a row -/

/-- Each time the word stands among the tokens, such a token stands behind it. -/
def Followed (word : String) (P : Token → Prop) (ts : List Token) : Prop :=
  ∀ a t b, ts = a ++ t :: b → t.isWord word = true → ∃ u b', b = u :: b' ∧ P u

section Followed

variable {word : String} {P : Token → Prop} {ts us : List Token} {t : Token}

theorem followed_cons :
    Followed word P (t :: ts) ↔
      (t.isWord word = true → ∃ u b, ts = u :: b ∧ P u) ∧ Followed word P ts := by
  constructor
  · intro h
    exact ⟨h [] t ts rfl, fun a u b split => h (t :: a) u b (by rw [split]; rfl)⟩
  · rintro ⟨first, others⟩ a u b split
    cases a with
    | nil =>
      obtain ⟨rfl, rfl⟩ := List.cons.inj split
      exact first
    | cons v a =>
      obtain ⟨rfl, rfl⟩ := List.cons.inj split
      exact others a u b rfl

theorem followed_of_not (h : ∀ t ∈ ts, t.isWord word = false) : Followed word P ts := by
  rintro a t b rfl isWord
  rw [h t (by simp)] at isWord
  cases isWord

theorem Followed.mono {Q : Token → Prop} (h : Followed word P ts) (weaker : ∀ t, P t → Q t) :
    Followed word Q ts := by
  intro a t b split isWord
  obtain ⟨u, b', rest, holds⟩ := h a t b split isWord
  exact ⟨u, b', rest, weaker u holds⟩

theorem Followed.append (first : Followed word P ts) (second : Followed word P us) :
    Followed word P (ts ++ us) := by
  induction ts with
  | nil => exact second
  | cons t ts ih =>
    rw [followed_cons] at first
    rw [List.cons_append, followed_cons]
    refine ⟨fun isWord => ?_, ih first.2⟩
    obtain ⟨u, b, rfl, here⟩ := first.1 isWord
    exact ⟨u, b ++ us, rfl, here⟩

theorem followed_flatMap {α : Type} {f : α → List Token} {xs : List α}
    (h : ∀ x ∈ xs, Followed word P (f x)) : Followed word P (xs.flatMap f) := by
  induction xs with
  | nil => exact followed_of_not nofun
  | cons x xs ih =>
    obtain ⟨first, others⟩ := List.forall_mem_cons.1 h
    rw [List.flatMap_cons]
    exact first.append (ih others)

end Followed

/-- The token is a mark that opens no braces. -/
def Token.Continues (t : Token) : Prop :=
  t.kind = .mark ∧ t.isMark '\x7b' = false

/-- No import starts among the tokens. -/
def NoImport (ts : List Token) : Prop :=
  Followed "import" Token.Continues ts

/-- The token is no word that starts with a small letter. -/
def Token.NotSmall (t : Token) : Prop :=
  t.kind = .word → t.text.head?.any Char.isLower = false

/-- No word behind `enum` starts with a small letter. -/
def EnumsApart (ts : List Token) : Prop :=
  Followed "enum" Token.NotSmall ts

structure Settled (ts : List Token) : Prop where
  imports : NoImport ts
  enums : EnumsApart ts

section Settled

variable {ts us : List Token} {t u : Token}

theorem Settled.append (first : Settled ts) (second : Settled us) : Settled (ts ++ us) where
  imports := first.imports.append second.imports
  enums := first.enums.append second.enums

theorem settled_of_others (h : ∀ t ∈ ts, t.isWord "import" = false ∧ t.isWord "enum" = false) :
    Settled ts where
  imports := followed_of_not fun t ht => (h t ht).1
  enums := followed_of_not fun t ht => (h t ht).2

theorem isWord_of_kind_ne (h : t.kind ≠ .word) (word : String) : t.isWord word = false := by
  simp [Token.isWord, h]

theorem settled_of_kind_ne (h : ∀ t ∈ ts, t.kind ≠ .word) : Settled ts :=
  settled_of_others fun t ht => ⟨isWord_of_kind_ne (h t ht) _, isWord_of_kind_ne (h t ht) _⟩

/-- In front of a mark any word can stand. -/
theorem settled_cons_mark (mark : u.Continues) (h : Settled (u :: ts)) : Settled (t :: u :: ts) where
  imports := followed_cons.2 ⟨fun _ => ⟨u, ts, rfl, mark⟩, h.imports⟩
  enums := followed_cons.2 ⟨fun _ => ⟨u, ts, rfl, fun word => by rw [mark.1] at word; cases word⟩,
    h.enums⟩

end Settled

/-! ### Words and marks -/

section Reading

theorem tokenizes_name {name : String} (h : Token.IsName name) :
    Tokenizes name.toList [.word [] name] := by
  intro rest stop
  have notName : rest.head?.any isNameChar = false :=
    stop.any_eq_false fun d hd => by simp [hd]
  have stable : StableBefore [Token.word [] name] rest :=
    ⟨closedGap_nil, Token.fits_word h notName, trivial⟩
  have reads := bareTokens_textOf stable
  rw [textOf_cons] at reads
  exact reads

theorem noBreak_isName {name : String} (h : Token.IsName name) : '\n' ∉ name.toList := by
  obtain ⟨c, r, text, chars⟩ := h
  rw [text, List.mem_cons, not_or]
  refine ⟨?_, fun mem => absurd (chars.chars _ mem) (by decide)⟩
  rintro rfl
  exact absurd chars.notBlank (by decide)

/-- A character that is a token of its own. -/
def isOwnMark (c : Char) : Bool :=
  !isBlank c && c != '/' && !isQuote c && !c.isDigit && !isNameStart c

/-- The marks of a text that is made of marks and blanks. -/
def marksOf (cs : List Char) : List Token :=
  (cs.filter fun c => !isBlank c).map fun c => .mark [] c

theorem readsAs_marks {cs : List Char} (h : cs.all (fun c => isBlank c || isOwnMark c) = true) :
    ReadsAs cs (marksOf cs) := by
  induction cs with
  | nil => exact readsAs_nil
  | cons c cs ih =>
    rw [List.all_cons, Bool.and_eq_true] at h
    have first : ReadsAs [c] (marksOf [c]) := by
      cases blank : isBlank c with
      | true =>
        rw [marksOf, List.filter_cons_of_neg (by simp [blank])]
        exact readsAs_blank blank
      | false =>
        have mark := h.1
        rw [blank, Bool.false_or, isOwnMark] at mark
        simp only [Bool.and_eq_true, Bool.not_eq_true', bne_iff_ne] at mark
        obtain ⟨⟨⟨⟨notBlank, notSlash⟩, notQuote⟩, notDigit⟩, notName⟩ := mark
        rw [marksOf, List.filter_cons_of_pos (by simp [blank])]
        intro rest
        have stable : StableBefore [Token.mark [] c] rest :=
          ⟨closedGap_nil, Token.fits_mark notBlank notSlash notQuote notDigit notName, trivial⟩
        have reads := bareTokens_textOf stable
        rw [textOf_cons] at reads
        exact reads
    have split : marksOf (c :: cs) = marksOf [c] ++ marksOf cs := by
      rw [marksOf, marksOf, marksOf, ← List.map_append, ← List.filter_append]
      rfl
    rw [split]
    exact first.append (ih h.2)

theorem kind_of_mem_marksOf {cs : List Char} {t : Token} (h : t ∈ marksOf cs) : t.kind = .mark := by
  obtain ⟨c, -, rfl⟩ := List.mem_map.1 h
  rfl

theorem settled_marksOf (cs : List Char) : Settled (marksOf cs) :=
  settled_of_kind_ne fun t ht => by simp [kind_of_mem_marksOf ht]

end Reading

/-! ### Texts of types -/

/-- The text is a part of a line in which no import and no declaration starts. -/
structure IsCalm (text : List Char) : Prop where
  reads : ∃ ts, Tokenizes text ts ∧ Settled ts
  line : '\n' ∉ text

/-- The text consists of marks and spaces. -/
def isPunctuation (cs : List Char) : Bool :=
  cs.all fun c => c == ' ' || isOwnMark c

theorem noBreak_of_isPunctuation {cs : List Char} (h : isPunctuation cs = true) : '\n' ∉ cs := by
  intro mem
  exact absurd (List.all_eq_true.1 h _ mem) (by decide)

theorem readsAs_punctuation {cs : List Char} (h : isPunctuation cs = true) :
    ReadsAs cs (marksOf cs) := by
  refine readsAs_marks (List.all_eq_true.2 fun c hc => ?_)
  have mark := List.all_eq_true.1 h c hc
  rw [Bool.or_eq_true, beq_iff_eq] at mark
  rcases mark with rfl | own
  · decide
  · simp [own]

section IsCalm

variable {a b : List Char}

theorem IsCalm.append (first : IsCalm a) (second : IsCalm b) (ends : StopsWord b) :
    IsCalm (a ++ b) := by
  obtain ⟨ts, reads, settled⟩ := first.reads
  obtain ⟨us, reads', settled'⟩ := second.reads
  refine ⟨⟨ts ++ us, reads.append reads' ends, settled.append settled'⟩, ?_⟩
  rw [List.mem_append, not_or]
  exact ⟨first.line, second.line⟩

theorem isCalm_punctuation (h : isPunctuation a = true) : IsCalm a where
  reads := ⟨_, (readsAs_punctuation h).tokenizes, settled_marksOf a⟩
  line := noBreak_of_isPunctuation h

theorem IsCalm.behind (h : IsCalm b) (marks : isPunctuation a = true) : IsCalm (a ++ b) := by
  obtain ⟨ts, reads, settled⟩ := h.reads
  refine ⟨⟨_, (readsAs_punctuation marks).append_tokenizes reads,
    (settled_marksOf a).append settled⟩, ?_⟩
  rw [List.mem_append, not_or]
  exact ⟨noBreak_of_isPunctuation marks, h.line⟩

theorem IsCalm.before (h : IsCalm a) (marks : isPunctuation b = true) (ends : StopsWord b) :
    IsCalm (a ++ b) :=
  h.append (isCalm_punctuation marks) ends

theorem noBreak_stringText (s : String) : '\n' ∉ Json.stringText s :=
  fun mem => absurd (Json.le_toNat_of_mem_stringText mem) (by decide)

theorem readsAs_stringText (s : String) :
    ReadsAs (Json.stringText s) [⟨[], .literal, Json.stringText s, 0⟩] := by
  intro rest
  have reads := bareTokens_literal (by decide) (splitLiteral_stringText s.toList) rest
  rw [← List.cons_append] at reads
  exact reads

/-- Without the letter that `import` and `enum` share, there is neither of them. -/
theorem isCalm_of_isWhole (whole : IsWhole a) (letter : 'm' ∉ a) (line : '\n' ∉ a) : IsCalm a where
  reads := by
    obtain ⟨ts, reads, inside⟩ := exists_tokenizes whole
    refine ⟨ts, reads, settled_of_others fun t ht => ⟨?_, ?_⟩⟩
    all_goals
      rw [Bool.eq_false_iff, Ne, Token.isWord_iff]
      rintro ⟨-, same⟩
      exact letter (inside t ht (by rw [same]; decide))
  line := line

/-- A text in which neither quotes and slashes nor that letter stand. -/
theorem isCalm_plain (h : a.all (fun c => isPlain c && c != 'm' && c != '\n') = true) :
    IsCalm a := by
  have each : ∀ c ∈ a, isPlain c = true ∧ c ≠ 'm' ∧ c ≠ '\n' := by
    intro c hc
    have here := List.all_eq_true.1 h c hc
    simp only [Bool.and_eq_true, bne_iff_ne] at here
    exact ⟨here.1.1, here.1.2, here.2⟩
  exact isCalm_of_isWhole (isWhole_of_all (List.all_eq_true.2 fun c hc => (each c hc).1))
    (fun mem => (each _ mem).2.1 rfl) fun mem => (each _ mem).2.2 rfl

/-! ### Keys -/

theorem lt_of_isAsciiNameChar {c : Char} (h : isAsciiNameChar c = true) : c.toNat < 0x80 := by
  by_contra beyond
  simp only [isAsciiNameChar, Bool.or_eq_true, beq_iff_eq] at h
  rcases h with (letter | rfl) | rfl
  · change ((decide ('A'.val ≤ c.val ∧ c.val ≤ 'Z'.val) || c.isLower) ||
      (decide ('0'.val ≤ c.val) && decide (c.val ≤ '9'.val))) = true at letter
    simp only [isLower_of_beyondAscii beyond, Bool.or_false, Bool.or_eq_true, Bool.and_eq_true,
      decide_eq_true_eq] at letter
    have ends : 'Z'.toNat < 0x80 ∧ '9'.toNat < 0x80 := by decide
    rcases letter with ⟨-, last⟩ | ⟨-, last⟩
    · exact beyond (Nat.lt_of_le_of_lt last ends.1)
    · exact beyond (Nat.lt_of_le_of_lt last ends.2)
  · exact beyond (by decide)
  · exact beyond (by decide)

/-- The characters of a bare key go on with a name and are no blanks. -/
theorem isNameChar_of_isAsciiNameChar {c : Char} (h : isAsciiNameChar c = true) :
    isNameChar c = true ∧ isBlank c = false := by
  have ascii : ∀ n < 0x80, isAsciiNameChar (Char.ofNat n) = true →
      isNameChar (Char.ofNat n) = true ∧ isBlank (Char.ofNat n) = false := by
    decide
  have here := ascii c.toNat (lt_of_isAsciiNameChar h)
  rw [Char.ofNat_toNat] at here
  exact here h

theorem isName_of_isBareKey {name : String} (h : isBareKey name.toList = true) :
    Token.IsName name := by
  have ascii : ∀ n < 0x80, isAsciiNameStart (Char.ofNat n) = true →
      (!isBlank (Char.ofNat n) && !isQuote (Char.ofNat n) && !(Char.ofNat n).isDigit &&
        isNameStart (Char.ofNat n)) = true := by
    decide
  rw [isBareKey, Bool.and_eq_true, List.all_eq_true] at h
  obtain ⟨start, chars⟩ := h
  cases text : name.toList with
  | nil =>
    rw [text] at start
    cases start
  | cons c r =>
    rw [text] at start chars
    obtain ⟨first, others⟩ := List.forall_mem_cons.1 chars
    have here := ascii c.toNat (lt_of_isAsciiNameChar first)
    rw [Char.ofNat_toNat] at here
    refine Token.isName_of_chars text ?_
    rw [Bool.and_eq_true, List.all_eq_true]
    exact ⟨here start, fun d hd => (isNameChar_of_isAsciiNameChar (others d hd)).1⟩

/-- The token of a key. -/
def keyToken (key : String) : Token :=
  if isBareKey key.toList then .word [] key else ⟨[], .literal, key.toList, 0⟩

theorem kind_keyToken_ne (key : String) : (keyToken key).kind ≠ .mark := by
  unfold keyToken
  split <;> exact TokenKind.noConfusion

theorem text_keyToken (key : String) : (keyToken key).text = key.toList := by
  unfold keyToken
  split <;> rfl

theorem tokenizes_propertyKey (name : String) :
    Tokenizes (propertyKey name).toList [keyToken (propertyKey name)] := by
  unfold propertyKey
  split
  · rename_i bare
    rw [keyToken, if_pos bare]
    exact tokenizes_name (isName_of_isBareKey bare)
  · have quoted : isBareKey (Json.stringText name) = false := rfl
    rw [keyToken, String.toList_ofList, if_neg (by simp [quoted])]
    exact (readsAs_stringText name).tokenizes

theorem noBreak_propertyKey (name : String) : '\n' ∉ (propertyKey name).toList := by
  unfold propertyKey
  split
  · rename_i bare
    exact noBreak_isName (isName_of_isBareKey bare)
  · rw [String.toList_ofList]
    exact noBreak_stringText name

end IsCalm

end OpenApiModels.TypeScript
