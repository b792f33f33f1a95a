import OpenApiModels.Proofs.Text.Slices
import OpenApiModels.Proofs.TypeScript.Resemblance

/-!
# Where tokens and declarations stand

Tokens and the gaps between them tile a text (`tiles_of_ofText?`), and the declarations that a scan
finds are spans of tokens, one behind the other (`declared_of_scanEnums`).
-/

namespace OpenApiModels.TypeScript

open Text

/-! ### Gaps -/

/-- Blanks and complete comments: a line comment goes up to its line break, a block comment up to
the first mark that can end it. -/
inductive IsGap : List Char → Prop where
  | nil : IsGap []
  | blank {c : Char} {gap : List Char} (isBlank : isBlank c = true) (more : IsGap gap) :
      IsGap (c :: gap)
  | line {line gap : List Char} (inLine : '\n' ∉ line) (more : IsGap gap) :
      IsGap ('/' :: '/' :: line ++ '\n' :: gap)
  | block {body gap : List Char} (first : Avoids ['*', '/'] body ['*', '/']) (more : IsGap gap) :
      IsGap ('/' :: '*' :: body ++ '*' :: '/' :: gap)

/-- A gap, or one that ends with a line comment up to the end of the text. -/
def IsTail (tail : List Char) : Prop :=
  IsGap tail ∨ ∃ gap line, tail = gap ++ '/' :: '/' :: line ∧ IsGap gap ∧ '\n' ∉ line

theorem IsGap.of_cons {c : Char} {gap : List Char} (h : IsGap (c :: gap)) (notSlash : c ≠ '/') :
    IsGap gap := by
  generalize eq : c :: gap = cs at h
  cases h with
  | nil => cases eq
  | blank _ more =>
    cases eq
    exact more
  | line | block => exact absurd (List.cons.inj eq).1 notSlash

theorem IsTail.of_cons {c : Char} {tail : List Char} (h : IsTail (c :: tail)) (notSlash : c ≠ '/') :
    IsTail tail := by
  rcases h with gap | ⟨gap, line, eq, isGap, inLine⟩
  · exact .inl (gap.of_cons notSlash)
  · cases gap with
    | nil => exact absurd (List.cons.inj eq).1 notSlash
    | cons d gap =>
      obtain ⟨rfl, rfl⟩ := List.cons.inj eq
      exact .inr ⟨gap, line, rfl, isGap.of_cons notSlash, inLine⟩

/-- What is put in front of every gap can be put in front of a tail. -/
theorem IsTail.append {front tail : List Char} (h : IsTail tail)
    (extend : ∀ {gap}, IsGap gap → IsGap (front ++ gap)) : IsTail (front ++ tail) := by
  rcases h with gap | ⟨gap, line, rfl, isGap, inLine⟩
  · exact .inl (extend gap)
  · exact .inr ⟨front ++ gap, line, by rw [List.append_assoc], extend isGap, inLine⟩

theorem avoids_of_comment {text body r : List Char}
    (h : splitFirst? ['*', '/'] text = some (body, r)) : Avoids ['*', '/'] body ['*', '/'] := by
  rw [splitFirst?_eq_some h] at h
  have alone := splitFirst?_congr [] h
  rw [List.append_assoc] at alone
  exact avoids_of_splitFirst? alone

/-- A gap in front of a line break starts with it. -/
theorem gap_at_break {offset : Nat} {cs gap rest : List Char}
    (h : splitGap offset cs = .ok (gap, rest)) (first : cs.head? = some '\n') :
    ∃ gap', gap = '\n' :: gap' := by
  obtain ⟨-, starts, -⟩ := splitGap_spec h
  rw [← append_of_splitGap h] at first
  cases gap with
  | nil =>
    obtain ⟨r, rfl⟩ := List.head?_eq_some_iff.1 first
    cases starts
  | cons d gap => exact ⟨gap, by rw [Option.some.inj first]⟩

/-- What is split off in front of a token or of the end of the text. -/
theorem isGap_of_splitGap {offset : Nat} {cs gap rest : List Char}
    (h : splitGap offset cs = .ok (gap, rest)) : IsTail gap ∧ (rest ≠ [] → IsGap gap) := by
  fun_induction splitGap offset cs generalizing gap rest with
  | case1 | case9 | case10 =>
    cases h
    exact ⟨.inl .nil, fun _ => .nil⟩
  | case2 offset c r blank g s found ih =>
    cases h
    obtain ⟨tail, isGap⟩ := ih found
    have extend {gap : List Char} (h : IsGap gap) : IsGap ([c] ++ gap) := .blank blank h
    exact ⟨tail.append extend, fun more => .blank blank (isGap more)⟩
  | case3 | case5 | case6 | case8 => cases h
  | case4 =>
    rename_i text line _ g rest found _ ih
    cases h
    obtain ⟨tail, isGap⟩ := ih found
    have inLine : '\n' ∉ line := not_mem_takeWhile_line text
    rcases dropWhile_line text with nothing | first
    · -- the comment ends the text
      rw [nothing] at found
      obtain ⟨rfl, rfl⟩ := List.append_eq_nil_iff.1 (append_of_splitGap found)
      exact ⟨.inr ⟨[], line, by simp, .nil, inLine⟩, fun more => absurd rfl more⟩
    · obtain ⟨g, rfl⟩ := gap_at_break found first
      have extend {gap : List Char} (h : IsGap gap) :
          IsGap ('/' :: '/' :: line ++ ['\n'] ++ gap) := by
        rw [List.append_assoc]
        exact .line inLine h
      have joined : '/' :: '/' :: line ++ '\n' :: g = '/' :: '/' :: line ++ ['\n'] ++ g := by
        rw [List.append_assoc]
        rfl
      rw [joined]
      exact ⟨(tail.of_cons (by decide)).append extend,
        fun more => extend ((isGap more).of_cons (by decide))⟩
  | case7 =>
    rename_i text body r found _ g rest next _ ih
    cases h
    obtain ⟨tail, isGap⟩ := ih next
    have extend {gap : List Char} (h : IsGap gap) :
        IsGap ('/' :: '*' :: body ++ ['*', '/'] ++ gap) := by
      rw [List.append_assoc]
      exact .block (avoids_of_comment found) h
    have joined : '/' :: '*' :: body ++ '*' :: '/' :: g =
        '/' :: '*' :: body ++ ['*', '/'] ++ g := by
      rw [List.append_assoc]
      rfl
    rw [joined]
    exact ⟨tail.append extend, fun more => extend (isGap more)⟩

theorem ClosedGap.isGap {gap : List Char} (h : ClosedGap gap) : IsGap gap :=
  (isGap_of_splitGap (h 0 [';'] (by decide))).2 (List.cons_ne_nil _ _)

theorem EndsGap.isTail {tail : List Char} (h : EndsGap tail) : IsTail tail :=
  (isGap_of_splitGap (h 0)).1

/-! ### Tokens -/

theorem StableBefore.of_mem {ts : List Token} {rest : List Char} (h : StableBefore ts rest)
    {t : Token} (mem : t ∈ ts) : ClosedGap t.gap ∧ t.text ≠ [] := by
  induction ts with
  | nil => cases mem
  | cons u ts ih =>
    obtain ⟨gap, fits, more⟩ := h
    rcases List.mem_cons.1 mem with rfl | mem
    · exact ⟨gap, fits.text_ne_nil⟩
    · exact ih more mem

/-- A token stands behind the tokens before it and its gap. -/
theorem start_of_rebase {offset : Nat} {a b : List Token} {t : Token}
    (h : rebase offset (a ++ t :: b) = a ++ t :: b) :
    t.start = offset + byteSize (textOf a []) + byteSize t.gap := by
  obtain ⟨-, own⟩ := rebase_parts h
  rw [rebase] at own
  exact (congrArg Token.start (List.cons.inj own).1).symm

theorem stop_of_rebase {offset : Nat} {a b : List Token} {t : Token}
    (h : rebase offset (a ++ t :: b) = a ++ t :: b) :
    t.stop = offset + byteSize (textOf (a ++ [t]) []) := by
  rw [Token.stop, start_of_rebase h, textOf_append, textOf_cons, textOf_nil,
    textOf_eq_append a (t.gap ++ _)]
  simp only [byteSize_append, byteSize_nil]
  omega

theorem pairwise_of_rebase {offset : Nat} {ts : List Token} (h : rebase offset ts = ts) :
    ts.Pairwise (fun t u => t.stop ≤ u.start) ∧ ∀ t ∈ ts, offset ≤ t.start := by
  induction ts generalizing offset with
  | nil => simp
  | cons t ts ih =>
    have start := start_of_rebase (a := []) h
    rw [rebase] at h
    obtain ⟨order, behind⟩ := ih (List.cons.inj h).2
    rw [textOf_nil, byteSize_nil, Nat.add_zero] at start
    refine ⟨.cons (fun u mem => ?_) order, List.forall_mem_cons.2 ⟨by omega, fun u mem => ?_⟩⟩
    · rw [Token.stop, start]
      exact behind u mem
    · have := behind u mem
      omega

/-- The text from the first to the last of some tokens is a slice of the text they stand in. -/
theorem slice?_tokens {a b ts : List Token} (tail : List Char) {t u : Token}
    (h : rebase 0 (a ++ (ts ++ b)) = a ++ (ts ++ b)) (first : ts.head? = some t)
    (last : ts.getLast? = some u) :
    slice? (textOf (a ++ (ts ++ b)) tail) t.start u.stop = some (Token.slice ts) := by
  obtain ⟨behind, rfl⟩ := List.head?_eq_some_iff.1 first
  obtain ⟨front, ends⟩ := List.getLast?_eq_some_iff.1 last
  have start := start_of_rebase h
  have regrouped : (a ++ front) ++ u :: b = a ++ (t :: behind ++ b) := by
    rw [List.append_assoc, List.append_cons front, ← ends]
  have stop : u.stop = 0 + byteSize (textOf (a ++ front ++ [u]) []) :=
    stop_of_rebase (by rw [regrouped]; exact h)
  have whole : textOf (t :: behind) [] = t.gap ++ Token.slice (t :: behind) := by
    simp [textOf, Source.text, Token.slice]
  refine slice?_eq_some_iff.2 ⟨textOf a [] ++ t.gap, textOf b tail, ?_, ?_, ?_⟩
  · rw [textOf_append, textOf_append, textOf_eq_append a, textOf_eq_append (t :: behind), whole]
    simp only [List.append_assoc]
  · rw [start, byteSize_append]
    omega
  · rw [stop, start, List.append_assoc, ← ends, textOf_append, whole,
      textOf_eq_append a (t.gap ++ _)]
    simp only [byteSize_append]
    omega

/-- The tokens and the gaps of a source tile the text. -/
structure Source.Tiles (s : Source) (cs : List Char) : Prop where
  text_eq : s.text = cs
  text_ne_nil : ∀ t ∈ s.tokens, t.text ≠ []
  slice : ∀ t ∈ s.tokens, slice? cs t.start t.stop = some t.text
  ordered : s.tokens.Pairwise fun t u => t.stop ≤ u.start
  isGap : ∀ t ∈ s.tokens, IsGap t.gap
  isTail : IsTail s.tail

theorem tiles_of_ofText? {cs : List Char} {s : Source} (h : Source.ofText? cs = .ok s) :
    s.Tiles cs := by
  obtain ⟨⟨before, ends⟩, based⟩ := stable_of_readSource h
  have text := text_of_ofText? h
  refine ⟨text, fun t mem => (before.of_mem mem).2, fun t mem => ?_, (pairwise_of_rebase based).1,
    fun t mem => (before.of_mem mem).1.isGap, ends.isTail⟩
  obtain ⟨a, b, split⟩ := List.append_of_mem mem
  rw [split] at based
  have slice : slice? (textOf (a ++ ([t] ++ b)) s.tail) t.start t.stop = some (Token.slice [t]) :=
    slice?_tokens s.tail based rfl rfl
  have whole : textOf (a ++ ([t] ++ b)) s.tail = cs := by
    rw [List.singleton_append, ← split]
    exact text
  rw [whole] at slice
  simpa [Token.slice] using slice

/-! ### Declarations -/

/-- As many braces are opened as closed, and none is closed before it is opened. -/
structure Balanced (ts : List Token) : Prop where
  closed : ts.countP (·.isMark '\x7d') = ts.countP (·.isMark '\x7b')
  opened : ∀ front, front <+: ts → front.countP (·.isMark '\x7d') ≤ front.countP (·.isMark '\x7b')

/-- The declaration stands between `before` and `after`, from the first of its modifiers up to the
brace that closes its body. -/
structure EnumDecl.StandsIn (d : EnumDecl) (cs : List Char) (ts before : List Token)
    (e : EnumTokens) (after : List Token) : Prop where
  tokens_eq : ts = before ++ (e.tokens ++ after)
  firstModifier : before.getLast?.any Token.isModifier = false
  isMark_close : e.close.isMark '\x7d' = true
  balanced : Balanced e.body
  start_eq : d.start = (e.modifiers.headD e.keyword).start
  stop_eq : d.stop = e.close.stop
  start_lt : d.start < d.stop
  slice : slice? cs d.start d.stop = some d.text

theorem countP_of_braces {depth depth' : Nat} {ts : List Token}
    (h : braces depth ts = some depth') :
    depth' + ts.countP (·.isMark '\x7d') = depth + ts.countP (·.isMark '\x7b') := by
  induction ts generalizing depth with
  | nil =>
    cases h
    rfl
  | cons t ts ih =>
    rw [braces_cons, Option.bind_eq_some_iff] at h
    obtain ⟨next, step, later⟩ := h
    have counted := ih later
    unfold braceAfter at step
    rw [List.countP_cons, List.countP_cons]
    split at step
    · rename_i closes
      have notOpen : t.isMark '\x7b' = false := by
        cases opens : t.isMark '\x7b' with
        | false => rfl
        | true => exact absurd closes (by simp [Token.isMark_eq_false opens])
      cases depth with
      | zero => cases step
      | succ depth =>
        cases step
        simp only [closes, notOpen, if_true, Bool.false_eq_true, if_false]
        omega
    · rename_i notClose
      rw [Bool.not_eq_true] at notClose
      cases step
      cases opens : t.isMark '\x7b' <;>
        simp only [opens, notClose, if_true, Bool.false_eq_true, if_false] at counted ⊢ <;> omega

theorem balanced_of_braces {ts : List Token} (h : braces 0 ts = some 0) : Balanced ts := by
  refine ⟨by simpa using countP_of_braces h, ?_⟩
  rintro front ⟨more, rfl⟩
  rw [braces_append, Option.bind_eq_some_iff] at h
  obtain ⟨depth, inFront, -⟩ := h
  have counted := countP_of_braces inFront
  omega

theorem Pieces.tokens_append (a b : Pieces) : Pieces.tokens (a ++ b) = a.tokens ++ b.tokens :=
  List.flatMap_append

theorem EnumTokens.head?_tokens (e : EnumTokens) :
    e.tokens.head? = some (e.modifiers.headD e.keyword) := by
  rw [tokens]
  cases e.modifiers <;> rfl

theorem EnumTokens.getLast?_tokens (e : EnumTokens) : e.tokens.getLast? = some e.close := by
  rw [tokens, List.getLast?_concat]

/-- No modifier is left in front of those of a declaration. -/
theorem firstModifier_of_leads {a : Pieces} {lead : List Token}
    (own : lead.getLast?.any Token.isModifier = false) :
    (a.tokens ++ lead).getLast?.any Token.isModifier = false := by
  cases last : lead.getLast? with
  | some t =>
    rw [List.getLast?_append, last]
    simpa [last] using own
  | none =>
    rw [List.getLast?_eq_none_iff.1 last, List.append_nil]
    rcases List.eq_nil_or_concat a with rfl | ⟨a, p, rfl⟩
    · rfl
    · have ends : (Pieces.tokens (a ++ [p])).getLast? = some p.2.close := by
        rw [Pieces.tokens_append, Pieces.tokens_cons, Pieces.tokens_nil, List.append_nil,
          List.getLast?_append, List.getLast?_append, p.2.getLast?_tokens]
        rfl
      rw [List.concat_eq_append, ends]
      exact Token.isModifier_of_isMark p.2.isMark_close

theorem standsIn_of_pieces {cs : List Char} {s : Source} (read : Source.ofText? cs = .ok s)
    {a b : Pieces} {lead rest : List Token} {e : EnumTokens}
    (tokens : s.tokens = Pieces.tokens (a ++ (lead, e) :: b) ++ rest)
    (own : lead.getLast?.any Token.isModifier = false) :
    e.decl.StandsIn cs s.tokens (a.tokens ++ lead) e (b.tokens ++ rest) := by
  have placed : s.tokens = (a.tokens ++ lead) ++ (e.tokens ++ (b.tokens ++ rest)) := by
    rw [tokens, Pieces.tokens_append, Pieces.tokens_cons]
    simp only [List.append_assoc]
  obtain ⟨⟨before, -⟩, based⟩ := stable_of_readSource read
  have text : textOf s.tokens s.tail = cs := text_of_ofText? read
  rw [placed] at based text
  have slice := slice?_tokens s.tail based e.head?_tokens e.getLast?_tokens
  rw [text] at slice
  have first : e.modifiers.headD e.keyword ∈ s.tokens := by
    rw [placed]
    exact List.mem_append_right _
      (List.mem_append_left _ (List.mem_of_head? e.head?_tokens))
  obtain ⟨others, split⟩ := List.head?_eq_some_iff.1 e.head?_tokens
  have nonempty : Token.slice e.tokens ≠ [] := by
    rw [split, Token.slice]
    exact fun none => (before.of_mem first).2 (List.append_eq_nil_iff.1 none).1
  have shorter : (e.modifiers.headD e.keyword).start < e.close.stop := by
    obtain ⟨_, _, -, -, size⟩ := slice?_eq_some_iff.1 slice
    have := byteSize_pos nonempty
    omega
  exact ⟨placed, firstModifier_of_leads own, e.isMark_close,
    balanced_of_braces (splitBody_iff.1 (e.splitBody_body [])).2.2, rfl, rfl, shorter, slice⟩

/-- The declarations that a scan finds stand one behind the other in the text. -/
theorem declared_of_scanEnums {cs : List Char} {decls : List EnumDecl}
    (h : scanEnums cs = .ok decls) :
    ∃ s, Source.ofText? cs = .ok s ∧ decls.Pairwise (fun d d' => d.stop ≤ d'.start) ∧
      ∀ d ∈ decls, ∃ before e after, d.StandsIn cs s.tokens before e after := by
  unfold scanEnums at h
  split at h
  · cases h
  rename_i s read
  obtain ⟨pieces, rest, tokens, rfl, -, leads⟩ := tokens_of_enumDecls [] [] h rfl rfl
    fun a t b none => by cases a <;> cases none
  refine ⟨s, read, ?_, fun d mem => ?_⟩
  · have ordered := (tiles_of_ofText? read).ordered
    rw [show s.tokens = pieces.tokens ++ rest from tokens, List.pairwise_append, Pieces.tokens,
      List.pairwise_flatMap] at ordered
    rw [List.pairwise_map]
    refine ordered.1.2.imp fun {p q} apart => ?_
    exact apart _ (List.mem_append_right _ (List.mem_of_getLast? p.2.getLast?_tokens)) _
      (List.mem_append_right _ (List.mem_of_head? q.2.head?_tokens))
  · obtain ⟨⟨lead, e⟩, piece, rfl⟩ := List.mem_map.1 mem
    obtain ⟨a, b, rfl⟩ := List.append_of_mem piece
    exact ⟨_, e, _, standsIn_of_pieces read tokens (leads _ piece)⟩

/-- The tokens of any text that can be read tile it with gaps of blanks and comments, and the
declarations that a scan finds are spans of its tokens, one behind the other. -/
theorem tiled_and_declared (cs : List Char) :
    (∀ s, Source.ofText? cs = .ok s → s.Tiles cs) ∧
      ∀ decls, scanEnums cs = .ok decls → ∃ s, Source.ofText? cs = .ok s ∧
        decls.Pairwise (fun d d' => d.stop ≤ d'.start) ∧
        ∀ d ∈ decls, ∃ before e after, d.StandsIn cs s.tokens before e after :=
  ⟨fun _ => tiles_of_ofText?, fun _ => declared_of_scanEnums⟩

/-- A text with braces in comments and in a literal, and with characters of two bytes. -/
def bracedText : String :=
  "/* \x7d */ export const enum Ä \x7b X = \"\x7d\", /* \x7d */ \x7d // é\nenum B \x7b\x7d//"

theorem tiled_and_declared_braces : ∃ s decls, Source.ofText? bracedText.toList = .ok s ∧
    scanEnums bracedText.toList = .ok decls ∧
    decls.map (fun d => (d.start, d.stop)) = [(8, 49), (56, 65)] ∧ s.Tiles bracedText.toList ∧
    decls.Pairwise (fun d d' => d.stop ≤ d'.start) ∧
    ∀ d ∈ decls, ∃ before e after, d.StandsIn bracedText.toList s.tokens before e after := by
  have spans : (scanEnums bracedText.toList).map (·.map fun d => (d.start, d.stop)) =
      .ok [(8, 49), (56, 65)] := by
    rw [show bracedText.toList = _ from String.toList_ofList ..]
    decide +kernel
  cases scanned : scanEnums bracedText.toList with
  | error e =>
    rw [scanned] at spans
    cases spans
  | ok decls =>
    rw [scanned] at spans
    obtain ⟨tiled, declared⟩ := tiled_and_declared bracedText.toList
    obtain ⟨s, read, ordered, stand⟩ := declared decls scanned
    exact ⟨s, decls, read, rfl, Except.ok.inj spans, tiled s read, ordered, stand⟩

end OpenApiModels.TypeScript
