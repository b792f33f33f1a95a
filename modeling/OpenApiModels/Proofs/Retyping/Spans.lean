import OpenApiModels.Proofs.Retyping.Applying

/-!
# Replacing spans

A transform replaces one declaration after another, each by a search for its text. What comes out
is the text in which the spans of the declarations are replaced all at once, with the new names
followed (`Transform.apply_replaces_spans`); no search fails.
-/

namespace OpenApiModels.Retyping

open Text TypeScript

/-- What replaces the bytes from `start` up to `stop` of a text. -/
structure Edit where
  start : Nat
  stop : Nat
  text : List Char
deriving DecidableEq, Repr

/-- Replaces spans of a text that starts at `offset`, all at once. Yields nothing unless the spans
come one behind another, in the text, and cut no character. -/
def replaceSpans? (offset : Nat) (edits : List Edit) (cs : List Char) : Option (List Char) :=
  match edits with
  | [] => some cs
  | e :: edits =>
    let (kept, behind) := splitAtByte (e.start - offset) cs
    let (old, rest) := splitAtByte (e.stop - e.start) behind
    if offset + byteSize kept = e.start ∧ e.start + byteSize old = e.stop then
      (replaceSpans? e.stop edits rest).map fun rest => kept ++ (e.text ++ rest)
    else none

/-- The declarations for which a replacement is planned, with their replacements. -/
def Transform.planned (transform : Transform) (used : List String) (file : FileContext)
    (decls : List EnumDecl) : List (EnumDecl × Candidate) :=
  decls.filterMap fun d => (transform.plan used file d).value.map fun c => (d, c)

/-- The edit that puts the new declaration in the place of the old one. -/
def editOf (p : EnumDecl × Candidate) : Edit :=
  ⟨p.1.start, p.1.stop, p.2.declaration⟩

/-! ### One span -/

theorem replaceSpans?_cons {offset : Nat} {e : Edit} {kept old : List Char}
    (start : offset + byteSize kept = e.start) (stop : e.start + byteSize old = e.stop)
    (edits : List Edit) (rest : List Char) :
    replaceSpans? offset (e :: edits) (kept ++ (old ++ rest)) =
      (replaceSpans? e.stop edits rest).map fun rest => kept ++ (e.text ++ rest) := by
  have before : e.start - offset = byteSize kept := by omega
  have inside : e.stop - e.start = byteSize old := by omega
  rw [replaceSpans?, before, splitAtByte_append]
  dsimp only
  rw [inside, splitAtByte_append]
  dsimp only
  rw [if_pos ⟨start, stop⟩]

/-! ### The spans of declarations -/

variable {choose : Choice}

/-- The span of a declaration holds its text. -/
theorem span_of_rebase {e : EnumTokens} {offset : Nat} (based : rebase offset e.tokens = e.tokens) :
    e.decl.start = offset + byteSize e.first.gap ∧
      e.decl.stop = e.decl.start + byteSize e.decl.text := by
  have first := based
  rw [e.tokens_eq, rebase] at first
  have start : e.decl.start = offset + byteSize e.first.gap :=
    (congrArg Token.start (List.cons.inj first).1).symm
  obtain ⟨-, last⟩ := rebase_parts based
  rw [rebase] at last
  have stop : e.decl.stop = e.close.start + byteSize e.close.text := rfl
  rw [← congrArg Token.start (List.cons.inj last).1] at stop
  have size := congrArg byteSize (e.textOf_tokens [])
  rw [EnumTokens.tokens, textOf_append, byteSize_textOf, textOf_cons] at size
  simp only [byteSize_append, byteSize_nil, textOf_nil] at size stop
  omega

/-- The planned edits of the declarations, in order. -/
def Choice.edits (choose : Choice) (pieces : Pieces) : List Edit :=
  pieces.filterMap fun p => (choose.candidate? p.2.decl).map fun c => editOf (p.2.decl, c)

/-- Replacing the spans of the declarations gives the new declarations among the old tokens;
`kept` is what stands in front. -/
theorem Choice.replaceSpans?_edits {offset : Nat} {pieces : Pieces} (kept : List Char)
    (rest : List Char)
    (based : rebase (offset + byteSize kept) pieces.tokens = pieces.tokens) :
    replaceSpans? offset (choose.edits pieces) (kept ++ textOf pieces.tokens rest) =
      some (kept ++ textOf (pieces.retyped choose) rest) := by
  induction pieces generalizing offset kept with
  | nil => rfl
  | cons p pieces ih =>
    obtain ⟨lead, e⟩ := p
    rw [Pieces.tokens_cons] at based
    obtain ⟨-, based⟩ := rebase_parts based
    obtain ⟨own, based⟩ := rebase_parts based
    obtain ⟨start, stop⟩ := span_of_rebase own
    have size := congrArg byteSize (e.textOf_tokens [])
    simp only [List.append_nil, byteSize_append] at size
    have behind : offset + byteSize kept + byteSize (textOf lead []) +
        byteSize (textOf e.tokens []) = e.decl.stop := by omega
    rw [behind] at based
    rw [Pieces.tokens_cons, Pieces.retyped_cons, textOf_append, textOf_append, textOf_append,
      textOf_append, e.textOf_tokens, Choice.textOf_tokens,
      textOf_eq_append lead (_ ++ (_ ++ textOf (Pieces.tokens pieces) rest)),
      textOf_eq_append lead (_ ++ (_ ++ textOf (Pieces.retyped choose pieces) rest))]
    cases chosen : choose.candidate? e.decl with
    | none =>
      have stop' : offset + byteSize (kept ++ (textOf lead [] ++ (e.first.gap ++ e.decl.text))) =
          e.decl.stop := by
        simp only [byteSize_append]
        omega
      have later := ih (kept ++ (textOf lead [] ++ (e.first.gap ++ e.decl.text)))
        (by rw [stop']; exact based)
      rw [Choice.edits, List.filterMap_cons_none (by rw [chosen]; rfl), ← Choice.edits]
      simpa only [List.append_assoc] using later
    | some c =>
      have start' : offset + byteSize (kept ++ (textOf lead [] ++ e.first.gap)) =
          e.decl.start := by
        simp only [byteSize_append]
        omega
      have later : replaceSpans? e.decl.stop (choose.edits pieces)
          (textOf (Pieces.tokens pieces) rest) = some (textOf (Pieces.retyped choose pieces) rest) :=
        ih [] based
      have cut := replaceSpans?_cons (e := editOf (e.decl, c)) start' stop.symm
        (choose.edits pieces) (textOf (Pieces.tokens pieces) rest)
      rw [Choice.edits, List.filterMap_cons_some (by rw [chosen]; rfl)]
      simp only [List.append_assoc] at cut ⊢
      rw [← Choice.edits, cut, show (editOf (e.decl, c)).stop = e.decl.stop from rfl, later]
      rfl

/-! ### The order of the renames -/

theorem renamed_reverse {renames : List Rename} (h : ∀ r ∈ renames, DropsSuffix r)
    (name : String) : renamed renames.reverse name = renamed renames name := by
  have h' : ∀ r ∈ renames.reverse, DropsSuffix r := fun r mem => h r (List.mem_reverse.1 mem)
  have same : renamed renames.reverse name = name ↔ renamed renames name = name := by
    rw [renamed_eq_self_iff h, renamed_eq_self_iff h']
    simp only [List.mem_reverse]
  by_cases kept : renamed renames name = name
  · rw [kept, same.2 kept]
  · rw [(renamed_of_dropsSuffix h name).resolve_left kept,
      (renamed_of_dropsSuffix h' name).resolve_left fun kept' => kept (same.1 kept')]

theorem renameTokens_reverse {renames : List Rename} (h : ∀ r ∈ renames, DropsSuffix r)
    (afterPoint : Bool) (ts : List Token) :
    renameTokens renames.reverse afterPoint ts = renameTokens renames afterPoint ts := by
  induction ts generalizing afterPoint with
  | nil => rfl
  | cons t ts ih => simp only [renameTokens, renamed_reverse h, ih]

/-! ### Texts that cannot be scanned -/

theorem openComment_of_splitGap {offset : Nat} {cs : List Char} {e : SourceError}
    (h : splitGap offset cs = .error e) : ∃ n, e = .openComment n := by
  fun_induction splitGap offset cs with
  | case1 | case2 | case4 | case7 | case9 | case10 => cases h
  | case3 _ _ _ _ _ inner ih =>
    cases h
    exact ih inner
  | case5 | case8 =>
    rename_i inner _ ih
    cases h
    exact ih inner
  | case6 =>
    cases h
    exact ⟨_, rfl⟩

theorem openLiteral_of_splitToken {offset : Nat} {c : Char} {r : List Char} {e : SourceError}
    (h : splitToken offset c r = .error e) : e = .openLiteral offset := by
  unfold splitToken at h
  repeat' split at h
  all_goals cases h
  rfl

theorem openText_of_readSource {offset : Nat} {cs : List Char} {e : SourceError}
    (h : readSource offset cs = .error e) :
    (∃ n, e = .openComment n) ∨ ∃ n, e = .openLiteral n := by
  fun_induction readSource offset cs with
  | case1 _ _ _ gap =>
    cases h
    exact .inl (openComment_of_splitGap gap)
  | case2 | case5 => cases h
  | case3 _ _ _ _ _ _ _ _ token =>
    cases h
    exact .inr ⟨_, openLiteral_of_splitToken token⟩
  | case4 _ _ _ _ _ _ _ _ _ _ _ _ _ _ later ih =>
    cases h
    exact ih later

theorem unbalanced_of_enumDecls {before ts : List Token} {e : SourceError}
    (h : enumDecls before ts = .error e) : ∃ name, e = .unbalanced name := by
  fun_induction enumDecls before ts with
  | case1 =>
    cases h
    exact ⟨_, rfl⟩
  | case2 _ _ _ _ _ _ _ _ _ _ _ _ later ih =>
    cases h
    exact ih later
  | case3 | case5 => cases h
  | case4 _ _ _ _ _ _ ih => exact ih h

/-- A scan fails at a comment, a literal or a declaration that is not closed. -/
theorem ne_declarationNotFound_of_scanEnums {cs : List Char} {e : SourceError}
    (h : scanEnums cs = .error e) (n : Nat) : e ≠ .declarationNotFound n := by
  unfold scanEnums at h
  split at h
  · rename_i fails
    cases h
    rcases openText_of_readSource fails with ⟨m, rfl⟩ | ⟨m, rfl⟩ <;> exact SourceError.noConfusion
  · obtain ⟨name, rfl⟩ := unbalanced_of_enumDecls h
    exact SourceError.noConfusion

/-! ### What a transform makes of a text -/

variable {transform : Transform} {file : FileContext}

namespace Cut

variable {cs : List Char} (cut : Cut cs)

theorem planned_eq (used : List String) (transform : Transform) (file : FileContext) :
    transform.planned used file (cut.pieces.map fun p => p.2.decl) =
      cut.pieces.filterMap fun p =>
        ((transform.choose used file).candidate? p.2.decl).map fun c => (p.2.decl, c) := by
  simp only [Transform.planned, List.filterMap_map, Transform.value_plan]
  rfl

theorem planned_edits (used : List String) (transform : Transform) (file : FileContext) :
    (transform.planned used file (cut.pieces.map fun p => p.2.decl)).map editOf =
      (transform.choose used file).edits cut.pieces := by
  rw [planned_eq, Choice.edits, List.map_filterMap]
  simp only [Option.map_map]
  rfl

theorem planned_candidates (used : List String) (transform : Transform) (file : FileContext) :
    ((transform.planned used file (cut.pieces.map fun p => p.2.decl)).map (·.2)).reverse =
      cut.ordered (transform.choose used file) := by
  rw [planned_eq, ordered, List.map_filterMap]
  simp only [Option.map_map]
  congr 2
  funext p
  cases (transform.choose used file).candidate? p.2.decl <;> rfl

theorem replaceSpans?_planned (transform : Transform) (file : FileContext) :
    replaceSpans? 0 ((transform.planned cut.source.words file
        (cut.pieces.map fun p => p.2.decl)).map editOf) cs =
      some (textOf (cut.pieces.retyped (transform.choose cut.source.words file) ++ cut.rest)
        cut.source.tail) := by
  have based := (stable_of_readSource cut.read).2
  rw [cut.tokens_eq] at based
  have first : rebase (0 + byteSize []) cut.pieces.tokens = cut.pieces.tokens :=
    (rebase_parts based).1
  have replaced := (transform.choose cut.source.words file).replaceSpans?_edits []
    (textOf cut.rest cut.source.tail) first
  rw [cut.planned_edits, textOf_append]
  exact (congrArg _ cut.text_eq).trans replaced

theorem renameText_planned (transform : Transform) (file : FileContext) :
    renameText ((transform.planned cut.source.words file
        (cut.pieces.map fun p => p.2.decl)).filterMap (·.2.rename))
        (textOf (cut.pieces.retyped (transform.choose cut.source.words file) ++ cut.rest)
          cut.source.tail) =
      .ok (cut.afterText (transform.choose cut.source.words file)) := by
  have sound : (transform.choose cut.source.words file).Sound := transform.sound_choose
  have drops : ∀ r ∈ cut.renames (transform.choose cut.source.words file), DropsSuffix r :=
    fun r => cut.dropsSuffix_of_mem sound
  have renames : (transform.planned cut.source.words file
        (cut.pieces.map fun p => p.2.decl)).filterMap (·.2.rename) =
      (cut.renames (transform.choose cut.source.words file)).reverse := by
    rw [Cut.renames, ← cut.planned_candidates, ← List.filterMap_reverse, List.reverse_reverse,
      List.filterMap_map]
    rfl
  rw [renames, renameText_eq_ok (readSource_of_stable (cut.stable_retyped sound) 0)]
  change Except.ok (textOf (renameTokens _ false _) _) = _
  rw [renameTokens_reverse drops, textOf_renameTokens_rebase]
  rfl

end Cut

/-- A transform gives a text that cannot be scanned its error. Of any other text it replaces the
spans of all declarations for which it plans something, at once, and follows the new names; then
the import is added, if a new type is branded. -/
theorem Transform.apply_replaces_spans (transform : Transform) (file : FileContext)
    (cs : List Char) :
    (∃ e, scanEnums cs = .error e ∧ (transform.apply file cs).value = .error e ∧
      ∀ n, e ≠ .declarationNotFound n) ∨
    ∃ source decls, Source.ofText? cs = .ok source ∧ scanEnums cs = .ok decls ∧
      (transform.planned source.words file decls = [] ∧
          (transform.apply file cs).value = .ok none ∨
        transform.planned source.words file decls ≠ [] ∧ ∃ replaced followed retyped,
          replaceSpans? 0 ((transform.planned source.words file decls).map editOf) cs =
            some replaced ∧
          renameText ((transform.planned source.words file decls).filterMap (·.2.rename)) replaced =
            .ok followed ∧
          (transform.apply file cs).value = .ok (some retyped) ∧
          retyped.text =
            if (transform.planned source.words file decls).any (·.2.branded) then
              addBrandedImport file.path followed
            else followed) := by
  cases scanned : scanEnums cs with
  | error e =>
    exact .inl ⟨e, rfl, apply_of_scan_error scanned transform file,
      ne_declarationNotFound_of_scanEnums scanned⟩
  | ok decls =>
    obtain ⟨cut⟩ := exists_cut_of_scan scanned
    have same : decls = cut.pieces.map fun p => p.2.decl := by
      have := cut.scanned
      rw [scanEnums, cut.read] at scanned
      exact Except.ok.inj (scanned.symm.trans this)
    subst same
    refine .inr ⟨cut.source, _, cut.read, rfl, ?_⟩
    have candidates := cut.planned_candidates cut.source.words transform file
    rw [apply_cut cut]
    by_cases none : transform.planned cut.source.words file (cut.pieces.map fun p => p.2.decl) = []
    · rw [none] at candidates
      rw [← candidates]
      exact .inl ⟨none, rfl⟩
    · have some_ : ¬(cut.ordered (transform.choose cut.source.words file)).isEmpty = true := by
        rw [← candidates]
        simpa using none
      refine .inr ⟨none, _, _, cut.retyped (transform.choose cut.source.words file) file.path,
        cut.replaceSpans?_planned transform file, cut.renameText_planned transform file,
        by rw [if_neg some_], ?_⟩
      rw [Cut.retyped, ← candidates, List.any_reverse, List.any_map]
      rfl

end OpenApiModels.Retyping
