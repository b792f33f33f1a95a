import OpenApiModels.Proofs.Retyping.LineItems
import OpenApiModels.Proofs.Retyping.Passes
import OpenApiModels.Proofs.Retyping.RetypedItems

/-!
# What a pass does to the items

The text that a transform makes is parsed into the old items with types in place of declarations,
up to an import line (`exists_passItems`), if the import line stands apart (`WellPlaced`).
-/

namespace OpenApiModels.Retyping

open Text TypeScript

theorem EndsApart.of_bare_eq {ts ts' : List Token} (h : EndsApart ts)
    (same : ts.map Token.bare = ts'.map Token.bare) : EndsApart ts' := by
  intro t' last'
  have last := congrArg List.getLast? same
  rw [List.getLast?_map, List.getLast?_map, last', Option.map_some, Option.map_eq_some_iff] at last
  obtain ⟨t, last, bare⟩ := last
  obtain ⟨kind, text⟩ := Token.bare_eq_iff.1 bare
  have apart := h t last
  rwa [Token.isMark, kind, text] at apart

/-- The text can be read, and what comes before an import line in it ends apart, unless the line
is part of a comment or of a literal. -/
structure WellPlaced (path : String) (cs : List Char) : Prop where
  readable : ∃ s, Source.ofText? cs = .ok s
  apart : ∀ before after s, cs = before ++ (brandedImport path ++ '\n' :: after) →
    Source.ofText? before = .ok s → EndsApart s.tokens

instance (ts : List Token) : Decidable (EndsApart ts) :=
  inferInstanceAs (Decidable (∀ t ∈ ts.getLast?, t.kind = .literal ∨
    t.kind = .mark ∧ t.isMark '.' = false))

theorem mem_toOption {ε α : Type} {x : Except ε α} {a : α} : a ∈ x.toOption ↔ x = .ok a := by
  cases x <;> simp [Except.toOption]

theorem wellPlaced_iff {path : String} {cs : List Char} : WellPlaced path cs ↔
    (Source.ofText? cs).toOption.isSome = true ∧ ∀ n ∈ List.range (cs.length + 1),
      brandedImport path ++ ['\n'] <+: cs.drop n →
        ∀ s ∈ (Source.ofText? (cs.take n)).toOption, EndsApart s.tokens := by
  constructor
  · rintro ⟨⟨s, read⟩, apart⟩
    refine ⟨by rw [read]; rfl, ?_⟩
    rintro n - ⟨after, split⟩ s read
    rw [List.append_assoc, List.singleton_append] at split
    exact apart (cs.take n) after s (by rw [split, List.take_append_drop]) (mem_toOption.1 read)
  · rintro ⟨readable, apart⟩
    refine ⟨?_, ?_⟩
    · obtain ⟨s, read⟩ := Option.isSome_iff_exists.1 readable
      exact ⟨s, mem_toOption.1 read⟩
    · rintro before after s rfl read
      refine apart before.length ?_ ⟨after, by simp⟩ s ?_
      · simp only [List.mem_range, List.length_append]
        omega
      · rw [List.take_left, read]
        rfl

instance (path : String) (cs : List Char) : Decidable (WellPlaced path cs) :=
  decidable_of_iff' _ wellPlaced_iff

variable {transform : Transform} {file : FileContext} {cs : List Char} {r : Retyped}

namespace Cut

variable (cut : Cut cs)

/-- What a transform makes of the items before it adds an import. -/
def itemsAfter (choose : Choice) : List Item :=
  renameItems (cut.renames choose) false (retypedItems choose cut.pieces cut.rest)

end Cut

/-- What a pass makes of a text. -/
structure PassItems (transform : Transform) (file : FileContext) {cs : List Char} (cut : Cut cs)
    (r : Retyped) where
  source : Source
  items : List Item
  read : Source.ofText? r.text = .ok source
  parses : Parses false source.tokens items
  edit : items = cut.itemsAfter (transform.choose cut.source.words file) ∨
    ItemEdit file.path (cut.itemsAfter (transform.choose cut.source.words file)) items
  renames : ∀ rename ∈ r.renames, rename ∈ cut.renames (transform.choose cut.source.words file)

/-- The renames that a transform follows in a text. -/
def Transform.renamesIn (transform : Transform) (file : FileContext) (cs : List Char) :
    List Rename :=
  match Source.ofText? cs with
  | .error _ => []
  | .ok s =>
    match enumDecls [] s.tokens with
    | .error _ => []
    | .ok decls =>
      (decls.filterMap fun d => (transform.plan s.words file d).value.bind (·.rename)).reverse

theorem Cut.renamesIn_eq (cut : Cut cs) :
    transform.renamesIn file cs = cut.renames (transform.choose cut.source.words file) := by
  simp only [Transform.renamesIn, cut.read, cut.scanned, Cut.renames, Cut.ordered,
    List.filterMap_reverse, List.filterMap_map, List.filterMap_filterMap, Function.comp_def,
    Transform.value_plan]

theorem mem_renames_of_retyped {cut : Cut cs} {choose : Choice} {path : String} {rename : Rename}
    (h : rename ∈ (cut.retyped choose path).renames) : rename ∈ cut.renames choose := by
  obtain ⟨c, hc, isRename⟩ := List.mem_filterMap.1 h
  exact List.mem_filterMap.2 ⟨c, (List.mem_filter.1 hc).1, isRename⟩

theorem eq_retyped_of_apply (cut : Cut cs) (h : (transform.apply file cs).value = .ok (some r)) :
    r = cut.retyped (transform.choose cut.source.words file) file.path := by
  rw [apply_cut cut] at h
  split at h
  · cases h
  · cases h
    rfl

theorem Passes.safe {transforms : List Transform} {cs' : List Char} {renames : List Rename}
    (h : Passes file transforms cs cs' renames) : ∀ rename ∈ renames, SafeRename rename := by
  induction h with
  | nil => exact fun _ h => nomatch h
  | same _ _ ih => exact ih
  | retyped apply _ ih =>
    intro rename mem
    rcases List.mem_append.1 mem with here | later
    · obtain ⟨cut⟩ := exists_cut apply
      obtain rfl := eq_retyped_of_apply cut apply
      exact cut.safeRename_of_mem (mem_renames_of_retyped here)
    · exact ih rename later

theorem Visits.safe {transforms : List Transform} {names : List String}
    {files : List (String × List Char)} {fs : List FileState} {renames : List Rename}
    (h : Visits transforms names files fs renames) : ∀ rename ∈ renames, SafeRename rename := by
  induction h with
  | nil => exact fun _ h => nomatch h
  | cons first _ ih =>
    intro rename mem
    rcases List.mem_append.1 mem with here | later
    · cases first with
      | same | failed => cases here
      | retyped passes => exact passes.safe rename here
    · exact ih rename later

/-- The tokens that a transform makes are those of its text, up to an import line. -/
theorem exists_passTokens (h : (transform.apply file cs).value = .ok (some r)) {s : Source}
    (read : Source.ofText? r.text = .ok s) :
    ∃ cut : Cut cs, r = cut.retyped (transform.choose cut.source.words file) file.path ∧
      (s.tokens.map Token.bare =
          (cut.after (transform.choose cut.source.words file)).map Token.bare ∨
        ∃ before after ts, r.text = before ++ (brandedImport file.path ++ '\n' :: after) ∧
          LineEdit file.path before (cut.after (transform.choose cut.source.words file)) ts ∧
          s.tokens.map Token.bare = ts.map Token.bare) := by
  obtain ⟨cut⟩ := exists_cut h
  obtain rfl := eq_retyped_of_apply cut h
  refine ⟨cut, rfl, ?_⟩
  have sound : (transform.choose cut.source.words file).Sound := transform.sound_choose
  have stable := cut.stable_after sound
  have plain (same : Source.ofText? (cut.afterText (transform.choose cut.source.words file)) =
      .ok s) : s.tokens.map Token.bare =
        (cut.after (transform.choose cut.source.words file)).map Token.bare := by
    rw [show Source.ofText? (cut.afterText _) = _ from readSource_of_stable stable 0] at same
    rw [← Except.ok.inj same, map_bare_rebase]
  revert read
  unfold Cut.retyped
  dsimp only
  split
  · rw [addBrandedImport]
    split
    · exact fun read => .inl (plain read)
    · obtain ⟨before, after, split, tiles, line⟩ :=
        splitAtImports_spec (cut.afterText (transform.choose cut.source.words file))
      rw [split]
      dsimp only
      rw [List.append_assoc]
      intro read
      obtain ⟨ts, tail, text, stable', edit⟩ := insert_line file.path stable tiles line
        fun fails => fails 0 s read
      refine .inr ⟨before, after, ts, rfl, edit, ?_⟩
      rw [text, show Source.ofText? _ = _ from readSource_of_stable stable' 0] at read
      rw [← Except.ok.inj read, map_bare_rebase]
  · exact fun read => .inl (plain read)

theorem exists_passItems (h : (transform.apply file cs).value = .ok (some r))
    (placed : WellPlaced file.path r.text) :
    ∃ cut : Cut cs, Nonempty (PassItems transform file cut r) := by
  obtain ⟨s, read⟩ := placed.readable
  obtain ⟨cut, rfl, tokens⟩ := exists_passTokens h read
  have parses : Parses false (cut.after (transform.choose cut.source.words file)) _ :=
    cut.parses_after
  refine ⟨cut, ?_⟩
  rcases tokens with same | ⟨before, after, ts, text, edit, same⟩
  · exact ⟨⟨s, _, read, parses.of_bare_eq same.symm, .inl rfl, fun _ => mem_renames_of_retyped⟩⟩
  · have apart : ∀ a, ReadsAs before a → EndsApart a := by
      intro a reads
      obtain ⟨tail, first⟩ := reads.ofText?
      exact (placed.apart before after _ text first).of_bare_eq (map_bare_rebase 0 a)
    obtain ⟨is, parses', edited⟩ := Parses.lineEdit parses edit apart
    exact ⟨⟨s, is, read, parses'.of_bare_eq same.symm, .inr edited,
      fun _ => mem_renames_of_retyped⟩⟩

end OpenApiModels.Retyping
