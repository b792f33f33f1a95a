import OpenApiModels.Proofs.Logged
import OpenApiModels.Proofs.Retyping.Replacement

/-!
# Applying a transform

What a transform makes of a file whose enum declarations are found: the tokens of the new
declarations among the old tokens, with the names followed (`apply_cut`).
-/

namespace OpenApiModels

namespace Retyping

open Text TypeScript

/-! ### Choices of the transforms -/

/-- The names and types that a transform chooses. -/
def Transform.choose (transform : Transform) (used : List String) (file : FileContext) :
    Choice := fun d =>
  match transform with
  | union =>
    if baseName d.name = d.name ∨ d.strings = [] then none
    else some ((targetName d used file).value, .union d.strings)
  | bySize limit mode =>
    if d.strings.length = 0 ∨ d.strings.length < limit then none
    else if brands limit mode d.strings.length then
      some ((targetName d used file).value, .branded (targetName d used file).value)
    else some ((targetName d used file).value, .union d.strings)

variable {transform : Transform} {used : List String} {file : FileContext}

theorem value_targetName (d : EnumDecl) :
    (targetName d used file).value = d.name ∨ (targetName d used file).value = baseName d.name := by
  unfold targetName
  dsimp only
  split
  · exact .inl rfl
  · exact .inr rfl

theorem Transform.sound_choose : (transform.choose used file).Sound where
  name := by
    intro d name type h
    unfold choose at h
    repeat' split at h
    all_goals cases h
    all_goals exact value_targetName d
  type := by
    intro d name type h
    unfold choose at h
    split at h
    · split at h
      · cases h
      · rename_i kept
        cases h
        exact .inr ⟨rfl, fun none => kept (.inr none)⟩
    · split at h
      · cases h
      · rename_i kept
        split at h <;> cases h
        · exact .inl rfl
        · exact .inr ⟨rfl, fun none => kept (.inl (by rw [none]; rfl))⟩

/-- The plan for a declaration is what the transform chooses for it. -/
theorem Transform.value_plan (d : EnumDecl) :
    (transform.plan used file d).value = (transform.choose used file).candidate? d := by
  cases transform with
  | union =>
    unfold plan choose Choice.candidate?
    dsimp only
    by_cases base : baseName d.name = d.name
    · rw [if_pos base, if_pos (.inl base)]
      rfl
    · have values : (stringMembers d file.path).value = d.strings := rfl
      rw [if_neg base, Logged.value_bind, values]
      by_cases empty : d.strings = []
      · have none : baseName d.name = d.name ∨ d.strings = [] := .inr empty
        rw [if_pos none, if_pos (by rw [empty]; rfl)]
        rfl
      · have nonempty : d.strings.isEmpty = false := by simpa using empty
        rw [nonempty, if_neg (not_or.2 ⟨base, empty⟩), Option.map_some,
          ← unionDeclaration_eq _ _ empty]
        rfl
  | bySize limit mode =>
    unfold plan choose Choice.candidate?
    dsimp only
    split
    · rfl
    · rename_i kept
      have nonempty : d.strings ≠ [] := fun none => kept (.inl (by rw [none]; rfl))
      rw [Logged.value_bind, Logged.value_bind,
        show (stringMembers d file.path).value = d.strings from rfl, Logged.value_pure]
      split <;> rename_i branded
      · rw [branded, brandedDeclaration_eq]
        rfl
      · rw [Bool.not_eq_true] at branded
        rw [branded, unionDeclaration_eq _ _ nonempty]
        rfl

/-! ### Texts cut at their declarations -/

/-- A text that is read, cut at the enum declarations in it. -/
structure Cut (cs : List Char) where
  source : Source
  pieces : Pieces
  rest : List Token
  read : Source.ofText? cs = .ok source
  tokens_eq : source.tokens = pieces.tokens ++ rest
  scanned : enumDecls [] source.tokens = .ok (pieces.map fun p => p.2.decl)
  clear : pieces.Clear rest

theorem exists_cut_of_scan {cs : List Char} {decls : List EnumDecl}
    (h : scanEnums cs = .ok decls) : Nonempty (Cut cs) := by
  unfold scanEnums at h
  split at h
  · cases h
  · rename_i s read
    obtain ⟨pieces, rest, tokens, rfl, clear, -⟩ := tokens_of_enumDecls [] [] h rfl rfl
      fun a t b none => by cases a <;> cases none
    exact ⟨⟨s, pieces, rest, read, tokens, h, clear⟩⟩

/-- A transform fails on a text just where the scan for declarations fails. -/
theorem Transform.apply_of_scan_error {cs : List Char} {e : SourceError}
    (h : scanEnums cs = .error e) (transform : Transform) (file : FileContext) :
    (transform.apply file cs).value = .error e := by
  unfold scanEnums at h
  unfold Transform.apply
  cases read : Source.ofText? cs with
  | error e' =>
    rw [read] at h
    cases h
    rfl
  | ok s =>
    rw [read] at h
    dsimp only at h ⊢
    rw [h]
    rfl

theorem exists_cut {cs : List Char} {x : Option Retyped}
    (h : (transform.apply file cs).value = .ok x) : Nonempty (Cut cs) := by
  cases scanned : scanEnums cs with
  | error e =>
    rw [Transform.apply_of_scan_error scanned] at h
    cases h
  | ok decls => exact exists_cut_of_scan scanned

namespace Cut

variable {cs : List Char} (cut : Cut cs) (choose : Choice)

theorem stable : Stable (cut.pieces.tokens ++ cut.rest) cut.source.tail := by
  rw [← cut.tokens_eq]
  exact (stable_of_readSource cut.read).1

theorem text_eq : cs = textOf cut.pieces.tokens (textOf cut.rest cut.source.tail) := by
  rw [← textOf_append, ← cut.tokens_eq]
  exact (text_of_ofText? cut.read).symm

/-- The replacements, the last one first. -/
def ordered : List Candidate :=
  (cut.pieces.filterMap fun p => choose.candidate? p.2.decl).reverse

def renames : List Rename :=
  (cut.ordered choose).filterMap (·.rename)

/-- The tokens with the declarations replaced and the names followed. -/
def after : List Token :=
  renameTokens (cut.renames choose) false (cut.pieces.retyped choose ++ cut.rest)

/-- The text with the declarations replaced and the names followed. -/
def afterText : List Char :=
  textOf (cut.after choose) cut.source.tail

def retyped (path : String) : Retyped where
  text :=
    if (cut.ordered choose).any (·.branded) then addBrandedImport path (cut.afterText choose)
    else cut.afterText choose
  renames := ((cut.ordered choose).filter (·.exported)).filterMap (·.rename)
  support := if (cut.ordered choose).any (·.branded) then [⟨brandedFile, brandedSupport⟩] else []

variable {choose} (sound : choose.Sound)

include sound

theorem dropsSuffix_of_mem {r : Rename} (h : r ∈ cut.renames choose) : DropsSuffix r := by
  obtain ⟨c, hc, rename⟩ := List.mem_filterMap.1 h
  obtain ⟨p, -, planned⟩ := List.mem_filterMap.1 (List.mem_reverse.1 hc)
  obtain ⟨⟨name, type⟩, chosen, rfl⟩ := Option.map_eq_some_iff.1 planned
  simp only [candidate] at rename
  split at rename
  · cases rename
  · rename_i differ
    cases rename
    rcases sound.name chosen with same | rfl
    · exact absurd same differ
    · exact ⟨rfl, differ⟩

theorem stable_retyped : Stable (cut.pieces.retyped choose ++ cut.rest) cut.source.tail := by
  obtain ⟨before, ends⟩ := cut.stable
  rw [stableBefore_append] at before
  refine ⟨?_, ends⟩
  rw [stableBefore_append]
  exact ⟨(sound.stableBefore_retyped before.1 (.inl rfl)).1, before.2⟩

theorem stable_after : Stable (cut.after choose) cut.source.tail :=
  stable_renameTokens (fun _ hr => (cut.dropsSuffix_of_mem sound hr).shortens)
    (cut.stable_retyped sound) false

/-- Replacing the declarations one by one and following the names gives the text with all of them
replaced. -/
theorem applyCandidates_eq (path : String) :
    applyCandidates path cs (cut.pieces.filterMap fun p => choose.candidate? p.2.decl) =
      .ok (if (cut.ordered choose).isEmpty then none else some (cut.retyped choose path)) := by
  have replaced : replaceAll (cut.ordered choose) cs =
      .ok (textOf (cut.pieces.retyped choose ++ cut.rest) cut.source.tail) := by
    have before := (stableBefore_append.1 cut.stable.1).1
    have based := (stable_of_readSource cut.read).2
    rw [cut.tokens_eq] at based
    have all := sound.replaceAll [] before (rebase_parts based).1
    rw [List.nil_append, List.nil_append, ← cut.text_eq] at all
    rw [textOf_append]
    exact all
  have followed : (if (cut.renames choose).isEmpty then
        .ok (textOf (cut.pieces.retyped choose ++ cut.rest) cut.source.tail)
      else renameText (cut.renames choose)
        (textOf (cut.pieces.retyped choose ++ cut.rest) cut.source.tail)) =
      Except.ok (cut.afterText choose) := by
    unfold afterText after
    split
    · rename_i empty
      rw [List.isEmpty_iff.1 empty, renameTokens_nil]
    · rw [renameText_eq_ok (readSource_of_stable (cut.stable_retyped sound) 0)]
      exact congrArg Except.ok (textOf_renameTokens_rebase 0 false _ _)
  unfold applyCandidates
  change (if (cut.ordered choose).isEmpty = true then _ else _) = _
  split
  · rfl
  change (replaceAll (cut.ordered choose) cs >>= _) = _
  rw [replaced]
  change (if (cut.renames choose).isEmpty = true then _ else _) = _
  split
  · rename_i empty
    rw [if_pos empty] at followed
    change Except.ok (some _) = _
    rw [Except.ok.inj followed]
    rfl
  · rename_i some_
    rw [if_neg some_] at followed
    change (renameText (cut.renames choose) _ >>= _) = _
    rw [followed]
    rfl

end Cut

/-- What a transform makes of a text that is cut at its declarations. -/
theorem apply_cut {cs : List Char} (cut : Cut cs) :
    (transform.apply file cs).value =
      .ok (if (cut.ordered (transform.choose cut.source.words file)).isEmpty then none
        else some (cut.retyped (transform.choose cut.source.words file) file.path)) := by
  rw [← cut.applyCandidates_eq transform.sound_choose, Transform.apply, cut.read]
  dsimp only
  rw [cut.scanned]
  dsimp only
  rw [Logged.value_bind, Logged.value_mapM, List.map_map, List.filterMap_map, Logged.value_pure]
  have plans : (id ∘ (fun d => (transform.plan cut.source.words file d).value) ∘
      fun p : List Token × EnumTokens => p.2.decl) =
      fun p => (transform.choose cut.source.words file).candidate? p.2.decl :=
    funext fun p => transform.value_plan p.2.decl
  rw [plans]

end Retyping

end OpenApiModels
