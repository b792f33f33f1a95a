import OpenApiModels.Proofs.Retyping.ImportStatements
import OpenApiModels.Proofs.Retyping.PassItems
import OpenApiModels.Proofs.Retyping.Passes
import OpenApiModels.Proofs.Retyping.SettledTokens
import OpenApiModels.Proofs.Retyping.Spans

/-!
# Retyping files with imports on top

A file with a header, import lines and settled declarations below them is one again when
declarations are replaced and names are followed. So the import of `Branded` that a transform adds
stands behind the other imports and in front of the first declaration
(`IsArranged.apply_imports`).
-/

namespace OpenApiModels.Retyping

open Text TypeScript

/-- A text below imports that starts with an empty line and an exported declaration, in which no
line passes for an import and no import starts. -/
structure IsBelow (below : List Char) : Prop where
  starts : below.head? = some '\n'
  quiet : isQuiet .lineStart below = true
  reads : ∃ t ts, bareTokens below = some (t :: ts) ∧ Settled (t :: ts) ∧
    t.isWord "export" = true

/-- A file as it is generated. -/
structure IsArranged (header : List Char) (imports : List Import) (below : List Char) : Prop where
  isHeader : IsHeader header
  ofModel : ∀ i ∈ imports, i.OfModel
  isBelow : IsBelow below

variable {header below : List Char} {imports : List Import} {choose : Choice}

/-! ### Imports -/

theorem StaysUnbranded.renamed {name : String} (h : StaysUnbranded name) {renames : List Rename}
    (drops : ∀ r ∈ renames, DropsSuffix r) : StaysUnbranded (renamed renames name) := by
  rcases renamed_of_dropsSuffix drops name with same | same
  · rwa [same]
  · rw [same]
    intro n
    rw [← Function.iterate_succ_apply]
    exact h (n + 1)

theorem Import.OfModel.renamed {i : Import} (h : i.OfModel) {renames : List Rename}
    (drops : ∀ r ∈ renames, DropsSuffix r) : (i.renamed renames).OfModel where
  name := by
    change Token.IsName (TypeScript.renamed renames i.1)
    rcases renamed_of_dropsSuffix drops i.1 with same | same
    · rw [same]
      exact h.name
    · rw [same]
      exact isName_baseName h.name
  capital := by
    change (TypeScript.renamed renames i.1).toList.head?.any Char.isLower = false
    rw [head?_renamed drops]
    exact h.capital
  unbranded := h.unbranded.renamed drops
  module := h.module

theorem isWord_of_mem_importTokensFrom {gap : List Char} (ofModel : ∀ i ∈ imports, i.OfModel) :
    ∀ t ∈ importTokensFrom gap imports, t.isWord "enum" = false := by
  induction imports generalizing gap with
  | nil => exact fun t ht => absurd ht List.not_mem_nil
  | cons i imports ih =>
    obtain ⟨first, others⟩ := List.forall_mem_cons.1 ofModel
    rw [importTokensFrom, List.forall_mem_append]
    refine ⟨?_, ih others⟩
    have own : (Token.word [' '] i.1).isWord "enum" = false := by
      rw [Bool.eq_false_iff, Ne, isWord_word]
      intro same
      have capital := first.capital
      rw [same] at capital
      exact absurd capital (by decide)
    simp only [Import.tokens, List.forall_mem_cons]
    exact ⟨rfl, rfl, rfl, own, rfl, rfl, rfl, rfl, fun t ht => absurd ht List.not_mem_nil⟩

theorem isModifier_of_getLast?_importTokensFrom {gap : List Char} {t : Token}
    (h : (importTokensFrom gap imports).getLast? = some t) : t.isModifier = false := by
  have last : t = .mark [] ';' := by
    induction imports generalizing gap with
    | nil => cases h
    | cons i imports ih =>
      rw [importTokensFrom, List.getLast?_append] at h
      cases later : (importTokensFrom ['\n'] imports).getLast? with
      | none =>
        rw [later] at h
        exact (Option.some.inj h).symm
      | some u =>
        rw [later] at h
        cases h
        exact ih later
  rw [last]
  rfl

/-! ### One pass -/

/-- The tokens of a file with imports on top are those of the imports and of what stands below. -/
theorem Cut.exists_split (h : IsArranged header imports below)
    (cut : Cut (fileText header imports below)) :
    ∃ ts, cut.source.tokens = rebase 0 (importTokensFrom header imports) ++ ts ∧
      Stable ts cut.source.tail ∧ textOf ts cut.source.tail = gapBehind header imports ++ below := by
  have names : ∀ i ∈ imports, Token.IsName i.1 := fun i hi => (h.ofModel i hi).name
  have stable := stableBefore_importTokensFrom h.isHeader.leadsGap.closed names
    (gapBehind header imports ++ below)
  have read := readSource_of_stableBefore stable 0
  rw [textOf_importTokensFrom] at read
  have whole : readSource 0 (header ++ (imports.flatMap Import.line ++ below)) = .ok cut.source :=
    cut.read
  rw [read] at whole
  cases behind : readSource (0 + byteSize (textOf (importTokensFrom header imports) []))
      (gapBehind header imports ++ below) with
  | error e =>
    rw [behind] at whole
    cases whole
  | ok s =>
    rw [behind] at whole
    obtain same := Except.ok.inj whole
    rw [← same]
    exact ⟨s.tokens, rfl, (stable_of_readSource behind).1, text_of_readSource behind⟩

theorem LeadsGap.bareTokens {gap : List Char} (h : LeadsGap gap) (cs : List Char) :
    bareTokens (gap ++ cs) = TypeScript.bareTokens cs := by
  rw [h.reads]
  cases TypeScript.bareTokens cs <;> rfl

/-- The first token has the gap that leads to it. -/
theorem LeadsGap.exists_gap {gap cs tail : List Char} (h : LeadsGap gap) {t : Token}
    {ts : List Token} (stable : StableBefore (t :: ts) tail)
    (text : textOf (t :: ts) tail = gap ++ cs) :
    ∃ g, t.gap = gap ++ g ∧ cs = g ++ (t.text ++ textOf ts tail) := by
  obtain ⟨closed, fits, -⟩ := stable
  have split := closed 0 _ fits.startsToken
  rw [textOf_cons] at text
  rw [text] at split
  obtain ⟨g, own⟩ := h.start split
  refine ⟨g, own.symm, ?_⟩
  rw [← own, List.append_assoc] at text
  exact (List.append_cancel_left text).symm

theorem exists_tokens_of_mem {pieces : Pieces} {p : List Token × EnumTokens} (h : p ∈ pieces)
    (rest : List Token) :
    ∃ front us, pieces.tokens ++ rest = front ++ (p.2.tokens ++ us) := by
  obtain ⟨a, b, rfl⟩ := List.append_of_mem h
  exact ⟨Pieces.tokens a ++ p.1, Pieces.tokens b ++ rest, by simp [Pieces.tokens]⟩

theorem settled_of_mem_pieces {pieces : Pieces} {rest : List Token}
    (h : Settled (pieces.tokens ++ rest)) {q : List Token × EnumTokens} (hq : q ∈ pieces) :
    ∃ us, Settled (q.2.tokens ++ us) := by
  obtain ⟨front, us, split⟩ := exists_tokens_of_mem hq rest
  rw [split] at h
  exact ⟨us, h.behind⟩

/-- The text below the imports stays one when its declarations are replaced and names are
followed. -/
theorem IsBelow.exists_after (h : IsBelow below) {gap : List Char} (lead : LeadsGap gap)
    {pieces : Pieces} {rest : List Token} {tail : List Char}
    (stable : Stable (pieces.tokens ++ rest) tail)
    (text : textOf (pieces.tokens ++ rest) tail = gap ++ below) (sound : choose.Sound)
    {renames : List Rename} (drops : ∀ r ∈ renames, DropsSuffix r)
    (declared : ∀ r ∈ renames, ∃ q ∈ pieces, r.old = q.2.decl.name) (afterPoint : Bool) :
    ∃ below', textOf (renameTokens renames afterPoint (pieces.retyped choose ++ rest)) tail =
      gap ++ below' ∧ IsBelow below' := by
  obtain ⟨starts, quiet, t₀, ts₀, reads, bare, isExport⟩ := h
  -- the tokens of the text
  have tokens : (pieces.tokens ++ rest).map Token.bare = t₀ :: ts₀ := by
    have own := bareTokens_of_stable stable
    rw [text, lead.bareTokens, reads] at own
    exact (Option.some.inj own).symm
  have settled : Settled (pieces.tokens ++ rest) := settled_bare_iff.1 (tokens ▸ bare)
  obtain ⟨t, us, split, rfl, -⟩ := List.map_eq_cons_iff.1 tokens
  have notSmall : ∀ r ∈ renames, r.old.toList.head?.any Char.isLower = false := by
    intro r hr
    obtain ⟨q, hq, old⟩ := declared r hr
    obtain ⟨_, here⟩ := settled_of_mem_pieces settled hq
    rw [old, show q.2.decl.name.toList = q.2.name.text from String.toList_ofList]
    exact EnumTokens.notSmall here
  have shortens : ∀ r ∈ renames, r.Shortens := fun r hr => (drops r hr).shortens
  have others : ∀ r ∈ renames, r.old.toList.head? ≠ some 'i' := by
    intro r hr letter
    have capital := notSmall r hr
    rw [letter] at capital
    cases capital
  -- the new tokens
  have before := stableBefore_append.1 stable.1
  have retyped := (sound.stableBefore_retyped before.1 (.inl rfl)).1
  have stable' : Stable (pieces.retyped choose ++ rest) tail :=
    ⟨stableBefore_append.2 ⟨retyped, before.2⟩, stable.2⟩
  have stable'' := stable_renameTokens shortens stable' afterPoint
  have quiets : QuietsDown (textOf (pieces.tokens ++ rest) tail)
      (textOf (renameTokens renames afterPoint (pieces.retyped choose ++ rest)) tail) := by
    intro p here
    refine quietsDown_renameTokens shortens others stable'.1 afterPoint p ?_
    rw [textOf_append] at here ⊢
    exact sound.quietsDown_retyped (fun _ same => same) before.1 (.inl rfl) p here
  have settled' := settled_renameTokens drops notSmall (settled_retyped sound settled) afterPoint
  obtain ⟨t', us', split', gap', isExport'⟩ := @exists_head_retyped choose _ _ _ _ split
  rw [split', renameTokens_cons] at stable'' quiets settled' ⊢
  -- the gap in front of them stays
  rw [split] at text stable
  obtain ⟨g, own, isBelow⟩ := lead.exists_gap stable.1 text
  have text' : textOf (t'.renameName renames afterPoint ::
      renameTokens renames (t'.isMark '.') us') tail = gap ++ (g ++
        ((t'.renameName renames afterPoint).text ++
          textOf (renameTokens renames (t'.isMark '.') us') tail)) := by
    rw [textOf_cons, Token.gap_renameName, gap', own, List.append_assoc]
  refine ⟨_, text', ?_, ?_, _, _, ?_, settled_bare_iff.2 settled',
    isWord_renameName drops (by decide) (isExport' isExport) afterPoint⟩
  · cases g with
    | nil =>
      have starts' := stable.1.2.1.startsToken
      rw [isBelow, List.nil_append] at starts
      obtain ⟨r, line⟩ := List.head?_eq_some_iff.1 starts
      rw [line] at starts'
      cases starts'
    | cons c g =>
      rw [isBelow] at starts
      exact starts
  · have here := quiets .lineStart
    rw [split, text, text', lead.quiet, lead.quiet] at here
    exact here quiet
  · rw [← lead.bareTokens, ← text', bareTokens_of_stable stable'']
    rfl

theorem Cut.exists_old {cs : List Char} (cut : Cut cs) {r : Rename} (h : r ∈ cut.renames choose) :
    ∃ p ∈ cut.pieces, r.old = p.2.decl.name := by
  obtain ⟨c, hc, rename⟩ := List.mem_filterMap.1 h
  obtain ⟨p, hp, planned⟩ := List.mem_filterMap.1 (List.mem_reverse.1 hc)
  obtain ⟨⟨name, type⟩, -, rfl⟩ := Option.map_eq_some_iff.1 planned
  simp only [candidate] at rename
  split at rename
  · cases rename
  · cases rename
    exact ⟨p, hp, rfl⟩

/-- Replacing declarations and following names keeps the arrangement of a file. -/
theorem IsArranged.exists_after (h : IsArranged header imports below)
    (cut : Cut (fileText header imports below)) (sound : choose.Sound) :
    ∃ below', cut.afterText choose =
        fileText header (imports.map (Import.renamed (cut.renames choose))) below' ∧
      IsArranged header (imports.map (Import.renamed (cut.renames choose))) below' := by
  obtain ⟨ts, tokens, stable, text⟩ := cut.exists_split h
  have drops : ∀ r ∈ cut.renames choose, DropsSuffix r := fun r => cut.dropsSuffix_of_mem sound
  have bareFront : (rebase 0 (importTokensFrom header imports)).map Token.bare =
      (importTokensFrom header imports).map Token.bare := map_bare_rebase 0 _
  have noEnum : ∀ t ∈ rebase 0 (importTokensFrom header imports), t.isWord "enum" = false := by
    intro t ht
    obtain ⟨u, hu, same⟩ := List.mem_map.1 (bareFront ▸ List.mem_map_of_mem (f := Token.bare) ht)
    have own := isWord_of_mem_importTokensFrom h.ofModel u hu
    change t.bare.isWord "enum" = false
    rw [← same]
    exact own
  have noModifier : ∀ t, (rebase 0 (importTokensFrom header imports)).getLast? = some t →
      t.isModifier = false := by
    intro t last
    have last' := congrArg List.getLast? bareFront
    rw [List.getLast?_map, List.getLast?_map, last, Option.map_some] at last'
    obtain ⟨u, own, same⟩ := Option.map_eq_some_iff.1 last'.symm
    have plain := isModifier_of_getLast?_importTokensFrom own
    change t.bare.isModifier = false
    rw [← same]
    exact plain
  obtain ⟨pieces, rest, split, decls, retyped⟩ :=
    exists_behind_front (cut.tokens_eq.symm.trans tokens) (followed_of_not noEnum) noModifier
  have declared : ∀ r ∈ cut.renames choose, ∃ q ∈ pieces, r.old = q.2.decl.name := by
    intro r hr
    obtain ⟨q, hq, old⟩ := cut.exists_old hr
    have mem : q.2 ∈ pieces.map (·.2) := by
      rw [decls]
      exact List.mem_map_of_mem hq
    obtain ⟨q', hq', same⟩ := List.mem_map.1 mem
    exact ⟨q', hq', by rw [old, same]⟩
  have after := @renameTokens_append (cut.renames choose) false
    (rebase 0 (importTokensFrom header imports)) (pieces.retyped choose ++ rest)
  rw [split] at stable text
  obtain ⟨below', text', isBelow'⟩ := h.isBelow.exists_after
    (leadsGap_gapBehind h.isHeader.leadsGap imports) stable text sound drops declared _
  have ofModel' : ∀ i ∈ imports.map (Import.renamed (cut.renames choose)), i.OfModel :=
    List.forall_mem_map.2 fun i hi => (h.ofModel i hi).renamed drops
  refine ⟨below', ?_, h.isHeader, ofModel', isBelow'⟩
  have behind : gapBehind header (imports.map (Import.renamed (cut.renames choose))) =
      gapBehind header imports := by simp [gapBehind]
  rw [Cut.afterText, Cut.after, retyped, after, textOf_append, text',
    textOf_renameTokens_rebase, renameTokens_importTokensFrom drops, ← behind,
    textOf_importTokensFrom]
  rfl

/-! ### Transforms -/

variable {transform : Transform} {file : FileContext} {r : Retyped}

/-- `after` is the text with the planned declarations replaced where they stand and the new names
followed. -/
def Transform.RetypesTo (transform : Transform) (file : FileContext) (cs after : List Char) :
    Prop :=
  ∃ source decls replaced,
    Source.ofText? cs = .ok source ∧ scanEnums cs = .ok decls ∧
    replaceSpans? 0 ((transform.planned source.words file decls).map editOf) cs = some replaced ∧
    renameText ((transform.planned source.words file decls).filterMap (·.2.rename)) replaced =
      .ok after

/-- What a transform makes of an arranged file, an added import aside. -/
theorem IsArranged.exists_retyped (h : IsArranged header imports below)
    (apply : (transform.apply file (fileText header imports below)).value = .ok (some r)) :
    ∃ imports' below',
      transform.RetypesTo file (fileText header imports below) (fileText header imports' below') ∧
      IsArranged header imports' below' ∧
      r.text = (if r.support = [] then fileText header imports' below'
        else addBrandedImport file.path (fileText header imports' below')) := by
  obtain ⟨cut⟩ := exists_cut apply
  have sound : (transform.choose cut.source.words file).Sound := transform.sound_choose
  obtain ⟨below', after, arranged⟩ := h.exists_after cut sound
  have followed := cut.renameText_planned transform file
  rw [after] at followed
  have scanned : scanEnums (fileText header imports below) =
      .ok (cut.pieces.map fun p => p.2.decl) := by
    rw [scanEnums, cut.read]
    exact cut.scanned
  have retyped := eq_retyped_of_apply cut apply
  refine ⟨_, below', ⟨cut.source, _, _, cut.read, scanned, cut.replaceSpans?_planned transform file,
    followed⟩, arranged, ?_⟩
  rw [retyped, ← after]
  unfold Cut.retyped
  dsimp only
  split
  · rw [if_neg (List.cons_ne_nil _ _)]
  · rw [if_pos rfl]

/-- The union transform brands nothing. -/
theorem support_of_union {cs : List Char}
    (apply : (Transform.union.apply file cs).value = .ok (some r)) : r.support = [] := by
  obtain ⟨cut⟩ := exists_cut apply
  rw [eq_retyped_of_apply cut apply]
  unfold Cut.retyped
  dsimp only
  split
  · rename_i branded
    obtain ⟨c, hc, isBranded⟩ := List.any_eq_true.1 branded
    obtain ⟨p, -, planned⟩ := List.mem_filterMap.1 (List.mem_reverse.1 hc)
    obtain ⟨⟨name, type⟩, chosen, rfl⟩ := Option.map_eq_some_iff.1 planned
    unfold Transform.choose at chosen
    dsimp only at chosen
    split at chosen
    · cases chosen
    · cases chosen
      cases isBranded
  · rfl

/-- Transforms that brand nothing keep a file arranged. -/
theorem IsArranged.passes {transforms : List Transform} {cs' : List Char} {renames : List Rename}
    (h : IsArranged header imports below) (unions : ∀ t ∈ transforms, t = .union)
    (passes : Passes file transforms (fileText header imports below) cs' renames) :
    ∃ imports' below', cs' = fileText header imports' below' ∧
      IsArranged header imports' below' := by
  generalize start : fileText header imports below = cs at passes
  induction passes generalizing imports below with
  | nil => exact ⟨imports, below, start.symm, h⟩
  | same _ _ ih => exact ih h (fun t ht => unions t (List.mem_cons_of_mem _ ht)) start
  | @retyped t ts cs cs' renames r apply _ ih =>
    subst start
    obtain rfl := unions t List.mem_cons_self
    obtain ⟨imports', below', -, arranged, text⟩ := h.exists_retyped apply
    rw [if_pos (support_of_union apply)] at text
    exact ih arranged (fun t ht => unions t (List.mem_cons_of_mem _ ht)) text.symm

/-! ### The added import -/

/-- The module of an import that starts with the first token, if it is one of the name. -/
def importSource? (name : String) (t : Token) (ts : List Token) : Option (List Char) :=
  let behind := if ts.head?.any (·.isWord "type") then ts.tail else ts
  if t.isWord "import" ∧ behind.head?.any (·.isMark '\x7b') then
    match behind.dropWhile (!·.isMark '\x7d') with
    | _ :: keyword :: source :: _ =>
      if keyword.isWord "from" ∧ source.kind = .literal ∧
          (behind.takeWhile (!·.isMark '\x7d')).any (·.isWord name) then
        some source.text
      else none
    | _ => none
  else none

/-- The modules that the tokens import the name from. -/
def importSources (name : String) : List Token → List (List Char)
  | [] => []
  | t :: ts => (importSource? name t ts).toList ++ importSources name ts

section Sources

variable {name : String} {t : Token} {ts : List Token}

theorem importSources_cons_of_not (h : t.isWord "import" = false) :
    importSources name (t :: ts) = importSources name ts := by
  have none : importSource? name t ts = none := if_neg fun both => by
    rw [h] at both
    cases both.1
  rw [importSources, none]
  rfl

theorem importSources_of_noImport (h : NoImport ts) : importSources name ts = [] := by
  induction ts with
  | nil => rfl
  | cons t ts ih =>
    obtain ⟨first, others⟩ := followed_cons.1 h
    cases isImport : t.isWord "import" with
    | false => rw [importSources_cons_of_not isImport, ih others]
    | true =>
      obtain ⟨u, b, rfl, mark, notBrace⟩ := first isImport
      have notType : u.isWord "type" = false := by simp [Token.isWord, mark]
      have none : importSource? name t (u :: b) = none := by
        simp [importSource?, notType, notBrace]
      rw [importSources, none, ih others]
      rfl

theorem importSources_bare {i : Import} (notImport : i.1 ≠ "import") :
    importSources name (i.bare ++ ts) =
      (if i.1 = name then [stringLiteral i.2.toList] else []) ++ importSources name ts := by
  have own (word : String) : (Token.word [] i.1).isWord word = decide (i.1 = word) := by
    rw [Bool.eq_iff_iff, isWord_word, decide_eq_true_eq]
  have behind : importSources name (.word [] "type" :: .mark [] '\x7b' :: .word [] i.1 ::
      .mark [] '\x7d' :: .word [] "from" :: .literal [] i.2 :: .mark [] ';' :: ts) =
      importSources name ts := by
    have named : (Token.word [] i.1).isWord "import" = false := by simpa [own] using notImport
    simp only [importSources_cons_of_not named,
      importSources_cons_of_not (show (Token.word [] "type").isWord "import" = false by decide),
      importSources_cons_of_not (show (Token.word [] "from").isWord "import" = false by decide),
      importSources_cons_of_not (show (Token.mark [] _).isWord "import" = false from rfl),
      importSources_cons_of_not (show (Token.literal [] _).isWord "import" = false from rfl)]
  have source : importSource? name (.word [] "import") (.word [] "type" :: .mark [] '\x7b' ::
      .word [] i.1 :: .mark [] '\x7d' :: .word [] "from" :: .literal [] i.2 :: .mark [] ';' :: ts) =
      if i.1 = name then some (stringLiteral i.2.toList) else none := by
    have any : [Token.mark [] '\x7b', .word [] i.1].any (·.isWord name) = decide (i.1 = name) := by
      rw [List.any_cons, List.any_cons, own]
      exact Bool.or_false _
    change (if _ ∧ _ ∧ ([Token.mark [] '\x7b', .word [] i.1].any (·.isWord name)) = true
      then _ else _) = _
    by_cases same : i.1 = name
    · rw [if_pos same]
      exact if_pos ⟨rfl, rfl, any.trans (decide_eq_true same)⟩
    · rw [if_neg same]
      exact if_neg fun all => same (of_decide_eq_true (any.symm.trans all.2.2))
  have tokens : i.bare ++ ts = .word [] "import" :: .word [] "type" :: .mark [] '\x7b' ::
      .word [] i.1 :: .mark [] '\x7d' :: .word [] "from" :: .literal [] i.2 :: .mark [] ';' :: ts :=
    rfl
  rw [tokens, importSources, source, behind]
  split <;> rfl

end Sources

theorem bareTokens_fileText (isHeader : IsHeader header) (names : ∀ i ∈ imports, Token.IsName i.1) :
    bareTokens (fileText header imports below) =
      (bareTokens below).map (imports.flatMap Import.bare ++ ·) := by
  have front := isHeader.leadsGap.reads.append
    (TypeScript.ReadsAs.flatMap fun i hi => readsAs_line (names i hi))
  rw [List.nil_append] at front
  rw [fileText, ← List.append_assoc]
  exact front below

theorem Import.OfModel.ne_branded {i : Import} (h : i.OfModel) : i.1 ≠ "Branded" := by
  intro same
  have apart := h.unbranded 0
  rw [same] at apart
  exact absurd apart (by decide)

theorem Import.OfModel.ne_import {i : Import} (h : i.OfModel) : i.1 ≠ "import" := by
  intro same
  have capital := h.capital
  rw [same] at capital
  exact absurd capital (by decide)

/-- `after` is read like `before`, apart from an import of `Branded` that stands behind imports of
other names and before an exported declaration. It is the only one of `Branded`. -/
def ImportsBrandedOnce (path : String) (before after : List Char) : Prop :=
  ∃ (imports : List Import) (t : Token) (ts : List Token),
    bareTokens before = some (imports.flatMap Import.bare ++ t :: ts) ∧
    t.isWord "export" = true ∧
    bareTokens after = some (imports.flatMap Import.bare ++
      ((importTokens [] path).map Token.bare ++ t :: ts)) ∧
    importSources "Branded" (imports.flatMap Import.bare ++
      ((importTokens [] path).map Token.bare ++ t :: ts)) =
        [stringLiteral (importPath path).toList]

theorem IsArranged.importsBrandedOnce (h : IsArranged header imports below) (path : String) :
    ImportsBrandedOnce path (fileText header imports below)
      (addBrandedImport path (fileText header imports below)) := by
  obtain ⟨isHeader, ofModel, starts, quiet, t, ts, reads, settled, isExport⟩ := h
  have names : ∀ i ∈ imports, Token.IsName i.1 := fun i hi => (ofModel i hi).name
  have branded : Token.IsName "Branded" := Token.isName_of_chars rfl (by decide)
  have names' : ∀ i ∈ imports ++ [("Branded", importPath path)], Token.IsName i.1 :=
    List.forall_mem_append.2 ⟨names, List.forall_mem_singleton.2 branded⟩
  refine ⟨imports, t, ts, ?_, isExport, ?_, ?_⟩
  · rw [bareTokens_fileText isHeader names, reads]
    rfl
  · rw [addBrandedImport_fileText isHeader ofModel starts quiet, bareTokens_fileText isHeader names',
      reads, List.flatMap_append, List.flatMap_singleton]
    simp only [Option.map_some, List.append_assoc]
    rfl
  · have others : ∀ rest, importSources "Branded" (imports.flatMap Import.bare ++ rest) =
        importSources "Branded" rest := by
      intro rest
      clear reads quiet names names'
      induction imports with
      | nil => rfl
      | cons i imports ih =>
        obtain ⟨first, more⟩ := List.forall_mem_cons.1 ofModel
        rw [List.flatMap_cons, List.append_assoc, importSources_bare first.ne_import,
          if_neg first.ne_branded, List.nil_append, ih more]
    have own : (importTokens [] path).map Token.bare =
        Import.bare ("Branded", importPath path) := rfl
    rw [others, own, importSources_bare (show "Branded" ≠ "import" by decide),
      importSources_of_noImport settled.imports]
    rfl

/-- Where a transform brands an enum of an arranged file, it adds an import of `Branded` in front of
the declarations and changes no other token. -/
theorem IsArranged.apply_imports (h : IsArranged header imports below)
    (apply : (transform.apply file (fileText header imports below)).value = .ok (some r))
    (branded : r.support ≠ []) :
    ∃ after, transform.RetypesTo file (fileText header imports below) after ∧
      ImportsBrandedOnce file.path after r.text := by
  obtain ⟨imports', below', retypes, arranged, text⟩ := h.exists_retyped apply
  rw [if_neg branded] at text
  refine ⟨_, retypes, ?_⟩
  rw [text]
  exact arranged.importsBrandedOnce file.path

end OpenApiModels.Retyping
