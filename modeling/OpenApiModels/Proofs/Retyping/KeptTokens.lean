import OpenApiModels.Proofs.Retyping.Spans
import OpenApiModels.Proofs.Retyping.Tracing

/-!
# Tokens that a transform keeps

A text that a transform retypes is taken apart into the tokens that stay and the declarations that
are replaced (`Splice`). What stays keeps its comments, its literals and its member accesses, and
no two names of it are merged (`Transform.apply_keeps`).
-/

namespace OpenApiModels

namespace TypeScript

/-! ### Points -/

/-- Tokens, each with whether it stands behind a point. -/
def withPoints (afterPoint : Bool) : List Token → List (Bool × Token)
  | [] => []
  | t :: ts => (afterPoint, t) :: withPoints (t.isMark '.') ts

theorem withPoints_append (afterPoint : Bool) (a b : List Token) :
    withPoints afterPoint (a ++ b) =
      withPoints afterPoint a ++ withPoints (endsInPoint afterPoint a) b := by
  induction a generalizing afterPoint with
  | nil => rfl
  | cons t a ih =>
    rw [List.cons_append, withPoints, ih, endsInPoint_cons, withPoints, List.cons_append]

theorem map_snd_withPoints (afterPoint : Bool) (ts : List Token) :
    (withPoints afterPoint ts).map (·.2) = ts := by
  induction ts generalizing afterPoint with
  | nil => rfl
  | cons t ts ih => rw [withPoints, List.map_cons, ih]

theorem mem_of_mem_withPoints {afterPoint p : Bool} {t : Token} {ts : List Token}
    (h : (p, t) ∈ withPoints afterPoint ts) : t ∈ ts := by
  rw [← map_snd_withPoints afterPoint ts]
  exact List.mem_map_of_mem h

theorem EnumTokens.endsInPoint_tokens (e : EnumTokens) (afterPoint : Bool) :
    endsInPoint afterPoint e.tokens = false := by
  rw [EnumTokens.tokens, endsInPoint_concat]
  exact Token.isMark_eq_false e.isMark_close (by decide)

end TypeScript

namespace Retyping

open Text TypeScript

theorem endsInPoint_typeTokens (afterPoint : Bool) (gap : List Char) (exported : Bool)
    (name : String) (type : NewType) :
    endsInPoint afterPoint (typeTokens gap exported name type) = false := by
  rw [typeTokens, endsInPoint_concat]
  rfl

theorem Choice.endsInPoint_tokens (choose : Choice) (e : EnumTokens) (afterPoint : Bool) :
    endsInPoint afterPoint (choose.tokens e) = false := by
  unfold Choice.tokens
  split
  · exact e.endsInPoint_tokens afterPoint
  · exact endsInPoint_typeTokens afterPoint _ _ _ _

/-! ### Parts -/

/-- A part of a text that is retyped. -/
inductive Part where
  /-- A token that stays, what it becomes, and whether it stands behind a point. -/
  | kept (afterPoint : Bool) (before after : Token)
  /-- A declaration for which a replacement is planned, its tokens and the new ones. -/
  | replaced (plan : EnumDecl × Candidate) (before : List (Bool × Token)) (after : List Token)

namespace Part

def before : Part → List (Bool × Token)
  | kept afterPoint t _ => [(afterPoint, t)]
  | replaced _ ts _ => ts

def after : Part → List Token
  | kept _ _ t => [t]
  | replaced _ _ ts => ts

def plan? : Part → Option (EnumDecl × Candidate)
  | kept _ _ _ => none
  | replaced plan _ _ => some plan

/-- A token that stays keeps the comments before it, and its text unless it is a name that stands
behind no point. What takes the place of a declaration stands behind the same comments. -/
def KeepsText : Part → Prop
  | kept afterPoint t t' =>
    t'.gap = t.gap ∧ t'.kind = t.kind ∧ (t.kind = .word ∧ afterPoint = false ∨ t'.text = t.text)
  | replaced (d, c) ts ts' =>
    (ts.head?.map fun first => first.2.start) = some d.start ∧
      ∃ gap, textOf (ts.map (·.2)) [] = gap ++ d.text ∧ textOf ts' [] = gap ++ c.declaration

end Part

/-- The names that stay and stand behind no point are alike just where they were alike before. -/
def NamesApart (parts : List Part) : Prop :=
  ∀ t t' u u', .kept false t t' ∈ parts → .kept false u u' ∈ parts → t.kind = .word →
    u.kind = .word → (t'.text = u'.text ↔ t.text = u.text)

/-- A text that a transform takes apart at the declarations it replaces. The new text, `followed`,
is read as what the parts become. -/
structure Splice (transform : Transform) (file : FileContext) (cs followed : List Char) where
  source : Source
  decls : List EnumDecl
  parts : List Part
  read : Source.ofText? cs = .ok source
  scanned : scanEnums cs = .ok decls
  plans_eq : parts.filterMap Part.plan? = transform.planned source.words file decls
  before_eq : parts.flatMap Part.before = withPoints false source.tokens
  read_followed :
    Source.ofText? followed = .ok ⟨rebase 0 (parts.flatMap Part.after), source.tail⟩

section

variable (renames : List Rename)

def keptParts (afterPoint : Bool) (ts : List Token) : List Part :=
  (withPoints afterPoint ts).map fun (afterPoint, t) =>
    .kept afterPoint t (t.renameName renames afterPoint)

variable {renames}

theorem before_keptParts (afterPoint : Bool) (ts : List Token) :
    (keptParts renames afterPoint ts).flatMap Part.before = withPoints afterPoint ts := by
  rw [keptParts, List.flatMap_map]
  exact List.flatMap_singleton' _

theorem after_keptParts (afterPoint : Bool) (ts : List Token) :
    (keptParts renames afterPoint ts).flatMap Part.after = renameTokens renames afterPoint ts := by
  induction ts generalizing afterPoint with
  | nil => rfl
  | cons t ts ih => exact congrArg (List.cons _) (ih _)

theorem plan?_keptParts (afterPoint : Bool) (ts : List Token) :
    (keptParts renames afterPoint ts).filterMap Part.plan? = [] := by
  rw [List.filterMap_eq_nil_iff]
  intro part mem
  obtain ⟨entry, -, rfl⟩ := List.mem_map.1 mem
  rfl

end

variable {choose : Choice} {renames : List Rename}

def Choice.parts (choose : Choice) (renames : List Rename) (afterPoint : Bool) (e : EnumTokens) :
    List Part :=
  match choose.candidate? e.decl with
  | none => keptParts renames afterPoint e.tokens
  | some c => [.replaced (e.decl, c) (withPoints afterPoint e.tokens) (choose.tokens e)]

/-- The parts of pieces and of the tokens behind them. -/
def partsOf (choose : Choice) (renames : List Rename) (pieces : Pieces) (rest : List Token) :
    List Part :=
  pieces.flatMap (fun p => keptParts renames false p.1 ++
    choose.parts renames (endsInPoint false p.1) p.2) ++ keptParts renames false rest

theorem partsOf_cons (choose : Choice) (renames : List Rename) (lead : List Token) (e : EnumTokens)
    (pieces : Pieces) (rest : List Token) : partsOf choose renames ((lead, e) :: pieces) rest =
      keptParts renames false lead ++ (choose.parts renames (endsInPoint false lead) e ++
        partsOf choose renames pieces rest) := by
  simp [partsOf]

theorem Choice.before_parts (afterPoint : Bool) (e : EnumTokens) :
    (choose.parts renames afterPoint e).flatMap Part.before = withPoints afterPoint e.tokens := by
  unfold Choice.parts
  split
  · exact before_keptParts afterPoint e.tokens
  · exact List.append_nil _

theorem before_partsOf (pieces : Pieces) (rest : List Token) :
    (partsOf choose renames pieces rest).flatMap Part.before =
      withPoints false (pieces.tokens ++ rest) := by
  induction pieces with
  | nil => exact before_keptParts false rest
  | cons p pieces ih =>
    obtain ⟨lead, e⟩ := p
    -- what stands behind a declaration stands behind its closing brace, so behind no point
    rw [partsOf_cons, List.flatMap_append, List.flatMap_append, before_keptParts,
      Choice.before_parts, ih, Pieces.tokens_cons, List.append_assoc, List.append_assoc,
      withPoints_append false lead, withPoints_append _ e.tokens, e.endsInPoint_tokens]

theorem plan?_partsOf (pieces : Pieces) (rest : List Token) :
    (partsOf choose renames pieces rest).filterMap Part.plan? =
      pieces.filterMap fun p => (choose.candidate? p.2.decl).map fun c => (p.2.decl, c) := by
  induction pieces with
  | nil => exact plan?_keptParts false rest
  | cons p pieces ih =>
    obtain ⟨lead, e⟩ := p
    rw [partsOf_cons, List.filterMap_append, List.filterMap_append, plan?_keptParts, ih,
      Choice.parts, List.filterMap_cons, List.nil_append]
    cases choose.candidate? e.decl with
    | none => exact congrArg (· ++ _) (plan?_keptParts _ _)
    | some c => rfl

/-- A part is a token with its name followed, or a declaration with its replacement. -/
theorem of_mem_partsOf {pieces : Pieces} {rest : List Token} {part : Part}
    (h : part ∈ partsOf choose renames pieces rest) :
    (∃ p t, part = .kept p t (t.renameName renames p)) ∨
      ∃ e c p, choose.candidate? e.decl = some c ∧
        part = .replaced (e.decl, c) (withPoints p e.tokens) (choose.tokens e) := by
  have kept {p : Bool} {ts : List Token} (h : part ∈ keptParts renames p ts) :
      ∃ p t, part = .kept p t (t.renameName renames p) := by
    obtain ⟨⟨p, t⟩, -, rfl⟩ := List.mem_map.1 h
    exact ⟨p, t, rfl⟩
  rcases List.mem_append.1 h with inPieces | behind
  · obtain ⟨⟨lead, e⟩, -, mem⟩ := List.mem_flatMap.1 inPieces
    rcases List.mem_append.1 mem with before | own
    · exact .inl (kept before)
    · unfold Choice.parts at own
      split at own
      · exact .inl (kept own)
      · rename_i c chosen
        exact .inr ⟨e, c, _, chosen, List.mem_singleton.1 own⟩
  · exact .inl (kept behind)

/-! ### New declarations -/

/-- Following names leaves a new declaration as it is, if it leaves its name. -/
theorem renameTokens_typeTokens (drops : ∀ r ∈ renames, DropsSuffix r) {name : String}
    (stays : renamed renames name = name) (afterPoint : Bool) (gap : List Char) (exported : Bool)
    (type : NewType) : renameTokens renames afterPoint (typeTokens gap exported name type) =
      typeTokens gap exported name type := by
  have word (gap : List Char) {text : String} (fixed : renamed renames text = text) :
      renamed renames (Token.word gap text).name = (Token.word gap text).name := by
    rwa [Token.name, Token.word, String.ofList_toList]
  have own : ∀ text ∈ ["export", "type"] ++ ["Branded", "string"],
      renamed renames text = text := by
    have base : ∀ text ∈ ["export", "type", "Branded", "string"], baseName text = text := by decide
    exact fun text mem => renamed_of_baseName_eq drops (base text mem)
  have each : EachToken (fun t => t.kind = .word → renamed renames t.name = t.name) gap name :=
    { keyword := fun _ _ text mem _ => word _ (own text (List.mem_append_left _ mem))
      word := fun _ _ text mem _ => word _ (own text (List.mem_append_right _ mem))
      name := fun _ => word _ stays
      mark := fun _ _ _ _ isWord => by cases isWord
      literal := fun _ isWord => by cases isWord }
  exact renameTokens_eq_self (each.of_mem_typeTokens exported type) afterPoint

theorem after_partsOf (drops : ∀ r ∈ renames, DropsSuffix r) (pieces : Pieces) (rest : List Token)
    (stays : ∀ p ∈ pieces, ∀ name type, choose p.2.decl = some (name, type) →
      renamed renames name = name) :
    (partsOf choose renames pieces rest).flatMap Part.after =
      renameTokens renames false (pieces.retyped choose ++ rest) := by
  induction pieces with
  | nil => exact after_keptParts false rest
  | cons p pieces ih =>
    obtain ⟨lead, e⟩ := p
    obtain ⟨own, others⟩ := List.forall_mem_cons.1 stays
    have decl : (choose.parts renames (endsInPoint false lead) e).flatMap Part.after =
        renameTokens renames (endsInPoint false lead) (choose.tokens e) := by
      unfold Choice.parts Choice.candidate? Choice.tokens
      cases chosen : choose e.decl with
      | none => exact after_keptParts _ e.tokens
      | some new =>
        obtain ⟨name, type⟩ := new
        dsimp only [Option.map_some]
        rw [renameTokens_typeTokens drops (own name type chosen)]
        simp [Part.after]
    -- a new declaration ends in a semicolon, so the names behind it are followed as before
    rw [partsOf_cons, List.flatMap_append, List.flatMap_append, after_keptParts, decl, ih others,
      Pieces.retyped_cons, List.append_assoc, List.append_assoc, renameTokens_append _ lead,
      renameTokens_append _ (choose.tokens e), choose.endsInPoint_tokens]

/-! ### Names -/

/-- Following names whose new names are free merges no two names in use. -/
theorem renamed_inj {words : List String} (drops : ∀ r ∈ renames, DropsSuffix r)
    (free : ∀ r ∈ renames, r.new ∉ words) {m n : String} (hm : m ∈ words) (hn : n ∈ words) :
    renamed renames m = renamed renames n ↔ m = n := by
  have becomes (name : String) : NameBecomes renames name (renamed renames name) :=
    (renamed_eq_or renames name).imp_right fun ⟨r, hr, old, new⟩ => ⟨r, hr, old, new⟩
  refine ⟨fun same => ?_, congrArg _⟩
  by_contra differ
  obtain ⟨r, hr, ⟨-, new⟩ | ⟨-, new⟩⟩ :=
    exists_rename_of_same drops differ (becomes m) (same ▸ becomes n)
  · exact free r hr (new ▸ hn)
  · exact free r hr (new ▸ hm)

theorem name_mem_words {s : Source} {t : Token} (h : t ∈ s.tokens) (word : t.kind = .word) :
    t.name ∈ s.words :=
  List.mem_map_of_mem (List.mem_filter.2 ⟨h, by simp [word]⟩)

variable {transform : Transform} {file : FileContext} {cs : List Char}

namespace Cut

variable (cut : Cut cs)

theorem mem_tokens {p : List Token × EnumTokens} (h : p ∈ cut.pieces) {t : Token}
    (mem : t ∈ p.2.tokens) : t ∈ cut.source.tokens := by
  rw [cut.tokens_eq]
  exact List.mem_append_left _ (List.mem_flatMap.2 ⟨p, h, List.mem_append_right _ mem⟩)

theorem declName_mem_words {p : List Token × EnumTokens} (h : p ∈ cut.pieces) :
    p.2.decl.name ∈ cut.source.words :=
  name_mem_words (cut.mem_tokens h (by simp [EnumTokens.tokens])) p.2.kind_name

/-- No new declaration has a name that is followed. -/
theorem renamed_of_chosen {p : List Token × EnumTokens} (h : p ∈ cut.pieces) {name : String}
    {type : NewType}
    (chosen : transform.choose cut.source.words file p.2.decl = some (name, type)) :
    renamed (cut.renames (transform.choose cut.source.words file)) name = name := by
  have target := Transform.name_of_choose chosen
  refine (renamed_eq_self_iff fun _ hr =>
    cut.dropsSuffix_of_mem transform.sound_choose hr).2 fun r hr old => ?_
  have planned := cut.planned_of_mem hr
  obtain ⟨q, hq, declared, new⟩ := planned.declared
  by_cases same : name = p.2.decl.name
  · -- the target of a declaration depends on its name only
    have alike : (targetName q.2.decl cut.source.words file).value =
        (targetName p.2.decl cut.source.words file).value := by
      simp only [targetName, declared.trans (old.trans same)]
    exact planned.ne (by rw [← new, alike, ← target, old])
  · -- the new name was free, the name that is followed is in use
    have renames : ⟨p.2.decl.name, name⟩ ∈
        cut.renames (transform.choose cut.source.words file) := by
      refine List.mem_filterMap.2 ⟨_, List.mem_reverse.2 (List.mem_filterMap.2
        ⟨p, h, congrArg (Option.map _) chosen⟩), ?_⟩
      simp only [candidate, if_neg same]
    refine (cut.planned_of_mem renames).new_not_mem_used ?_
    exact (declared.trans old) ▸ cut.declName_mem_words hq

def parts (choose : Choice) : List Part :=
  partsOf choose (cut.renames choose) cut.pieces cut.rest

theorem before_parts (choose : Choice) :
    (cut.parts choose).flatMap Part.before = withPoints false cut.source.tokens := by
  rw [cut.tokens_eq]
  exact before_partsOf cut.pieces cut.rest

theorem after_parts :
    (cut.parts (transform.choose cut.source.words file)).flatMap Part.after =
      cut.after (transform.choose cut.source.words file) :=
  after_partsOf (fun _ => cut.dropsSuffix_of_mem transform.sound_choose) cut.pieces cut.rest
    fun _ hp _ _ chosen => cut.renamed_of_chosen hp chosen

def splice (transform : Transform) (file : FileContext) :
    Splice transform file cs (cut.afterText (transform.choose cut.source.words file)) where
  source := cut.source
  decls := cut.pieces.map fun p => p.2.decl
  parts := cut.parts (transform.choose cut.source.words file)
  read := cut.read
  scanned := by rw [scanEnums, cut.read]; exact cut.scanned
  plans_eq := by rw [cut.planned_eq]; exact plan?_partsOf cut.pieces cut.rest
  before_eq := cut.before_parts _
  read_followed := by
    rw [cut.after_parts]
    exact readSource_of_stable (cut.stable_after transform.sound_choose) 0

theorem keepsText_of_mem {part : Part} {choose : Choice} (h : part ∈ cut.parts choose) :
    part.KeepsText := by
  rcases of_mem_partsOf h with ⟨p, t, rfl⟩ | ⟨e, c, p, chosen, rfl⟩
  · refine ⟨Token.gap_renameName, Token.kind_renameName, ?_⟩
    by_cases name : t.kind = .word ∧ !p
    · exact .inl (by simpa using name)
    · exact .inr (by rw [Token.renameName, if_neg name])
  · have after := choose.textOf_tokens (e := e) []
    rw [chosen] at after
    refine ⟨?_, e.first.gap, ?_, ?_⟩
    · rw [e.tokens_eq]
      rfl
    · rw [map_snd_withPoints]
      simpa using e.textOf_tokens []
    · simpa using after

theorem namesApart :
    NamesApart (cut.parts (transform.choose cut.source.words file)) := by
  intro t t' u u' ht hu wordT wordU
  have mem {t t' : Token}
      (h : .kept false t t' ∈ cut.parts (transform.choose cut.source.words file)) :
      t ∈ cut.source.tokens ∧
        t' = t.renameName (cut.renames (transform.choose cut.source.words file)) false := by
    have before : (false, t) ∈ withPoints false cut.source.tokens := by
      rw [← cut.before_parts (transform.choose cut.source.words file)]
      exact List.mem_flatMap.2 ⟨_, h, List.mem_singleton_self _⟩
    refine ⟨mem_of_mem_withPoints before, ?_⟩
    rcases of_mem_partsOf h with ⟨p, v, same⟩ | ⟨_, _, _, -, same⟩ <;> cases same
    rfl
  obtain ⟨memT, rfl⟩ := mem ht
  obtain ⟨memU, rfl⟩ := mem hu
  have names : t.name = u.name ↔ t.text = u.text := String.ofList_inj
  rw [Token.text_renameName wordT, Token.text_renameName wordU, String.toList_inj, ← names]
  exact renamed_inj (fun _ => cut.dropsSuffix_of_mem transform.sound_choose)
    (fun r hr => (cut.planned_of_mem hr).new_not_mem_used) (name_mem_words memT wordT)
    (name_mem_words memU wordU)

end Cut

/-- Outside the declarations it replaces, a transform keeps comments, literals and member accesses
as they are, and it merges no names. The import of branded types is added behind that. -/
theorem Transform.apply_keeps {r : Retyped}
    (apply : (transform.apply file cs).value = .ok (some r)) :
    ∃ followed, ∃ splice : Splice transform file cs followed,
      r.text = (if (transform.planned splice.source.words file splice.decls).any (·.2.branded) then
          addBrandedImport file.path followed
        else followed) ∧
      (∀ part ∈ splice.parts, part.KeepsText) ∧ NamesApart splice.parts := by
  obtain ⟨cut⟩ := exists_cut apply
  refine ⟨_, cut.splice transform file, ?_, fun _ => cut.keepsText_of_mem, cut.namesApart⟩
  rw [eq_retyped_of_apply cut apply, Cut.retyped, ← cut.planned_candidates, List.any_reverse,
    List.any_map]
  rfl

section Example

/-- Two enums, one of them named as the other one without its suffix. -/
def unitText : String :=
  "enum UEnumEnum \x7bA = \"UEnum\"\x7d //UEnum\nenum UEnum \x7bB = \"b\"\x7d\nx.UEnum(UEnum)\n"

def unitTextAfter : String :=
  "type UEnumEnum = \"UEnum\"; //UEnum\ntype U = \"b\";\nx.UEnum(U)\n"

theorem apply_keeps_unit : ∃ r,
    (Transform.union.apply ⟨"units.ts", []⟩ unitText.toList).value = .ok (some r) ∧
      r.text = unitTextAfter.toList ∧
      ∃ followed, ∃ splice : Splice .union ⟨"units.ts", []⟩ unitText.toList followed,
        r.text = (if (Transform.union.planned splice.source.words ⟨"units.ts", []⟩
            splice.decls).any (·.2.branded) then addBrandedImport "units.ts" followed
          else followed) ∧
        (∀ part ∈ splice.parts, part.KeepsText) ∧ NamesApart splice.parts := by
  have applied : (Transform.union.apply ⟨"units.ts", []⟩ unitText.toList).value.map
      (·.map (·.text)) = .ok (some unitTextAfter.toList) := by
    rw [show unitText.toList = _ from String.toList_ofList ..,
      show unitTextAfter.toList = _ from String.toList_ofList ..]
    decide +kernel
  cases result : (Transform.union.apply ⟨"units.ts", []⟩ unitText.toList).value with
  | error e =>
    rw [result] at applied
    cases applied
  | ok retyped? =>
    rw [result] at applied
    obtain ⟨r, rfl, text⟩ := Option.map_eq_some_iff.1 (Except.ok.inj applied)
    exact ⟨r, rfl, text, Transform.apply_keeps result⟩

end Example

end Retyping

end OpenApiModels
