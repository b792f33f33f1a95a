import OpenApiModels.Proofs.Retyping.EnumText
import OpenApiModels.Proofs.Retyping.TypeTokens

/-!
# Replacing declarations

Replacing one declaration after another, from the last to the first, replaces them all at once and
keeps everything else (`replaceAll_retyped`). What is written is read as the tokens of the new
declarations among the old tokens (`stableBefore_retyped`).
-/

namespace OpenApiModels.Retyping

open Text TypeScript

/-! ### Names -/

/-- A base name is the name itself, or the name ends in `Enum` behind it. -/
theorem baseName_spec (name : String) :
    baseName name = name ∨ (baseName name).toList ≠ [] ∧ name = baseName name ++ "Enum" := by
  unfold baseName
  split
  · exact .inl rfl
  · exact .inl rfl
  · rename_i base nonempty found
    have split := congrArg List.reverse (stripStart?_eq_some_iff.1 found)
    rw [List.reverse_reverse, List.reverse_append, List.reverse_reverse] at split
    refine .inr ⟨?_, ?_⟩
    · rw [String.toList_ofList]
      exact fun h => nonempty (List.reverse_eq_nil_iff.1 h)
    · rw [← String.toList_inj, String.toList_append, String.toList_ofList, split]

theorem baseName_append {base : String} (nonempty : base.toList ≠ []) :
    baseName (base ++ "Enum") = base := by
  have found : stripStart? "Enum".toList.reverse (base ++ "Enum").toList.reverse =
      some base.toList.reverse := by
    rw [stripStart?_eq_some_iff, String.toList_append, List.reverse_append]
  obtain ⟨c, cs, text⟩ := List.exists_cons_of_ne_nil (List.reverse_ne_nil_iff.2 nonempty)
  unfold baseName
  rw [found, text]
  dsimp only
  rw [← text, List.reverse_reverse, String.ofList_toList]

theorem toList_baseName_prefix (name : String) :
    (baseName name).toList <+: name.toList := by
  rcases baseName_spec name with same | ⟨-, split⟩
  · exact ⟨[], by rw [same, List.append_nil]⟩
  · exact ⟨"Enum".toList, by conv => rhs; rw [split, String.toList_append]⟩

/-- The new name is the old one without its suffix. -/
structure DropsSuffix (r : Rename) : Prop where
  new : r.new = baseName r.old
  ne : r.new ≠ r.old

theorem DropsSuffix.shortens {r : Rename} (h : DropsSuffix r) : r.Shortens := by
  rcases baseName_spec r.old with same | ⟨nonempty, -⟩
  · exact absurd (h.new.trans same) h.ne
  · rw [← h.new] at nonempty
    exact ⟨nonempty, h.new ▸ toList_baseName_prefix r.old⟩

theorem renamed_of_dropsSuffix {renames : List Rename} (h : ∀ r ∈ renames, DropsSuffix r)
    (name : String) : renamed renames name = name ∨ renamed renames name = baseName name := by
  rcases renamed_eq_or renames name with same | ⟨r, mem, rfl, new⟩
  · exact .inl same
  · exact .inr (new.trans (h r mem).new)

/-- A name stays just where it is no old name. -/
theorem renamed_eq_self_iff {renames : List Rename} (h : ∀ r ∈ renames, DropsSuffix r)
    {name : String} : renamed renames name = name ↔ ∀ r ∈ renames, r.old ≠ name := by
  refine ⟨fun same r mem old => ?_, fun none => ?_⟩
  · unfold renamed at same
    split at same
    · rename_i r' found
      have old' := List.find?_some found
      exact (h r' (List.mem_of_find?_eq_some found)).ne (same.trans (beq_iff_eq.1 old').symm)
    · rename_i found
      have differ := List.find?_eq_none.1 found r mem
      exact differ (beq_iff_eq.2 old)
  · rcases renamed_eq_or renames name with same | ⟨r, mem, old, -⟩
    · exact same
    · exact absurd old (none r mem)

theorem toList_renamed_prefix {renames : List Rename} (h : ∀ r ∈ renames, DropsSuffix r)
    (name : String) : (renamed renames name).toList <+: name.toList := by
  rcases renamed_of_dropsSuffix h name with same | same
  · exact ⟨[], by rw [same, List.append_nil]⟩
  · rw [same]
    exact toList_baseName_prefix name

theorem renamed_of_baseName_eq {renames : List Rename} (h : ∀ r ∈ renames, DropsSuffix r)
    {name : String} (own : baseName name = name) : renamed renames name = name :=
  (renamed_of_dropsSuffix h name).elim id fun new => new.trans own

/-- Names that are followed twice come back just if no rename concerns them. -/
theorem renamed_renamed_eq_self_iff {own renames : List Rename}
    (h : ∀ r ∈ renames, DropsSuffix r) (subset : own ⊆ renames) {name : String} :
    renamed renames (renamed own name) = name ↔ ∀ r ∈ renames, r.old ≠ name := by
  have ownDrops : ∀ r ∈ own, DropsSuffix r := fun r hr => h r (subset hr)
  refine ⟨fun same => ?_, fun none => ?_⟩
  · -- names only become shorter
    have first := toList_renamed_prefix ownDrops name
    have second := toList_renamed_prefix h (renamed own name)
    rw [same] at second
    have kept : renamed own name = name :=
      String.toList_inj.1 (first.eq_of_length_le second.length_le)
    rwa [kept, renamed_eq_self_iff h] at same
  · rw [(renamed_eq_self_iff ownDrops).2 fun r hr => none r (subset hr),
      (renamed_eq_self_iff h).2 none]

theorem isName_baseName {name : String} (h : Token.IsName name) : Token.IsName (baseName name) := by
  rcases baseName_spec name with same | ⟨nonempty, -⟩
  · rwa [same]
  obtain ⟨c, r, text, chars⟩ := h
  have start := toList_baseName_prefix name
  rw [text] at start
  cases base : (baseName name).toList with
  | nil => exact absurd base nonempty
  | cons d r' =>
    rw [base] at start
    obtain ⟨rfl, rest⟩ := List.cons_prefix_cons.1 start
    exact ⟨d, r', base, { chars with chars := fun d hd => chars.chars d (rest.subset hd) }⟩

theorem isNameChar_of_isName {name : String} (h : Token.IsName name) :
    ∀ c ∈ name.toList, isNameChar c = true := by
  obtain ⟨c, r, text, chars⟩ := h
  rw [text, List.forall_mem_cons]
  refine ⟨?_, chars.chars⟩
  have start := chars.start
  simp only [isNameStart, isNameChar, isAlphanumeric, Bool.or_eq_true] at start ⊢
  exact start.imp_left fun h => h.imp_left .inl

/-! ### Choices -/

/-- The new names and types of the declarations that are replaced. -/
abbrev Choice := EnumDecl → Option (String × NewType)

/-- The names and types that a transform can choose. -/
structure Choice.Sound (choose : Choice) : Prop where
  name : ∀ {d name type}, choose d = some (name, type) → name = d.name ∨ name = baseName d.name
  type : ∀ {d name type}, choose d = some (name, type) →
    type = .branded name ∨ type = .union d.strings ∧ d.strings ≠ []

def Choice.candidate? (choose : Choice) (d : EnumDecl) : Option Candidate :=
  (choose d).map fun (name, type) =>
    candidate d name (typeText d.exported name type) type.isBranded

/-- The tokens of a declaration, or of what replaces it. -/
def Choice.tokens (choose : Choice) (e : EnumTokens) : List Token :=
  match choose e.decl with
  | none => e.tokens
  | some (name, type) => typeTokens e.first.gap e.decl.exported name type

end OpenApiModels.Retyping

namespace OpenApiModels.TypeScript

open Retyping

def Pieces.retyped (choose : Choice) (pieces : Pieces) : List Token :=
  pieces.flatMap fun p => p.1 ++ choose.tokens p.2

@[simp] theorem Pieces.retyped_nil (choose : Choice) : Pieces.retyped choose [] = [] := rfl

theorem Pieces.retyped_cons (choose : Choice) (lead : List Token) (e : EnumTokens)
    (pieces : Pieces) :
    Pieces.retyped choose ((lead, e) :: pieces) =
      lead ++ (choose.tokens e ++ pieces.retyped choose) := by
  simp [Pieces.retyped]

end OpenApiModels.TypeScript

namespace OpenApiModels.Retyping

open Text TypeScript

theorem splitAtByte_append (a b : List Char) : splitAtByte (byteSize a) (a ++ b) = (a, b) := by
  induction a with
  | nil => cases b <;> rfl
  | cons c a ih =>
    obtain ⟨n, size⟩ : ∃ n, byteSize (c :: a) = n + 1 := by
      have := Char.utf8Size_pos c
      rw [byteSize_cons]
      exact ⟨c.utf8Size + byteSize a - 1, by omega⟩
    have rest : n + 1 - c.utf8Size = byteSize a := by
      rw [byteSize_cons] at size
      omega
    rw [size, List.cons_append, splitAtByte, rest, ih]

/-! ### One declaration -/

theorem isName_decl {e : EnumTokens} {rest : List Char} (stable : StableBefore e.tokens rest) :
    Token.IsName e.decl.name := by
  have tokens : e.tokens =
      (e.modifiers ++ [e.keyword]) ++ e.name :: e.brace :: (e.body ++ [e.close]) := by
    simp [EnumTokens.tokens]
  rw [tokens, stableBefore_append] at stable
  obtain ⟨-, -, fits, -⟩ := stable
  obtain ⟨c, r, text, chars, -⟩ := (Token.fits_word_iff e.kind_name).1 fits
  exact ⟨c, r, by rw [← text]; exact String.toList_ofList, chars⟩

variable {choose : Choice}

theorem Choice.Sound.isName (sound : choose.Sound) {e : EnumTokens} {rest : List Char}
    (stable : StableBefore e.tokens rest) {name : String} {type : NewType}
    (h : choose e.decl = some (name, type)) : Token.IsName name := by
  rcases sound.name h with rfl | rfl
  · exact isName_decl stable
  · exact isName_baseName (isName_decl stable)

/-- No occurrence of a declaration starts in what replaces it. -/
theorem Choice.Sound.avoids (sound : choose.Sound) {e : EnumTokens} {rest : List Char}
    (stable : StableBefore e.tokens rest) {name : String} {type : NewType}
    (h : choose e.decl = some (name, type)) (after : List Char) :
    Avoids e.decl.text (typeText e.decl.exported name type) (e.decl.text ++ after) := by
  have chars := isNameChar_of_isName (sound.isName stable h)
  rcases sound.type h with rfl | ⟨rfl, nonempty⟩
  · rw [← brandedDeclaration_eq]
    exact avoids_brandedDeclaration (e.startsEnum stable) e.decl chars after
  · rw [← unionDeclaration_eq _ _ nonempty]
    exact avoids_unionDeclaration (e.startsEnum stable) e.getLast?_text e.decl chars nonempty
      (fun v hv => e.hasLiteral stable hv) after

theorem Choice.Sound.replaceIn (sound : choose.Sound) {e : EnumTokens} {rest : List Char}
    (stable : StableBefore e.tokens rest) {c : Candidate} (h : choose.candidate? e.decl = some c)
    {before : List Char} (position : byteSize before = e.first.start) (after : List Char) :
    c.replaceIn (before ++ (e.decl.text ++ after)) =
      .ok (before ++ (c.declaration ++ after)) := by
  obtain ⟨⟨name, type⟩, chosen, rfl⟩ := Option.map_eq_some_iff.1 h
  have start : (candidate e.decl name (typeText e.decl.exported name type)
      type.isBranded).position = byteSize before := position.symm
  rw [Candidate.replaceIn, start, splitAtByte_append]
  dsimp only [candidate]
  rw [splitFirst?_of_avoids (sound.avoids stable chosen after)]
  simp

/-! ### All declarations -/

theorem byteSize_textOf (ts : List Token) (rest : List Char) :
    byteSize (textOf ts rest) = byteSize (textOf ts []) + byteSize rest := by
  rw [textOf_eq_append, byteSize_append]

theorem Choice.textOf_tokens {e : EnumTokens} (rest : List Char) :
    textOf (choose.tokens e) rest = e.first.gap ++
      ((match choose.candidate? e.decl with
        | some c => c.declaration
        | none => e.decl.text) ++ rest) := by
  rw [Choice.tokens, Choice.candidate?]
  cases choose e.decl with
  | none => exact e.textOf_tokens rest
  | some p => exact textOf_typeTokens _ _ _ _ _

/-- Replacing one declaration after another replaces all of them and nothing else. -/
theorem Choice.Sound.replaceAll (sound : choose.Sound) {pieces : Pieces} (before : List Char)
    {rest : List Char} (stable : StableBefore pieces.tokens rest)
    (based : rebase (byteSize before) pieces.tokens = pieces.tokens) :
    Retyping.replaceAll ((pieces.filterMap fun p => choose.candidate? p.2.decl).reverse)
        (before ++ textOf pieces.tokens rest) =
      .ok (before ++ textOf (pieces.retyped choose) rest) := by
  induction pieces generalizing before with
  | nil => rfl
  | cons p pieces ih =>
    obtain ⟨lead, e⟩ := p
    rw [Pieces.tokens_cons, stableBefore_append, stableBefore_append] at stable
    rw [Pieces.tokens_cons] at based ⊢
    obtain ⟨-, based⟩ := rebase_parts based
    obtain ⟨own, based⟩ := rebase_parts based
    have position : byteSize (before ++ textOf lead [] ++ e.first.gap) = e.first.start := by
      rw [e.tokens_eq, rebase] at own
      have start := congrArg Token.start (List.cons.inj own).1
      rw [← start]
      simp only [byteSize_append]
    have later := ih (before ++ textOf (lead ++ e.tokens) []) stable.2.2 (by
      rw [byteSize_append, textOf_append, byteSize_textOf, ← Nat.add_assoc]
      exact based)
    have split : before ++ textOf (lead ++ (e.tokens ++ Pieces.tokens pieces)) rest =
        before ++ textOf (lead ++ e.tokens) [] ++ textOf (Pieces.tokens pieces) rest := by
      rw [← List.append_assoc lead, textOf_append, textOf_eq_append (lead ++ e.tokens),
        List.append_assoc]
    have retyped : before ++ textOf (Pieces.retyped choose ((lead, e) :: pieces)) rest =
        before ++ textOf lead [] ++ e.first.gap ++
          ((match choose.candidate? e.decl with
            | some c => c.declaration
            | none => e.decl.text) ++ textOf (Pieces.retyped choose pieces) rest) := by
      rw [Pieces.retyped_cons, textOf_append, textOf_append, textOf_eq_append lead,
        Choice.textOf_tokens]
      simp
    have kept : ∀ z, before ++ textOf (lead ++ e.tokens) [] ++ z =
        before ++ textOf lead [] ++ e.first.gap ++ (e.decl.text ++ z) := by
      intro z
      rw [textOf_append, textOf_eq_append lead, e.textOf_tokens]
      simp
    rw [split, retyped]
    cases chosen : choose.candidate? e.decl with
    | none =>
      rw [List.filterMap_cons_none (by exact chosen), later, kept]
    | some c =>
      have last : Retyping.replaceAll [c]
          (before ++ textOf (lead ++ e.tokens) [] ++ textOf (Pieces.retyped choose pieces) rest) =
          .ok (before ++ textOf lead [] ++ e.first.gap ++
            (c.declaration ++ textOf (Pieces.retyped choose pieces) rest)) := by
        rw [kept, Retyping.replaceAll, List.foldlM_cons,
          sound.replaceIn stable.2.1 chosen position]
        rfl
      rw [List.filterMap_cons_some (by exact chosen), List.reverse_cons, Retyping.replaceAll,
        List.foldlM_append]
      unfold Retyping.replaceAll at later last
      rw [later]
      exact last

/-! ### Reading the new declarations -/

/-- A type declaration starts where an enum declaration can. -/
theorem alike_typeText {key : List Char} (starts : StartsEnum key) (exported : Bool) (name : String)
    (type : NewType) (rest rest' : List Char) :
    Alike (key ++ rest) (typeText exported name type ++ rest') := by
  obtain ⟨word, gap, c, more, rfl, opener, -⟩ := starts
  have first : ∀ w ∈ openers, ∃ d w', w = d :: w' ∧ isNameChar d = true ∧
      isNumberChar d = true := by
    intro w hw
    simp only [openers, List.mem_cons, List.not_mem_nil, or_false] at hw
    rcases hw with rfl | rfl | rfl | rfl <;>
      exact ⟨_, _, rfl, by decide, by decide⟩
  obtain ⟨d, word, rfl, isName, isNumber⟩ := first word opener
  cases exported with
  | true => exact .inr ⟨d, 'e', _, _, rfl, rfl, isName, isNumber, by decide, by decide⟩
  | false => exact .inr ⟨d, 't', _, _, rfl, rfl, isName, isNumber, by decide, by decide⟩

theorem Choice.Sound.stableBefore_tokens (sound : choose.Sound) {e : EnumTokens}
    {rest rest' : List Char} (stable : StableBefore e.tokens rest) (same : Alike rest rest') :
    StableBefore (choose.tokens e) rest' ∧
      Alike (textOf e.tokens rest) (textOf (choose.tokens e) rest') := by
  unfold Choice.tokens
  cases chosen : choose e.decl with
  | none => exact stable.alike same
  | some p =>
    obtain ⟨name, type⟩ := p
    have closed : ClosedGap e.first.gap := by
      have first := stable
      rw [e.tokens_eq] at first
      exact first.1
    refine ⟨stableBefore_typeTokens closed _ (sound.isName stable chosen) type rest', ?_⟩
    rw [e.textOf_tokens, textOf_typeTokens]
    exact (alike_typeText (e.startsEnum stable) _ _ _ _ _).append

/-- The new declarations are read back among the old tokens. -/
theorem Choice.Sound.stableBefore_retyped (sound : choose.Sound) {pieces : Pieces}
    {rest rest' : List Char} (stable : StableBefore pieces.tokens rest) (same : Alike rest rest') :
    StableBefore (pieces.retyped choose) rest' ∧
      Alike (textOf pieces.tokens rest) (textOf (pieces.retyped choose) rest') := by
  induction pieces with
  | nil => exact ⟨trivial, same⟩
  | cons p pieces ih =>
    obtain ⟨lead, e⟩ := p
    rw [Pieces.tokens_cons, stableBefore_append, stableBefore_append] at stable
    obtain ⟨later, alike⟩ := ih stable.2.2
    obtain ⟨own, alike⟩ := sound.stableBefore_tokens stable.2.1 alike
    rw [textOf_append] at stable
    obtain ⟨before, alike⟩ := stable.1.alike alike
    simp only [Pieces.tokens_cons, Pieces.retyped_cons, stableBefore_append, textOf_append]
    exact ⟨⟨before, own, later⟩, alike⟩

end OpenApiModels.Retyping
