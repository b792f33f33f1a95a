import OpenApiModels.Proofs.Retyping.KeptNames
import OpenApiModels.Proofs.Retyping.Tracing

/-!
# How often the keyword occurs

Every declaration that is replaced takes a keyword `enum` with it, and neither the new declaration
nor an import line brings one back. So a file that any transform retypes ends a run with another
text than it had (`Passes.text_ne`, `Followed.text_ne`).
-/

namespace OpenApiModels.TypeScript

/-- How many words spell the keyword. -/
def enumWords (ts : List Token) : Nat :=
  ts.countP (·.isWord "enum")

@[simp] theorem enumWords_nil : enumWords [] = 0 := rfl

@[simp] theorem enumWords_cons (t : Token) (ts : List Token) :
    enumWords (t :: ts) = enumWords ts + if t.isWord "enum" then 1 else 0 :=
  List.countP_cons

@[simp] theorem enumWords_append (a b : List Token) :
    enumWords (a ++ b) = enumWords a + enumWords b :=
  List.countP_append

theorem enumWords_eq_zero {ts : List Token} (h : ∀ t ∈ ts, t.isWord "enum" = false) :
    enumWords ts = 0 :=
  List.countP_eq_zero.2 fun t ht => by rw [h t ht]; exact Bool.false_ne_true

theorem enumWords_eq_of_bare {ts ts' : List Token}
    (same : ts.map Token.bare = ts'.map Token.bare) : enumWords ts = enumWords ts' := by
  have own (ts : List Token) : enumWords (ts.map Token.bare) = enumWords ts := List.countP_map
  rw [← own ts, same, own]

theorem enumWords_renameTokens {renames : List Rename} (keeps : KeepsEnum renames)
    (afterPoint : Bool) (ts : List Token) :
    enumWords (renameTokens renames afterPoint ts) = enumWords ts := by
  induction ts generalizing afterPoint with
  | nil => rfl
  | cons t ts ih =>
    rw [renameTokens_cons, enumWords_cons, enumWords_cons, ih,
      Token.isWord_enum_renameName keeps]

end OpenApiModels.TypeScript

namespace OpenApiModels.Retyping

open Text TypeScript

/-! ### One declaration -/

/-- A new declaration spells the keyword only if that is its name. -/
theorem enumWords_typeTokens (gap : List Char) (exported : Bool) {name : String}
    (other : name ≠ "enum") (type : NewType) :
    enumWords (typeTokens gap exported name type) = 0 := by
  have word (g : List Char) {text : String} (h : text ≠ "enum") :
      (Token.word g text).isWord "enum" = false := isWord_enum_word g h
  have mark (g : List Char) (c : Char) : (Token.mark g c).isWord "enum" = false :=
    isWord_enum_of_kind (by simp [Token.mark])
  have each : EachToken (fun t => t.isWord "enum" = false) gap name :=
    { keyword := fun g _ text mem => word g (by rintro rfl; revert mem; decide)
      word := fun g _ text mem => word g (by rintro rfl; revert mem; decide)
      name := word _ other
      mark := fun g _ c _ => mark g c
      literal := fun value => isWord_enum_of_kind (by simp [Token.literal]) }
  exact enumWords_eq_zero (each.of_mem_typeTokens exported type)

/-- A declaration under its own name spells the keyword no more often than that name. -/
theorem enumWords_typeTokens_le (gap : List Char) (exported : Bool) (name : String)
    (type : NewType) : enumWords (typeTokens gap exported name type) ≤ 1 := by
  have type' : enumWords type.tokens = 0 := enumWords_eq_zero type.isWord_enum_tokens
  cases exported <;>
    simp only [typeTokens, enumWords_append, enumWords_cons, enumWords_nil, type', if_true,
      if_false, Bool.false_eq_true, isWord_enum_word _ (show "export" ≠ "enum" by decide),
      isWord_enum_word _ (show "type" ≠ "enum" by decide),
      isWord_enum_of_kind (show (Token.mark [' '] '=').kind ≠ .word by decide),
      isWord_enum_of_kind (show (Token.mark [] ';').kind ≠ .word by decide)] <;>
    split <;> omega

theorem enumWords_decl (e : EnumTokens) :
    enumWords [e.name] + 1 ≤ enumWords e.tokens := by
  simp only [EnumTokens.tokens, enumWords_append, enumWords_cons, e.isWord_keyword, enumWords_nil,
    if_true]
  omega

/-- The replacement of a declaration takes the keyword away. -/
theorem enumWords_replaced (e : EnumTokens) {name : String} (type : NewType)
    (named : name = e.decl.name ∨ name ≠ "enum") :
    enumWords (typeTokens e.first.gap e.decl.exported name type) < enumWords e.tokens := by
  have decl := enumWords_decl e
  by_cases keyword : name = "enum"
  · have isName : e.name.name = "enum" := (named.resolve_right (not_not.2 keyword)).symm.trans keyword
    have isWord : e.name.isWord "enum" = true := by
      rw [Token.isWord_iff, ← isName, Token.name, String.toList_ofList]
      exact ⟨e.kind_name, rfl⟩
    have once := enumWords_typeTokens_le e.first.gap e.decl.exported name type
    rw [enumWords_cons, isWord, if_pos rfl] at decl
    omega
  · rw [enumWords_typeTokens _ _ keyword]
    omega

/-! ### One pass -/

section

variable {choose : Choice}

/-- No declaration is replaced by one that is newly named after the keyword. -/
def Choice.SparesEnum (choose : Choice) (pieces : Pieces) : Prop :=
  ∀ p ∈ pieces, ∀ name type, choose p.2.decl = some (name, type) →
    name = p.2.decl.name ∨ name ≠ "enum"

theorem Choice.SparesEnum.tail {p : List Token × EnumTokens} {pieces : Pieces}
    (h : choose.SparesEnum (p :: pieces)) : choose.SparesEnum pieces :=
  fun q hq => h q (List.mem_cons_of_mem p hq)

theorem enumWords_chosen {e : EnumTokens}
    (spares : ∀ name type, choose e.decl = some (name, type) → name = e.decl.name ∨ name ≠ "enum") :
    enumWords (choose.tokens e) ≤ enumWords e.tokens ∧
      ((choose e.decl).isSome = true → enumWords (choose.tokens e) < enumWords e.tokens) := by
  unfold Choice.tokens
  cases chosen : choose e.decl with
  | none => exact ⟨le_refl _, fun none => nomatch none⟩
  | some new =>
    have fewer := enumWords_replaced e new.2 (spares new.1 new.2 chosen)
    exact ⟨fewer.le, fun _ => fewer⟩

theorem enumWords_retyped_le {pieces : Pieces} (spares : choose.SparesEnum pieces) :
    enumWords (pieces.retyped choose) ≤ enumWords pieces.tokens := by
  induction pieces with
  | nil => exact le_refl _
  | cons p pieces ih =>
    obtain ⟨lead, e⟩ := p
    have here := (enumWords_chosen (spares (lead, e) List.mem_cons_self)).1
    have later := ih spares.tail
    dsimp only at here
    simp only [Pieces.retyped_cons, Pieces.tokens_cons, enumWords_append]
    omega

theorem enumWords_retyped_lt {pieces : Pieces} (spares : choose.SparesEnum pieces)
    {p : List Token × EnumTokens} (mem : p ∈ pieces) (chosen : (choose p.2.decl).isSome = true) :
    enumWords (pieces.retyped choose) < enumWords pieces.tokens := by
  induction pieces with
  | nil => cases mem
  | cons q pieces ih =>
    obtain ⟨lead, e⟩ := q
    obtain ⟨here, less⟩ := enumWords_chosen (spares (lead, e) List.mem_cons_self)
    have later := enumWords_retyped_le spares.tail
    dsimp only at here less
    simp only [Pieces.retyped_cons, Pieces.tokens_cons, enumWords_append]
    rcases List.mem_cons.1 mem with rfl | mem
    · have := less chosen
      omega
    · have := ih spares.tail mem
      omega

end

variable {transform : Transform} {file : FileContext} {cs : List Char} {r : Retyped}

/-- What a transform chooses spares the keyword: only the name of a declaration can be it. -/
theorem Cut.sparesEnum (cut : Cut cs) :
    (transform.choose cut.source.words file).SparesEnum cut.pieces := by
  intro p hp name type chosen
  by_cases same : name = p.2.decl.name
  · exact .inl same
  have isNew : (⟨p.2.decl.name, name⟩ : Rename) ∈
      cut.renames (transform.choose cut.source.words file) := by
    have planned : (transform.choose cut.source.words file).candidate? p.2.decl =
        some (candidate p.2.decl name (typeText p.2.decl.exported name type) type.isBranded) := by
      rw [Choice.candidate?, chosen]
      rfl
    refine List.mem_filterMap.2 ⟨_, List.mem_reverse.2 (List.mem_filterMap.2 ⟨p, hp, planned⟩), ?_⟩
    exact if_neg same
  exact .inr (cut.safeRename_of_mem isNew).new_ne_enum

theorem exists_chosen_of_apply (cut : Cut cs)
    (apply : (transform.apply file cs).value = .ok (some r)) :
    ∃ p ∈ cut.pieces, (transform.choose cut.source.words file p.2.decl).isSome = true := by
  rw [apply_cut cut] at apply
  split at apply
  · cases apply
  · rename_i some
    obtain ⟨c, cs', ordered⟩ := List.exists_cons_of_ne_nil (mt List.isEmpty_iff.2 some)
    have mem : c ∈ cut.ordered (transform.choose cut.source.words file) := by
      rw [ordered]
      exact List.mem_cons_self
    obtain ⟨p, hp, planned⟩ := List.mem_filterMap.1 (List.mem_reverse.1 mem)
    obtain ⟨new, chosen, -⟩ := Option.map_eq_some_iff.1 planned
    exact ⟨p, hp, by rw [chosen]; rfl⟩

theorem enumWords_importTokens (gap : List Char) (path : String) :
    enumWords (importTokens gap path) = 0 := by
  refine enumWords_eq_zero fun t ht => ?_
  simp only [importTokens, List.mem_cons, List.not_mem_nil, or_false] at ht
  rcases ht with rfl | rfl | rfl | rfl | rfl | rfl | rfl | rfl
  · exact isWord_enum_word _ (by decide)
  · exact isWord_enum_word _ (by decide)
  · exact isWord_enum_of_kind (by decide)
  · exact isWord_enum_word _ (by decide)
  · exact isWord_enum_of_kind (by decide)
  · exact isWord_enum_word _ (by decide)
  · exact isWord_enum_of_kind (by simp [Token.literal])
  · exact isWord_enum_of_kind (by decide)

theorem LineEdit.enumWords_le {path : String} {p : List Char} {ts ts' : List Token}
    (edit : LineEdit path p ts ts') : enumWords ts' ≤ enumWords ts := by
  cases edit with
  | within same => exact (enumWords_eq_of_bare same).le
  | @literal a b l l' before after kind kind' =>
    subst before after
    have literal {t : Token} (kind : t.kind = .literal) : t.isWord "enum" = false :=
      isWord_enum_of_kind (by rw [kind]; decide)
    simp only [enumWords_append, enumWords_cons, literal kind, literal kind']
    exact le_refl _
  | @between a b b' gap before after same =>
    subst before after
    simp only [enumWords_append, enumWords_importTokens, enumWords_eq_of_bare same]
    omega
  | @glued a t t' before after text =>
    subst before after
    have last : t'.isWord "enum" = false := by
      rw [Bool.eq_false_iff]
      intro word
      have ends := (Token.isWord_iff.1 word).2
      rw [text] at ends
      have length := congrArg List.length ends
      rw [List.length_append, show "import".toList.length = 6 from rfl,
        show "enum".toList.length = 4 from rfl] at length
      omega
    have tail : enumWords (importTokens [] path).tail = 0 := by
      have all := enumWords_importTokens [] path
      rw [show importTokens [] path = .word [] "import" :: (importTokens [] path).tail from rfl,
        enumWords_cons] at all
      omega
    simp only [enumWords_append, enumWords_cons, last, tail, enumWords_nil, Bool.false_eq_true,
      if_false]
    omega

/-- A pass that retypes something leaves fewer keywords. -/
theorem enumWords_lt_of_apply (apply : (transform.apply file cs).value = .ok (some r))
    {s s' : Source} (source : Source.ofText? cs = .ok s) (read : Source.ofText? r.text = .ok s') :
    enumWords s'.tokens < enumWords s.tokens := by
  obtain ⟨cut, -, made⟩ := exists_passTokens apply read
  obtain rfl : cut.source = s := Except.ok.inj (cut.read.symm.trans source)
  have after : enumWords (cut.after (transform.choose cut.source.words file)) <
      enumWords cut.source.tokens := by
    obtain ⟨p, hp, chosen⟩ := exists_chosen_of_apply cut apply
    have fewer := enumWords_retyped_lt cut.sparesEnum hp chosen
    rw [Cut.after, enumWords_renameTokens (keepsEnum fun _ hr => cut.safeRename_of_mem hr),
      cut.tokens_eq, enumWords_append, enumWords_append]
    omega
  rcases made with same | ⟨_, _, ts, -, line, same⟩
  · rwa [enumWords_eq_of_bare same]
  · rw [enumWords_eq_of_bare same]
    exact line.enumWords_le.trans_lt after

/-! ### All passes over a file -/

variable {transforms : List Transform} {cs' : List Char} {renames : List Rename}

theorem Passes.enumWords_le (passes : Passes file transforms cs cs' renames) {s s' : Source}
    (source : Source.ofText? cs = .ok s) (read : Source.ofText? cs' = .ok s') :
    enumWords s'.tokens ≤ enumWords s.tokens := by
  induction passes generalizing s with
  | nil =>
    obtain rfl := Except.ok.inj (source.symm.trans read)
    exact le_refl _
  | same _ _ ih => exact ih source read
  | retyped apply more ih =>
    obtain ⟨s₁, read₁⟩ := more.readable read
    exact (ih read₁ read).trans (enumWords_lt_of_apply apply source read₁).le

/-- Something is retyped on the way from a text to another. -/
def Fires (file : FileContext) : List Transform → List Char → Prop
  | [], _ => False
  | t :: ts, cs =>
    match (t.apply file cs).value with
    | .ok none => Fires file ts cs
    | .ok (some _) => True
    | .error _ => False

theorem fires_append {first rest : List Transform} {t : Transform} {text : List Char}
    {before : List Rename} (passes : Passes file first cs text before)
    (apply : (t.apply file text).value = .ok (some r)) : Fires file (first ++ t :: rest) cs := by
  induction passes with
  | nil => simp only [List.nil_append, Fires, apply]
  | same here _ ih =>
    simp only [List.cons_append, Fires, here]
    exact ih apply
  | retyped here => simp only [List.cons_append, Fires, here]

theorem Passes.enumWords_lt (passes : Passes file transforms cs cs' renames)
    (fires : Fires file transforms cs) {s s' : Source} (source : Source.ofText? cs = .ok s)
    (read : Source.ofText? cs' = .ok s') : enumWords s'.tokens < enumWords s.tokens := by
  induction passes with
  | nil => exact fires.elim
  | same apply _ ih =>
    simp only [Fires, apply] at fires
    exact ih fires source read
  | retyped apply more =>
    obtain ⟨s₁, read₁⟩ := more.readable read
    exact (more.enumWords_le read₁ read).trans_lt (enumWords_lt_of_apply apply source read₁)

theorem Fires.readable (fires : Fires file transforms cs) : ∃ s, Source.ofText? cs = .ok s := by
  cases transforms with
  | nil => exact fires.elim
  | cons t ts =>
    cases applied : (t.apply file cs).value with
    | error e =>
      simp only [Fires, applied] at fires
    | ok x =>
      obtain ⟨cut⟩ := exists_cut applied
      exact ⟨cut.source, cut.read⟩

/-- The passes over a file change its text if any of them retypes something. -/
theorem Passes.text_ne (passes : Passes file transforms cs cs' renames)
    (fires : Fires file transforms cs) : cs' ≠ cs := by
  rintro rfl
  obtain ⟨s, source⟩ := fires.readable
  exact lt_irrefl _ (passes.enumWords_lt fires source source)

/-- The text stays another one where the renames of all files are followed. -/
theorem Followed.text_ne {all : List Rename} {f f' : FileState} (followed : Followed all f f')
    (safe : ∀ rename ∈ all, SafeRename rename)
    (passes : Passes file transforms cs f.current renames) (fires : Fires file transforms cs) :
    f'.current ≠ cs := by
  cases followed with
  | same => exact passes.text_ne fires
  | @renamed text found rename =>
    rintro rfl
    obtain ⟨s, source⟩ := fires.readable
    cases read : Source.ofText? f.current with
    | error e =>
      rw [renameText_eq_error read] at rename
      cases rename
    | ok s₁ =>
      rw [renameText_eq_ok read] at rename
      have again := ofText?_rename (fun r hr => (safe r hr).shortens) read
      rw [Except.ok.inj rename, source] at again
      obtain rfl := Except.ok.inj again
      have fewer := passes.enumWords_lt fires source read
      rw [enumWords_eq_of_bare (map_bare_rebase 0 _), enumWords_renameTokens (keepsEnum safe)]
        at fewer
      exact lt_irrefl _ fewer

end OpenApiModels.Retyping
