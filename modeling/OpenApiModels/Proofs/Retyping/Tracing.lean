import OpenApiModels.Proofs.Retyping.PassItems

/-!
# Tokens traced through a run

Every token that a run leaves in a file is traced back to the token of the stored text that it
comes from, if there is one (`Traces`). Names that differ stay apart, except where the renames of
all files meet the old and the new name of one of them in a file (`names_stay_apart`).
-/

namespace OpenApiModels.Retyping

open Text TypeScript

/-- Tokens, each with the token of the stored text that it comes from. -/
abbrev Trace := List (Option Token × Token)

namespace Trace

def tokens (x : Trace) : List Token :=
  x.map (·.2)

/-- Every token comes from itself. -/
def start (ts : List Token) : Trace :=
  ts.map fun t => (some t, t.bare)

/-- Tokens that come from none. -/
def added (ts : List Token) : Trace :=
  ts.map fun t => (none, t.bare)

def rename (renames : List Rename) : Bool → Trace → Trace
  | _, [] => []
  | afterPoint, (origin, t) :: x =>
    (origin, t.renameName renames afterPoint) :: rename renames (t.isMark '.') x

theorem tokens_append (x y : Trace) : (x ++ y).tokens = x.tokens ++ y.tokens :=
  List.map_append

theorem tokens_start (ts : List Token) : (start ts).tokens = ts.map Token.bare := by
  simp [tokens, start, Function.comp_def]

theorem tokens_added (ts : List Token) : (added ts).tokens = ts.map Token.bare := by
  simp [tokens, added, Function.comp_def]

theorem tokens_rename (renames : List Rename) (afterPoint : Bool) (x : Trace) :
    (x.rename renames afterPoint).tokens = renameTokens renames afterPoint x.tokens := by
  induction x generalizing afterPoint with
  | nil => rfl
  | cons entry x ih => exact congrArg _ (ih _)

end Trace

theorem map_bare_renameTokens (renames : List Rename) (afterPoint : Bool) (ts : List Token) :
    (renameTokens renames afterPoint ts).map Token.bare =
      renameTokens renames afterPoint (ts.map Token.bare) := by
  induction ts generalizing afterPoint with
  | nil => rfl
  | cons t ts ih =>
    rw [renameTokens_cons, List.map_cons, List.map_cons, renameTokens_cons, ih,
      Token.bare_renameName]
    rfl

/-! ### Edits -/

/-- What becomes of a token: its name may be followed, and an import line may go into a literal. -/
inductive Becomes (renames : List Rename) (t : Token) : Token → Prop where
  | renamed (afterPoint : Bool) : Becomes renames t (t.renameName renames afterPoint)
  | literal {t' : Token} (kind : t.kind = .literal) (kind' : t'.kind = .literal) :
      Becomes renames t t'

/-- What an edit does to the tokens of a file. -/
inductive Edits (renames : List Rename) (path : String) : Trace → Trace → Prop where
  | nil : Edits renames path [] []
  | keep {origin : Option Token} {t t' : Token} {x y : Trace} (becomes : Becomes renames t t')
      (more : Edits renames path x y) :
      Edits renames path ((origin, t) :: x) ((origin, t') :: y)
  /-- A type declaration takes the place of an enum declaration. -/
  | retype {decl x y : Trace} (e : EnumTokens) (name : String) (type : NewType)
      (afterPoint : Bool) (isDecl : decl.tokens = e.tokens.map Token.bare)
      (more : Edits renames path x y) :
      Edits renames path (decl ++ x) (Trace.added (renameTokens renames afterPoint
        (typeTokens e.first.gap e.decl.exported name type)) ++ y)
  | line {x y : Trace} (more : Edits renames path x y) :
      Edits renames path x (Trace.added (importTokens [] path) ++ y)
  /-- An import line goes on with the last token. -/
  | glued {origin : Option Token} {t t' : Token} (text : t'.text = t.text ++ "import".toList) :
      Edits renames path [(origin, t)] ((none, t') :: Trace.added (importTokens [] path).tail)

section

variable {renames : List Rename} {path : String} {x y : Trace}

theorem Edits.behind_renamed (more : Edits renames path x y) (front : Trace) (afterPoint : Bool) :
    Edits renames path (front ++ x) (front.rename renames afterPoint ++ y) := by
  induction front generalizing afterPoint with
  | nil => exact more
  | cons entry front ih => exact .keep (.renamed afterPoint) (ih _)

theorem Trace.rename_nil (afterPoint : Bool) (x : Trace) : x.rename [] afterPoint = x := by
  induction x generalizing afterPoint with
  | nil => rfl
  | cons entry x ih =>
    have same : entry.2.renameName [] afterPoint = entry.2 := by
      unfold Token.renameName
      split
      · simp [renamed_nil, Token.name]
      · rfl
    rw [Trace.rename, ih, same]

theorem Edits.behind (more : Edits [] path x y) (front : Trace) :
    Edits [] path (front ++ x) (front ++ y) := by
  have edits := more.behind_renamed front false
  rwa [Trace.rename_nil] at edits

theorem Edits.same (x : Trace) : Edits [] path x x := by
  have edits := (Edits.nil : Edits [] path [] []).behind x
  rwa [List.append_nil] at edits

/-- Each token that an edit keeps was there before. -/
theorem Edits.origin (h : Edits renames path x y) {a t' : Token} (mem : (some a, t') ∈ y) :
    ∃ t, (some a, t) ∈ x ∧ Becomes renames t t' := by
  have new {ts : List Token} : (some a, t') ∉ Trace.added ts := by simp [Trace.added]
  induction h with
  | nil => cases mem
  | @keep origin t u x y becomes _ ih =>
    rcases List.mem_cons.1 mem with same | later
    · cases same
      exact ⟨t, List.mem_cons_self, becomes⟩
    · obtain ⟨t, before, becomes⟩ := ih later
      exact ⟨t, List.mem_cons_of_mem _ before, becomes⟩
  | retype _ _ _ _ _ _ ih =>
    rcases List.mem_append.1 mem with here | later
    · exact absurd here new
    · obtain ⟨t, before, becomes⟩ := ih later
      exact ⟨t, List.mem_append_right _ before, becomes⟩
  | line _ ih =>
    rcases List.mem_append.1 mem with here | later
    · exact absurd here new
    · exact ih later
  | glued =>
    rcases List.mem_cons.1 mem with same | here
    · cases same
    · exact absurd here new

end

/-! ### Edits of a pass -/

section

variable {renames : List Rename} {path : String} {x : Trace}

theorem Trace.exists_append {a b : List Token} (tokens : x.tokens = a ++ b) :
    ∃ y z, x = y ++ z ∧ y.tokens = a ∧ z.tokens = b :=
  List.map_eq_append_iff.1 tokens

/-- Replacing declarations and following names is an edit. -/
theorem exists_edits_retyped (choose : Choice) {pieces : Pieces} {rest : List Token}
    (tokens : x.tokens = (pieces.tokens ++ rest).map Token.bare) (afterPoint : Bool) :
    ∃ y, Edits renames path x y ∧ y.tokens =
      (renameTokens renames afterPoint (Pieces.retyped choose pieces ++ rest)).map Token.bare := by
  induction pieces generalizing x afterPoint with
  | nil =>
    refine ⟨x.rename renames afterPoint, ?_, ?_⟩
    · simpa using (Edits.nil : Edits renames path [] []).behind_renamed x afterPoint
    · rw [Trace.tokens_rename, tokens, map_bare_renameTokens]
      rfl
  | cons p pieces ih =>
    obtain ⟨lead, e⟩ := p
    rw [Pieces.tokens_cons, List.append_assoc, List.append_assoc, List.map_append,
      List.map_append] at tokens
    obtain ⟨front, x, rfl, isLead, tokens⟩ := Trace.exists_append tokens
    obtain ⟨decl, x, rfl, isDecl, tokens⟩ := Trace.exists_append tokens
    rw [Pieces.retyped_cons, List.append_assoc, List.append_assoc]
    obtain ⟨y, edits, tokens'⟩ := ih tokens
      (endsInPoint (endsInPoint afterPoint lead) (choose.tokens e))
    rw [renameTokens_append, renameTokens_append, List.map_append, List.map_append, ← tokens']
    have lead' : (front.rename renames afterPoint).tokens =
        (renameTokens renames afterPoint lead).map Token.bare := by
      rw [Trace.tokens_rename, isLead, map_bare_renameTokens]
    cases chosen : choose e.decl with
    | none =>
      have kept := edits.behind_renamed decl (endsInPoint afterPoint lead)
      refine ⟨_, kept.behind_renamed front afterPoint, ?_⟩
      have same : choose.tokens e = e.tokens := by rw [Choice.tokens, chosen]
      rw [Trace.tokens_append, Trace.tokens_append, lead', Trace.tokens_rename, isDecl,
        ← map_bare_renameTokens, same]
    | some new =>
      obtain ⟨name, type⟩ := new
      have replaced := edits.retype e name type (endsInPoint afterPoint lead) isDecl
      refine ⟨_, replaced.behind_renamed front afterPoint, ?_⟩
      have retyped : choose.tokens e = typeTokens e.first.gap e.decl.exported name type := by
        rw [Choice.tokens, chosen]
      rw [Trace.tokens_append, Trace.tokens_append, lead', Trace.tokens_added, retyped]

theorem map_bare_importTokens (gap : List Char) (path : String) :
    (importTokens gap path).map Token.bare = (importTokens [] path).map Token.bare := rfl

/-- Adding an import line is an edit. -/
theorem exists_edits_line {p : List Char} {ts ts' : List Token} (h : LineEdit path p ts ts')
    (tokens : x.tokens = ts.map Token.bare) :
    ∃ y, Edits [] path x y ∧ y.tokens = ts'.map Token.bare := by
  cases h with
  | within same => exact ⟨x, .same x, by rw [tokens, same]⟩
  | @literal a b l l' before after kind kind' =>
    subst before after
    rw [List.map_append, List.map_cons] at tokens
    obtain ⟨front, x, rfl, isFront, tokens⟩ := Trace.exists_append tokens
    obtain ⟨⟨origin, t⟩, x, rfl, rfl, isRest⟩ := List.map_eq_cons_iff.1 tokens
    have literal : Becomes [] l.bare l'.bare := .literal kind kind'
    refine ⟨front ++ (origin, l'.bare) :: x, (Edits.keep literal (.same x)).behind front, ?_⟩
    rw [Trace.tokens_append, isFront, List.map_append, List.map_cons, ← isRest]
    rfl
  | @between a b b' gap before after same =>
    subst before after
    rw [List.map_append] at tokens
    obtain ⟨front, x, rfl, isFront, isRest⟩ := Trace.exists_append tokens
    refine ⟨_, (Edits.line (.same x)).behind front, ?_⟩
    rw [Trace.tokens_append, Trace.tokens_append, Trace.tokens_added, isFront, isRest,
      List.map_append, List.map_append, same, map_bare_importTokens gap]
  | @glued a t t' before after text =>
    subst before after
    rw [List.map_append] at tokens
    obtain ⟨front, x, rfl, isFront, tokens⟩ := Trace.exists_append tokens
    obtain ⟨⟨origin, u⟩, x, rfl, rfl, isRest⟩ := List.map_eq_cons_iff.1 tokens
    obtain rfl := List.map_eq_nil_iff.1 isRest
    have glued : Edits [] path [(origin, t.bare)] ((none, t'.bare) :: _) := .glued text
    refine ⟨front ++ (none, t'.bare) :: Trace.added (importTokens [] path).tail,
      glued.behind front, ?_⟩
    rw [Trace.tokens_append, isFront, List.map_append, List.map_cons, ← Trace.tokens_added]
    rfl

end

variable {transform : Transform} {file : FileContext} {cs : List Char} {r : Retyped}

theorem exists_edits_pass (apply : (transform.apply file cs).value = .ok (some r)) {s s' : Source}
    (source : Source.ofText? cs = .ok s) (read : Source.ofText? r.text = .ok s') {x : Trace}
    (tokens : x.tokens = s.tokens.map Token.bare) :
    ∃ y z, Edits (transform.renamesIn file cs) file.path x y ∧ Edits [] file.path y z ∧
      z.tokens = s'.tokens.map Token.bare := by
  obtain ⟨cut, -, made⟩ := exists_passTokens apply read
  obtain rfl : cut.source = s := Except.ok.inj (cut.read.symm.trans source)
  rw [cut.tokens_eq] at tokens
  obtain ⟨y, edits, after⟩ : ∃ y, Edits (transform.renamesIn file cs) file.path x y ∧ _ :=
    exists_edits_retyped (transform.choose cut.source.words file) tokens false
  rw [cut.renamesIn_eq] at after
  rcases made with same | ⟨_, _, ts, -, line, same⟩
  · exact ⟨y, y, edits, .same y, after.trans same.symm⟩
  · obtain ⟨z, added, tokens'⟩ := exists_edits_line line after
    exact ⟨y, z, edits, added, tokens'.trans same.symm⟩

/-! ### All passes over a file -/

/-- The trace of a file over the passes of a run. -/
inductive Traces (file : FileContext) :
    List Transform → List Char → Trace → List Char → Trace → Prop where
  | nil (cs : List Char) (x : Trace) : Traces file [] cs x cs x
  | same {t : Transform} {ts : List Transform} {cs cs' : List Char} {x z : Trace}
      (apply : (t.apply file cs).value = .ok none) (more : Traces file ts cs x cs' z) :
      Traces file (t :: ts) cs x cs' z
  | retyped {t : Transform} {ts : List Transform} {cs cs' : List Char} {x y z w : Trace}
      {r : Retyped} {s : Source} (apply : (t.apply file cs).value = .ok (some r))
      (read : Source.ofText? r.text = .ok s) (names : Edits (t.renamesIn file cs) file.path x y)
      (line : Edits [] file.path y z) (tokens : z.tokens = s.tokens.map Token.bare)
      (more : Traces file ts r.text z cs' w) : Traces file (t :: ts) cs x cs' w

variable {transforms : List Transform} {cs' : List Char} {renames : List Rename}

theorem Passes.readable (h : Passes file transforms cs cs' renames) {s' : Source}
    (read : Source.ofText? cs' = .ok s') : ∃ s, Source.ofText? cs = .ok s := by
  cases h with
  | nil => exact ⟨s', read⟩
  | same apply | retyped apply =>
    obtain ⟨cut⟩ := exists_cut apply
    exact ⟨cut.source, cut.read⟩

theorem Passes.exists_traces (h : Passes file transforms cs cs' renames) {s s' : Source}
    (source : Source.ofText? cs = .ok s) (read : Source.ofText? cs' = .ok s') {x : Trace}
    (tokens : x.tokens = s.tokens.map Token.bare) :
    ∃ z, Traces file transforms cs x cs' z ∧ z.tokens = s'.tokens.map Token.bare := by
  induction h generalizing s x with
  | nil cs =>
    obtain rfl := Except.ok.inj (source.symm.trans read)
    exact ⟨x, .nil cs x, tokens⟩
  | same apply _ ih =>
    obtain ⟨z, traces, tokens'⟩ := ih source read tokens
    exact ⟨z, .same apply traces, tokens'⟩
  | retyped apply more ih =>
    obtain ⟨s₁, read₁⟩ := more.readable read
    obtain ⟨y, z, names, line, tokens₁⟩ := exists_edits_pass apply source read₁ tokens
    obtain ⟨w, traces, tokens'⟩ := ih read₁ read tokens₁
    exact ⟨w, .retyped apply read₁ names line tokens₁ traces, tokens'⟩

/-! ### Names stay apart -/

/-- What a name may become. -/
def NameBecomes (renames : List Rename) (name name' : String) : Prop :=
  name' = name ∨ ∃ r ∈ renames, r.old = name ∧ name' = r.new

theorem nameBecomes_renameName (t : Token) (afterPoint : Bool) :
    NameBecomes renames t.name (t.renameName renames afterPoint).name := by
  unfold Token.renameName
  split
  · rcases renamed_eq_or renames t.name with same | ⟨r, hr, old, new⟩
    · exact .inl (by rw [same]; exact String.ofList_toList)
    · exact .inr ⟨r, hr, old, by rw [new]; exact String.ofList_toList⟩
  · exact .inl rfl

theorem DropsSuffix.old {r : Rename} (h : DropsSuffix r) : r.old = r.new ++ "Enum" := by
  rcases baseName_spec r.old with same | ⟨-, split⟩
  · exact absurd (h.new.trans same) h.ne
  · rw [h.new]
    exact split

/-- Two names become one only if one of them is the new name of the other. -/
theorem exists_rename_of_same (drops : ∀ r ∈ renames, DropsSuffix r) {m n name : String}
    (differ : m ≠ n) (first : NameBecomes renames m name) (second : NameBecomes renames n name) :
    ∃ r ∈ renames, (m = r.old ∧ n = r.new) ∨ (n = r.old ∧ m = r.new) := by
  rcases first with rfl | ⟨r, hr, rfl, rfl⟩
  · rcases second with same | ⟨r, hr, rfl, new⟩
    · exact absurd same differ
    · exact ⟨r, hr, .inr ⟨rfl, new⟩⟩
  · rcases second with same | ⟨r', hr', rfl, same⟩
    · exact ⟨r, hr, .inl ⟨rfl, same.symm⟩⟩
    · refine absurd ?_ differ
      rw [(drops r hr).old, (drops r' hr').old, same]

/-- Words keep their kind. -/
def WordsStay (x : Trace) : Prop :=
  ∀ a t, (some a, t) ∈ x → a.kind = .word → t.kind = .word

/-- Words that come from words with different names have different names. -/
def Apart (x : Trace) : Prop :=
  ∀ a t b u, (some a, t) ∈ x → (some b, u) ∈ x → a.kind = .word → b.kind = .word →
    a.name ≠ b.name → t.name ≠ u.name

theorem Becomes.kind {t t' : Token} (h : Becomes renames t t') : t'.kind = t.kind := by
  cases h with
  | renamed => exact Token.kind_renameName
  | literal kind kind' => rw [kind, kind']

theorem Becomes.name {t t' : Token} (h : Becomes renames t t') (word : t.kind = .word) :
    NameBecomes renames t.name t'.name := by
  cases h with
  | renamed => exact nameBecomes_renameName t _
  | literal kind => rw [word] at kind; cases kind

section

variable {path : String} {x y : Trace}

theorem Edits.wordsStay (h : Edits renames path x y) (words : WordsStay x) : WordsStay y := by
  intro a t' mem word
  obtain ⟨t, before, becomes⟩ := h.origin mem
  rw [becomes.kind]
  exact words a t before word

/-- An edit keeps names apart if no new name is a word already. -/
theorem Edits.apart (h : Edits renames path x y) (words : WordsStay x) (apart : Apart x)
    (drops : ∀ r ∈ renames, DropsSuffix r)
    (free : ∀ r ∈ renames, ∀ t ∈ x.tokens, t.kind = .word → t.name ≠ r.new) : Apart y := by
  intro a t' b u' ht hu wordA wordB differ same
  obtain ⟨t, memT, becomesT⟩ := h.origin ht
  obtain ⟨u, memU, becomesU⟩ := h.origin hu
  have wordT := words a t memT wordA
  have wordU := words b u memU wordB
  have becomes := becomesU.name wordU
  rw [← same] at becomes
  obtain ⟨r, hr, ⟨-, new⟩ | ⟨-, new⟩⟩ := exists_rename_of_same drops
    (apart a t b u memT memU wordA wordB differ) (becomesT.name wordT) becomes
  · exact free r hr u (List.mem_map_of_mem memU) wordU new
  · exact free r hr t (List.mem_map_of_mem memT) wordT new

end

theorem Transform.planned_renamesIn {rename : Rename} {s : Source}
    (read : Source.ofText? cs = .ok s) (mem : rename ∈ transform.renamesIn file cs) :
    DropsSuffix rename ∧ rename.new ∉ s.words ∧ rename.new ∉ file.treeNames := by
  cases scanned : enumDecls [] s.tokens with
  | error e =>
    simp only [Transform.renamesIn, read, scanned] at mem
    cases mem
  | ok decls =>
    obtain ⟨cut⟩ : Nonempty (Cut cs) := exists_cut_of_scan (by rw [scanEnums, read]; exact scanned)
    obtain rfl : cut.source = s := Except.ok.inj (cut.read.symm.trans read)
    rw [cut.renamesIn_eq] at mem
    have planned := cut.planned_of_mem mem
    exact ⟨planned.toDropsSuffix, planned.new_not_mem_used, planned.new_not_mem_treeNames⟩

/-- The passes over a file keep names apart. -/
theorem Traces.apart {x z : Trace} (h : Traces file transforms cs x cs' z) {s : Source}
    (source : Source.ofText? cs = .ok s) (tokens : x.tokens = s.tokens.map Token.bare)
    (words : WordsStay x) (apart : Apart x) : WordsStay z ∧ Apart z := by
  induction h generalizing s with
  | nil => exact ⟨words, apart⟩
  | same apply _ ih => exact ih source tokens words apart
  | @retyped t ts cs cs' x y z w r s₁ apply read names line tokens₁ _ ih =>
    have planned (rename : Rename) (mem : rename ∈ t.renamesIn file cs) :=
      t.planned_renamesIn source mem
    have free : ∀ rename ∈ t.renamesIn file cs, ∀ u ∈ x.tokens, u.kind = .word →
        u.name ≠ rename.new := by
      intro rename mem u hu word same
      rw [tokens] at hu
      obtain ⟨v, hv, rfl⟩ := List.mem_map.1 hu
      have isWord : v ∈ s.tokens.filter fun t => t.kind == .word :=
        List.mem_filter.2 ⟨hv, by simpa using word⟩
      refine (planned rename mem).2.1 ?_
      rw [← same]
      exact List.mem_map.2 ⟨v, isWord, rfl⟩
    have words' := names.wordsStay words
    have apart' := names.apart words apart (fun rename mem => (planned rename mem).1) free
    have none : ∀ r ∈ ([] : List Rename), DropsSuffix r := fun _ h => nomatch h
    exact ih read tokens₁ (line.wordsStay words')
      (line.apart words' apart' none fun _ h => nomatch h)

theorem mem_start {ts : List Token} {a t : Token} (h : (some a, t) ∈ Trace.start ts) :
    t = a.bare := by
  obtain ⟨b, -, same⟩ := List.mem_map.1 h
  obtain ⟨first, rfl⟩ := Prod.mk.inj same
  rw [Option.some.inj first]

theorem wordsStay_start (ts : List Token) : WordsStay (.start ts) := by
  intro a t mem word
  rw [mem_start mem, Token.kind_bare, word]

theorem apart_start (ts : List Token) : Apart (.start ts) := by
  intro a t b u ht hu _ _ differ
  rw [mem_start ht, mem_start hu]
  exact differ

/-! ### The renames of all files -/

/-- A rename comes from a file that does not use the new name there. -/
inductive FreeAtHome (transforms : List Transform) (files : List TreeFile) (rename : Rename) :
    Prop where
  | intro {done later : List (String × List Char)} {path : String} {stored text : List Char}
      {first rest : List Transform} {t : Transform} {before : List Rename} {r : Retyped}
      {s : Source} (split : decoded files = done ++ (path, stored) :: later)
      (order : transforms = first ++ t :: rest)
      (passes : Passes (contextAt transforms files done path) first stored text before)
      (apply : (t.apply (contextAt transforms files done path) text).value = .ok (some r))
      (mem : rename ∈ r.renames) (read : Source.ofText? text = .ok s)
      (free : rename.new ∉ s.words)

/-- The new names of a run are declared in no file, and their files do not use them. -/
theorem free_of_mem_renames {files : List TreeFile} {rename : Rename}
    (mem : rename ∈ (transformAll transforms files).value.renames) :
    DropsSuffix rename ∧ FreeAtHome transforms files rename ∧ rename.new ∉ treeNames files := by
  rw [transformAll_eq] at mem
  rcases (startOf transforms files).mem_renames_over mem with start | ⟨done, path, stored, later,
    f, renames, split, visit, here⟩
  · cases start
  cases visit with
  | same | failed => cases here
  | retyped passes =>
    obtain ⟨first, t, rest, text, before, r, order, passes', apply, mem⟩ := passes.mem_split here
    obtain ⟨cut⟩ := exists_cut apply
    obtain rfl := eq_retyped_of_apply cut apply
    have planned := cut.planned_of_mem (mem_renames_of_retyped mem)
    refine ⟨planned.toDropsSuffix, .intro split order passes' apply mem cut.read
      planned.new_not_mem_used, fun declared => planned.new_not_mem_treeNames ?_⟩
    exact (startOf transforms files).treeNames_subset_over transforms done declared

theorem name_of_mem_zip {z : Trace} {ts : List Token} {afterPoint : Bool}
    (same : renameTokens renames afterPoint z.tokens = ts.map Token.bare)
    {entry : Option Token × Token} {t' : Token} (mem : (entry, t') ∈ z.zip ts) :
    NameBecomes renames entry.2.name t'.name := by
  induction z generalizing ts afterPoint with
  | nil => cases mem
  | cons e z ih =>
    cases ts with
    | nil => cases mem
    | cons t ts =>
      rw [show Trace.tokens (e :: z) = e.2 :: Trace.tokens z from rfl, renameTokens_cons,
        List.map_cons] at same
      obtain ⟨here, later⟩ := List.cons.inj same
      rcases List.mem_cons.1 mem with first | rest
      · obtain ⟨rfl, rfl⟩ := Prod.mk.inj first
        rw [show t'.name = t'.bare.name from rfl, ← here]
        exact nameBecomes_renameName _ _
      · exact ih later rest

/-- The names of a trace are followed in a source. Words that come from words with different names
differ in it, except where a rename meets both its old and its new name. -/
structure KeepsApart (renames : List Rename) (z : Trace) (s : Source) : Prop where
  tokens : renameTokens renames false z.tokens = s.tokens.map Token.bare
  apart : ∀ a t t' b u u', ((some a, t), t') ∈ z.zip s.tokens → ((some b, u), u') ∈ z.zip s.tokens →
    a.kind = .word → b.kind = .word → a.name ≠ b.name → t'.name = u'.name →
    ∃ rename ∈ renames, (t.name = rename.old ∧ u.name = rename.new) ∨
      (u.name = rename.old ∧ t.name = rename.new)

/-- No file declares the new name of a rename that all files follow, and its own file does not use
it. Words of a file that differ before a run differ behind it, except where the renames of all
files meet the old and the new name of one of them. -/
theorem names_stay_apart {files : List TreeFile} {done later : List (String × List Char)}
    {path : String} {stored : List Char} (split : decoded files = done ++ (path, stored) :: later)
    {f : FileState} (result : (filesAfter transforms files)[done.length]? = some f)
    (found : f.failed = false) {s : Source} (read : Source.ofText? f.current = .ok s) :
    (∀ rename ∈ (transformAll transforms files).value.renames,
      FreeAtHome transforms files rename ∧ rename.new ∉ treeNames files) ∧
    ∃ s₀ text z, Source.ofText? stored = .ok s₀ ∧
      Traces (contextAt transforms files done path) transforms stored (.start s₀.tokens) text z ∧
      KeepsApart (transformAll transforms files).value.renames z s := by
  refine ⟨fun rename mem => (free_of_mem_renames mem).2, ?_⟩
  have drops : ∀ rename ∈ (transformAll transforms files).value.renames, DropsSuffix rename :=
    fun rename mem => (free_of_mem_renames mem).1
  obtain ⟨f₀, renames, visit, followed⟩ := visit_at split result
  obtain ⟨s₁, read₁, tokens₁⟩ : ∃ s₁, Source.ofText? f₀.current = .ok s₁ ∧
      renameTokens (transformAll transforms files).value.renames false
        (s₁.tokens.map Token.bare) = s.tokens.map Token.bare := by
    cases followed with
    | same stays =>
      rcases stays with failed | nothing | ⟨e, fails⟩
      · rw [found] at failed
        cases failed
      · exact ⟨s, read, by rw [nothing, renameTokens_nil]⟩
      · rw [renameText_eq_ok read] at fails
        cases fails
    | renamed _ rename =>
      cases before : Source.ofText? f₀.current with
      | error e =>
        rw [renameText_eq_error before] at rename
        cases rename
      | ok s₁ =>
        rw [renameText_eq_ok before] at rename
        obtain rfl := Except.ok.inj rename
        have again := ofText?_rename (fun r hr => (drops r hr).shortens) before
        obtain rfl := Except.ok.inj (again.symm.trans read)
        exact ⟨s₁, rfl, by rw [map_bare_rebase, map_bare_renameTokens]⟩
  obtain ⟨_, passes⟩ : ∃ renames, Passes (contextAt transforms files done path) transforms stored
      f₀.current renames := by
    cases visit with
    | same passes | retyped passes => exact ⟨_, passes⟩
    | failed =>
      cases followed with
      | same => cases found
      | renamed found => cases found
  obtain ⟨s₀, read₀⟩ := passes.readable read₁
  obtain ⟨z, traces, tokens⟩ := passes.exists_traces read₀ read₁ (Trace.tokens_start s₀.tokens)
  obtain ⟨-, apart⟩ := traces.apart read₀ (Trace.tokens_start s₀.tokens)
    (wordsStay_start s₀.tokens) (apart_start s₀.tokens)
  have same : renameTokens (transformAll transforms files).value.renames false z.tokens =
      s.tokens.map Token.bare := by rw [tokens, tokens₁]
  refine ⟨s₀, f₀.current, z, read₀, traces, same, ?_⟩
  intro a t t' b u u' ht hu wordA wordB differ alike
  have becomes := name_of_mem_zip same hu
  rw [← alike] at becomes
  exact exists_rename_of_same drops (apart a t b u (List.of_mem_zip ht).1 (List.of_mem_zip hu).1
    wordA wordB differ) (name_of_mem_zip same ht) becomes

section Example

/-- A file that declares an enum, and one that uses it. -/
def stateFiles : List TreeFile :=
  [⟨"state.ts", some "export enum StateEnum \x7b Open = \"open\" \x7d\n".toList⟩,
    ⟨"uses.ts", some ("import type \x7b StateEnum \x7d from \"./state\";\n" ++
      "export type Uses = StateEnum[];\n").toList⟩]

theorem names_stay_apart_states : ∃ f s z,
    (filesAfter (defaultTransforms 3 .auto) stateFiles)[1]? = some f ∧
      Source.ofText? f.current = .ok s ∧ "State" ∉ treeNames stateFiles ∧
      KeepsApart [⟨"StateEnum", "State"⟩] z s := by
  have renames : (transformAll (defaultTransforms 3 .auto) stateFiles).value.renames =
      [⟨"StateEnum", "State"⟩] := by decide +kernel
  have after : (filesAfter (defaultTransforms 3 .auto) stateFiles)[1]?.map (fun f =>
      (f.failed, (Source.ofText? f.current).toOption.isSome)) = some (false, true) := by
    decide +kernel
  obtain ⟨f, result, facts⟩ := Option.map_eq_some_iff.1 after
  obtain ⟨found, readable⟩ := Prod.mk.inj facts
  obtain ⟨s, read⟩ := Option.isSome_iff_exists.1 readable
  have read := mem_toOption.1 read
  have split : decoded stateFiles =
      [("state.ts", "export enum StateEnum \x7b Open = \"open\" \x7d\n".toList)] ++ ("uses.ts",
        ("import type \x7b StateEnum \x7d from \"./state\";\n" ++
          "export type Uses = StateEnum[];\n").toList) :: [] := rfl
  obtain ⟨free, _, _, z, -, -, apart⟩ := names_stay_apart split result found read
  rw [renames] at free apart
  exact ⟨f, s, z, result, read, (free _ List.mem_cons_self).2, apart⟩

end Example

/-! ### A new name that no file declares -/

/-- The names that do not stand behind a point. -/
def namesFrom (afterPoint : Bool) : List Token → List String
  | [] => []
  | t :: ts =>
    if t.kind = .word ∧ !afterPoint then t.name :: namesFrom (t.isMark '.') ts
    else namesFrom (t.isMark '.') ts

/-- A file that uses the built-in `Record` besides an enum of another file. -/
def recordFiles : List TreeFile :=
  [⟨"Kinds.ts", some "export enum RecordEnum \x7b A = \"a\" \x7d\n".toList⟩,
    ⟨"Uses.ts", some ("import type \x7b RecordEnum \x7d from \"./Kinds\";\n" ++
      "export type Uses = Record<string, RecordEnum>;\n").toList⟩]

theorem record_captured : ¬ ∀ (transforms : List Transform) (files : List TreeFile)
    (f : FileState) (s : Source), f ∈ filesAfter transforms files → f.failed = false →
    Source.ofText? f.stored = .ok s → ∀ rename ∈ (transformAll transforms files).value.renames,
    rename.old ∉ declaredFrom 0 s.tokens → rename.old ∈ namesFrom false s.tokens →
    rename.new ∉ s.words := by
  intro newIsUnused
  have renames : (transformAll (defaultTransforms 3 .auto) recordFiles).value.renames =
      [⟨"RecordEnum", "Record"⟩] := by decide +kernel
  have after : (filesAfter (defaultTransforms 3 .auto) recordFiles)[1]?.map (fun f =>
      (f.failed, (Source.ofText? f.stored).toOption.map fun s =>
        decide ("RecordEnum" ∉ declaredFrom 0 s.tokens ∧
          "RecordEnum" ∈ namesFrom false s.tokens ∧ "Record" ∈ s.words))) =
      some (false, some true) := by decide +kernel
  obtain ⟨f, result, facts⟩ := Option.map_eq_some_iff.1 after
  obtain ⟨found, uses⟩ := Prod.mk.inj facts
  obtain ⟨s, read, uses⟩ := Option.map_eq_some_iff.1 uses
  obtain ⟨foreign, used, taken⟩ := of_decide_eq_true uses
  exact newIsUnused (defaultTransforms 3 .auto) recordFiles f s (List.mem_of_getElem? result) found
    (mem_toOption.1 read) ⟨"RecordEnum", "Record"⟩ (by rw [renames]; exact List.mem_cons_self)
    foreign used taken

end OpenApiModels.Retyping
