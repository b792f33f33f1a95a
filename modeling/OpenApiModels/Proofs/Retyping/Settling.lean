import OpenApiModels.Postprocess
import OpenApiModels.Proofs.Retyping.PassItems
import OpenApiModels.Proofs.Workspace.ReadWrite

/-!
# Running twice

A transform has nothing left to do on the text that it made, nor on what further transforms and
renames make of it. So a second run changes nothing (`run_of_settled`), if every import that the
first one adds stands apart.
-/

namespace OpenApiModels.Retyping

open Text TypeScript

/-! ### What a transform retypes -/

/-- Whether a transform retypes a declaration by its name and the number of its values. -/
def Transform.Retypes (transform : Transform) (name : String) (count : Nat) : Prop :=
  match transform with
  | union => baseName name ≠ name ∧ count ≠ 0
  | bySize limit _ => count ≠ 0 ∧ limit ≤ count

theorem Transform.choose_eq_none_iff {transform : Transform} {used : List String}
    {file : FileContext} {d : EnumDecl} :
    transform.choose used file d = none ↔ ¬ transform.Retypes d.name d.strings.length := by
  cases transform with
  | union =>
    simp only [choose, Retypes, not_and_or, not_not, List.length_eq_zero_iff]
    split <;> simp_all
  | bySize limit mode =>
    simp only [choose, Retypes, not_and_or, not_not, Nat.not_le]
    split <;> rename_i small
    · simp only [small]
    · simp only [small, iff_false]
      split <;> simp

theorem Transform.Retypes.mono {transform : Transform} {name name' : String} {count count' : Nat}
    (h : transform.Retypes name' count') (names : name' = name ∨ name' = baseName name)
    (counts : count' ≤ count) : transform.Retypes name count := by
  cases transform with
  | union =>
    obtain ⟨suffix, some⟩ := h
    refine ⟨fun own => suffix ?_, by omega⟩
    rcases names with rfl | rfl
    · exact own
    · rw [own, own]
  | bySize limit mode =>
    obtain ⟨some, enough⟩ := h
    exact ⟨by omega, by omega⟩

/-- The text can be scanned, and the transform retypes none of its declarations. -/
def Settled (transform : Transform) (cs : List Char) : Prop :=
  ∃ decls, scanEnums cs = .ok decls ∧
    ∀ d ∈ decls, ¬ transform.Retypes d.name d.strings.length

theorem Cut.scanEnums_eq {cs : List Char} (cut : Cut cs) :
    scanEnums cs = .ok (cut.pieces.map fun p => p.2.decl) := by
  unfold scanEnums
  rw [cut.read]
  exact cut.scanned

theorem Settled.apply {transform : Transform} {cs : List Char} (h : Settled transform cs)
    (file : FileContext) : (transform.apply file cs).value = .ok none := by
  obtain ⟨decls, scanned, settled⟩ := h
  obtain ⟨cut⟩ := exists_cut_of_scan scanned
  have isDecls : decls = cut.pieces.map fun p => p.2.decl :=
    Except.ok.inj (scanned.symm.trans cut.scanEnums_eq)
  have nothing : cut.ordered (transform.choose cut.source.words file) = [] := by
    rw [Cut.ordered, List.reverse_eq_nil_iff, List.filterMap_eq_nil_iff]
    intro p hp
    have kept := settled p.2.decl (isDecls ▸ List.mem_map_of_mem hp)
    rw [Choice.candidate?, Transform.choose_eq_none_iff.2 kept]
    rfl
  rw [apply_cut cut, nothing]
  rfl

/-! ### One pass -/

/-- The declarations of a text are some of those of another one, some of them under their base
names and with fewer values. -/
def FewerEnums (kept : EnumDecl → Prop) (cs cs' : List Char) : Prop :=
  ∃ decls decls', scanEnums cs = .ok decls ∧ scanEnums cs' = .ok decls' ∧
    ∀ d' ∈ decls', ∃ d ∈ decls, kept d ∧ (d'.name = d.name ∨ d'.name = baseName d.name) ∧
      d'.strings.length ≤ d.strings.length

theorem FewerEnums.settled {kept : EnumDecl → Prop} {cs cs' : List Char}
    (h : FewerEnums kept cs cs') {transform : Transform}
    (settled : ∀ d, kept d → ¬ transform.Retypes d.name d.strings.length) :
    Settled transform cs' := by
  obtain ⟨decls, decls', -, scanned, fewer⟩ := h
  refine ⟨decls', scanned, fun d' hd' retypes => ?_⟩
  obtain ⟨d, -, isKept, names, counts⟩ := fewer d' hd'
  exact settled d isKept (retypes.mono names counts)

theorem FewerEnums.keeps {kept : EnumDecl → Prop} {cs cs' : List Char}
    (h : FewerEnums kept cs cs') {transform : Transform} (settled : Settled transform cs) :
    Settled transform cs' := by
  obtain ⟨decls, decls', before, scanned, fewer⟩ := h
  obtain ⟨same, before', rest⟩ := settled
  obtain rfl := Except.ok.inj (before.symm.trans before')
  refine ⟨decls', scanned, fun d' hd' retypes => ?_⟩
  obtain ⟨d, hd, -, names, counts⟩ := fewer d' hd'
  exact rest d hd (retypes.mono names counts)

theorem scanEnums_of_parses {cs : List Char} {s : Source} {is : List Item}
    (read : Source.ofText? cs = .ok s) (parses : Parses false s.tokens is) :
    ∃ decls, scanEnums cs = .ok decls ∧
      decls.map (fun d => (d.name, d.strings)) = enumsIn is := by
  unfold scanEnums
  rw [read]
  exact parses.enumDecls rfl

theorem mem_enumsIn_retypedItems {choose : Choice} {pieces : Pieces} {rest : List Token}
    {name : String} {values : List String}
    (h : (name, values) ∈ enumsIn (retypedItems choose pieces rest)) :
    ∃ p ∈ pieces, choose p.2.decl = none ∧ p.2.decl.name = name ∧ p.2.decl.strings = values := by
  rw [mem_enumsIn, retypedItems, List.mem_append] at h
  rcases h with mem | mem
  · obtain ⟨p, hp, mem⟩ := List.mem_flatMap.1 mem
    rcases List.mem_append.1 mem with lead | here
    · rw [← mem_enumsIn, enumsIn_tokenItems] at lead
      cases lead
    · refine ⟨p, hp, ?_⟩
      unfold Choice.items at here
      split at here
      · rename_i kept
        rcases List.mem_append.1 here with modifier | decl
        · rw [← mem_enumsIn, enumsIn_tokenItems] at modifier
          cases modifier
        · cases List.mem_singleton.1 decl
          exact ⟨kept, rfl, rfl⟩
      · rw [← mem_enumsIn, enumsIn_tokenItems] at here
        cases here
  · rw [← mem_enumsIn, enumsIn_tokenItems] at mem
    cases mem

/-- An import line adds no declaration and no value. -/
theorem ItemEdit.mem_enumsIn {path : String} {is is' : List Item} (h : ItemEdit path is is')
    {name : String} {values' : List String} (mem : (name, values') ∈ enumsIn is') :
    ∃ values, (name, values) ∈ enumsIn is ∧ values'.length ≤ values.length := by
  cases h with
  | near near =>
    rw [TypeScript.mem_enumsIn] at mem
    induction near with
    | nil => cases mem
    | @cons item item' is is' first _ ih =>
      rcases List.mem_cons.1 mem with rfl | mem
      · cases first with
        | enum same =>
          exact ⟨_, List.mem_cons_self, Nat.le_of_eq same.length_eq.symm⟩
      · obtain ⟨values, mem, fewer⟩ := ih mem
        refine ⟨values, ?_, fewer⟩
        rw [TypeScript.mem_enumsIn] at mem ⊢
        exact List.mem_cons_of_mem _ mem
  | between before after =>
    subst before after
    rw [enumsIn_append, enumsIn_append, enumsIn_tokenItems, List.nil_append, ← enumsIn_append] at mem
    exact ⟨values', mem, Nat.le_refl _⟩
  | inside before after fewer =>
    subst before after
    rw [enumsIn_append, List.mem_append] at mem
    rw [enumsIn_append]
    rcases mem with mem | mem
    · exact ⟨values', List.mem_append_left _ mem, Nat.le_refl _⟩
    · rcases List.mem_cons.1 mem with same | mem
      · cases same
        exact ⟨_, List.mem_append_right _ List.mem_cons_self, fewer.length_le⟩
      · exact ⟨values', List.mem_append_right _ (List.mem_cons_of_mem _ mem), Nat.le_refl _⟩

variable {transform : Transform} {file : FileContext} {cs : List Char} {r : Retyped}

/-- The declarations behind a pass are those that the transform does not retype. -/
theorem fewerEnums_of_apply (h : (transform.apply file cs).value = .ok (some r))
    (placed : WellPlaced file.path r.text) :
    FewerEnums (fun d => ¬ transform.Retypes d.name d.strings.length) cs r.text := by
  obtain ⟨cut, ⟨pass⟩⟩ := exists_passItems h placed
  obtain ⟨decls', scanned, same⟩ := scanEnums_of_parses pass.read pass.parses
  refine ⟨_, decls', cut.scanEnums_eq, scanned, fun d' hd' => ?_⟩
  have mem : (d'.name, d'.strings) ∈ enumsIn pass.items := by
    rw [← same]
    exact List.mem_map_of_mem hd'
  obtain ⟨values, mem, fewer⟩ : ∃ values, (d'.name, values) ∈ enumsIn (cut.itemsAfter
      (transform.choose cut.source.words file)) ∧ d'.strings.length ≤ values.length := by
    rcases pass.edit with unchanged | edit
    · exact ⟨_, unchanged ▸ mem, Nat.le_refl _⟩
    · exact edit.mem_enumsIn mem
  rw [Cut.itemsAfter, enumsIn_renameItems, List.mem_map] at mem
  obtain ⟨⟨name, values⟩, mem, renamed⟩ := mem
  obtain ⟨names, rfl⟩ := Prod.mk.inj renamed
  obtain ⟨p, hp, kept, rfl, rfl⟩ := mem_enumsIn_retypedItems mem
  refine ⟨p.2.decl, List.mem_map_of_mem hp, Transform.choose_eq_none_iff.1 kept, ?_, fewer⟩
  rw [← names]
  exact renamed_of_dropsSuffix (fun r hr => cut.dropsSuffix_of_mem transform.sound_choose hr) _

/-- Following renames keeps the declarations. -/
theorem fewerEnums_of_rename {renames : List Rename} (safe : ∀ r ∈ renames, SafeRename r)
    {text : List Char} {decls : List EnumDecl} (scanned : scanEnums cs = .ok decls)
    (renamed : renameText renames cs = .ok text) : FewerEnums (fun _ => True) cs text := by
  have drops : ∀ r ∈ renames, DropsSuffix r := fun r hr => (safe r hr).toDropsSuffix
  obtain ⟨cut⟩ := exists_cut_of_scan scanned
  obtain ⟨is, parses, same⟩ : ∃ is, Parses false cut.source.tokens is ∧
      enumsIn is = (cut.pieces.map fun p => p.2.decl).map fun d => (d.name, d.strings) :=
    parses_of_enumDecls cut.scanned
  rw [renameText_eq_ok cut.read] at renamed
  obtain rfl := Except.ok.inj renamed
  have read := ofText?_rename (fun r hr => (drops r hr).shortens) cut.read
  have parses' := (Parses.rename (keepsEnum safe) parses).of_bare_eq (map_bare_rebase 0 _).symm
  obtain ⟨decls', scanned', same'⟩ := scanEnums_of_parses read parses'
  refine ⟨_, decls', cut.scanEnums_eq, scanned', fun d' hd' => ?_⟩
  have mem : (d'.name, d'.strings) ∈ enumsIn (renameItems renames false is) := by
    rw [← same']
    exact List.mem_map_of_mem hd'
  rw [enumsIn_renameItems, same, List.map_map, List.mem_map] at mem
  obtain ⟨d, hd, eq⟩ := mem
  obtain ⟨names, values⟩ := Prod.mk.inj eq
  refine ⟨d, hd, trivial, ?_, Nat.le_of_eq (congrArg List.length values.symm)⟩
  rw [← names]
  exact renamed_of_dropsSuffix drops _

/-! ### All passes over a file -/

/-- Every import line that is added to a file stands apart. -/
def PlacesWell : List Transform → FileContext → List Char → Prop
  | [], _, _ => True
  | t :: ts, file, cs =>
    match (t.apply file cs).value with
    | .ok none => PlacesWell ts file cs
    | .ok (some r) => WellPlaced file.path r.text ∧ PlacesWell ts file r.text
    | .error _ => True

theorem PlacesWell.same {transforms : List Transform} {t : Transform}
    (h : PlacesWell (t :: transforms) file cs) (apply : (t.apply file cs).value = .ok none) :
    PlacesWell transforms file cs := by
  rw [PlacesWell, apply] at h
  exact h

theorem PlacesWell.retyped {transforms : List Transform} {t : Transform}
    (h : PlacesWell (t :: transforms) file cs) (apply : (t.apply file cs).value = .ok (some r)) :
    WellPlaced file.path r.text ∧ PlacesWell transforms file r.text := by
  rw [PlacesWell, apply] at h
  exact h

instance PlacesWell.decidable : (transforms : List Transform) → (file : FileContext) →
    (cs : List Char) → Decidable (PlacesWell transforms file cs)
  | [], _, _ => isTrue trivial
  | t :: ts, file, cs =>
    match apply : (t.apply file cs).value with
    | .ok none =>
      have := PlacesWell.decidable ts file cs
      decidable_of_iff (PlacesWell ts file cs) (by rw [PlacesWell, apply])
    | .ok (some r) =>
      have := PlacesWell.decidable ts file r.text
      decidable_of_iff (WellPlaced file.path r.text ∧ PlacesWell ts file r.text)
        (by rw [PlacesWell, apply])
    | .error _ => isTrue (by rw [PlacesWell, apply]; trivial)

/-- A transform that finds nothing to retype settles the text. -/
theorem settled_of_apply_none (h : (transform.apply file cs).value = .ok none) :
    Settled transform cs := by
  obtain ⟨cut⟩ := exists_cut h
  refine ⟨_, cut.scanEnums_eq, fun d hd => ?_⟩
  obtain ⟨p, hp, rfl⟩ := List.mem_map.1 hd
  rw [apply_cut cut] at h
  split at h
  · rename_i nothing
    rw [List.isEmpty_iff, Cut.ordered, List.reverse_eq_nil_iff, List.filterMap_eq_nil_iff]
      at nothing
    have none := nothing p hp
    rw [Choice.candidate?, Option.map_eq_none_iff] at none
    exact Transform.choose_eq_none_iff.1 none
  · cases h

theorem Passes.settled {transforms : List Transform} {cs' : List Char} {renames : List Rename}
    (h : Passes file transforms cs cs' renames) (placed : PlacesWell transforms file cs)
    {before : List Transform} (settled : ∀ t ∈ before, Settled t cs) :
    ∀ t ∈ before ++ transforms, Settled t cs' := by
  induction h generalizing before with
  | nil cs => simpa using settled
  | @same t ts cs cs' renames apply _ ih =>
    have more : ∀ u ∈ before ++ [t], Settled u cs := by
      intro u hu
      rcases List.mem_append.1 hu with old | new
      · exact settled u old
      · rw [List.mem_singleton.1 new]
        exact settled_of_apply_none apply
    simpa using ih (placed.same apply) more
  | @retyped t ts cs cs' renames r apply _ ih =>
    obtain ⟨here, later⟩ := placed.retyped apply
    have fewer := fewerEnums_of_apply apply here
    have more : ∀ u ∈ before ++ [t], Settled u r.text := by
      intro u hu
      rcases List.mem_append.1 hu with old | new
      · exact fewer.keeps (settled u old)
      · rw [List.mem_singleton.1 new]
        exact fewer.settled fun _ kept => kept
    simpa using ih later more

theorem scanEnums_error_of_apply {e : SourceError}
    (h : (transform.apply file cs).value = .error e) : ∃ e, scanEnums cs = .error e := by
  cases scanned : scanEnums cs with
  | error e => exact ⟨e, rfl⟩
  | ok decls =>
    obtain ⟨cut⟩ := exists_cut_of_scan scanned
    rw [apply_cut cut] at h
    cases h

/-- Where a transform fails behind others, they have retyped nothing. -/
theorem Passes.unscannable {done later : List Transform} {text : List Char}
    {renames : List Rename} {e : SourceError} (h : Passes file done cs text renames)
    (placed : PlacesWell (done ++ transform :: later) file cs)
    (fails : (transform.apply file text).value = .error e) : ∃ e, scanEnums cs = .error e := by
  induction h with
  | nil => exact scanEnums_error_of_apply fails
  | same apply _ ih => exact ih (placed.same apply) fails
  | retyped apply _ ih =>
    obtain ⟨here, later⟩ := placed.retyped apply
    obtain ⟨e, unscanned⟩ := ih later fails
    obtain ⟨_, _, -, scanned, -⟩ := fewerEnums_of_apply apply here
    rw [scanned] at unscanned
    cases unscanned

theorem Stops.unscannable {transforms : List Transform} {stored : List Char}
    (h : Stops file transforms stored) (placed : PlacesWell transforms file stored) :
    ∃ e, scanEnums stored = .error e := by
  obtain ⟨done, t, later, text, renames, e, rfl, passes, fails⟩ := h
  exact passes.unscannable placed fails

/-! ### All files -/

/-- Every import line that is added to the files of a run from here on stands apart. -/
def FilesPlaceWell (transforms : List Transform) : Progress → List (String × List Char) → Prop
  | _, [] => True
  | p, (path, stored) :: files =>
    PlacesWell transforms ⟨path, p.treeNames⟩ stored ∧
      FilesPlaceWell transforms (p.step transforms path stored).value files

/-- Every import line that a run adds stands apart. -/
def RunPlacesWell (transforms : List Transform) (files : List TreeFile) : Prop :=
  FilesPlaceWell transforms (startOf transforms files) (decoded files)

instance FilesPlaceWell.decidable (transforms : List Transform) : (p : Progress) →
    (files : List (String × List Char)) → Decidable (FilesPlaceWell transforms p files)
  | _, [] => isTrue trivial
  | p, (path, stored) :: files =>
    have := FilesPlaceWell.decidable transforms (p.step transforms path stored).value files
    inferInstanceAs (Decidable (PlacesWell transforms ⟨path, p.treeNames⟩ stored ∧ _))

instance (transforms : List Transform) (files : List TreeFile) :
    Decidable (RunPlacesWell transforms files) :=
  FilesPlaceWell.decidable transforms _ _

/-- Nothing is left to do on a file: it has failed and cannot be scanned, or all transforms are
settled. -/
structure Finished (transforms : List Transform) (f : FileState) : Prop where
  failed : f.failed = true → ∃ e, scanEnums f.current = .error e
  settled : f.failed = false → ∀ t ∈ transforms, Settled t f.current

theorem Visit.finished {transforms : List Transform} {stored : List Char} {f : FileState}
    {renames : List Rename} (h : Visit transforms file stored f renames)
    (placed : PlacesWell transforms file stored) : Finished transforms f := by
  have settled {text : List Char} {renames : List Rename}
      (passes : Passes file transforms stored text renames) :
      ∀ t ∈ transforms, Settled t text := by
    have all := passes.settled placed fun t (ht : t ∈ []) => nomatch ht
    rwa [List.nil_append] at all
  cases h with
  | same passes => exact ⟨fun failed => (Bool.noConfusion failed), fun _ => settled passes⟩
  | retyped passes => exact ⟨fun failed => (Bool.noConfusion failed), fun _ => settled passes⟩
  | failed stops => exact ⟨fun _ => stops.unscannable placed, fun found => Bool.noConfusion found⟩

theorem FilesPlaceWell.finished {transforms : List Transform} {files : List (String × List Char)}
    {p : Progress} (placed : FilesPlaceWell transforms p files)
    (finished : ∀ f ∈ p.files, Finished transforms f) :
    ∀ f ∈ (p.over transforms files).files, Finished transforms f := by
  induction files generalizing p with
  | nil => exact finished
  | cons file files ih =>
    obtain ⟨here, later⟩ := placed
    obtain ⟨f, renames, visit, isFiles, -⟩ := p.step_visit transforms file.1 file.2
    refine ih later fun g hg => ?_
    rw [isFiles] at hg
    rcases List.mem_append.1 hg with old | new
    · exact finished g old
    · rw [List.mem_singleton.1 new]
      exact visit.finished here

theorem Finished.followed {transforms : List Transform} {renames : List Rename} {f f' : FileState}
    (h : Finished transforms f) (safe : ∀ r ∈ renames, SafeRename r)
    (followed : Followed renames f f') : Finished transforms f' := by
  cases followed with
  | same => exact h
  | renamed found rename =>
    refine ⟨fun failed => h.failed failed |>.elim fun _ _ => ?_, fun _ t ht => ?_⟩
    · rw [found] at failed
      cases failed
    · obtain ⟨decls, scanned, -⟩ := h.settled found t ht
      exact (fewerEnums_of_rename safe scanned rename).keeps (h.settled found t ht)

theorem finished_filesAfter {transforms : List Transform} {files : List TreeFile}
    (placed : RunPlacesWell transforms files) :
    ∀ f ∈ filesAfter transforms files, Finished transforms f := by
  intro f' hf'
  obtain ⟨f, hf, followed⟩ := mem_filesAfter hf'
  have safe := (transformAll_visits transforms files).safe
  rw [transformAll_eq] at hf
  exact (placed.finished (fun f hf => nomatch hf) f hf).followed safe followed

/-! ### A second run -/

/-- A text on which nothing is left to do. -/
def Idle (transforms : List Transform) (cs : List Char) : Prop :=
  (∃ e, scanEnums cs = .error e) ∨ ∀ t ∈ transforms, Settled t cs

theorem Finished.idle {transforms : List Transform} {f : FileState} (h : Finished transforms f) :
    Idle transforms f.current := by
  cases failed : f.failed with
  | true => exact .inl (h.failed failed)
  | false => exact .inr (h.settled failed)

/-- There is nothing to do on a text without the keyword. -/
theorem idle_of_no_enum (transforms : List Transform) {cs : List Char}
    (h : ¬ "enum".toList <:+: cs) : Idle transforms cs := by
  cases read : Source.ofText? cs with
  | error e => exact .inl ⟨e, by rw [scanEnums, read]⟩
  | ok s =>
    have others : ∀ t ∈ s.tokens, t.isWord "enum" = false := by
      intro t ht
      rw [Bool.eq_false_iff]
      intro isEnum
      refine h ?_
      rw [← text_of_ofText? read, ← (Token.isWord_iff.1 isEnum).2]
      obtain ⟨a, b, tokens⟩ := List.append_of_mem ht
      exact ⟨textOf a t.gap, textOf b s.tail, by
        rw [Source.text, tokens, textOf_eq_append]
        simp [textOf, Source.text]⟩
    have parses := Parses.behind_others (p := false) others .nil
    rw [List.append_nil] at parses
    obtain ⟨decls, scanned, none⟩ := scanEnums_of_parses read parses
    rw [List.append_nil, enumsIn_tokenItems, List.map_eq_nil_iff] at none
    subst none
    exact .inr fun t _ => ⟨[], scanned, fun d hd => absurd hd List.not_mem_nil⟩

theorem toList_append_of {s t : String} {a b : List Char} (hs : s.toList = a) (ht : t.toList = b) :
    (s ++ t).toList = a ++ b := by
  rw [String.toList_append, hs, ht]

/-- The support file holds no enum, and no name with a suffix to drop. -/
theorem brandedSupport_quiet : containsText "enum".toList brandedSupport.toList = false ∧
    ∀ s ∈ (Source.ofText? brandedSupport.toList).toOption, ∀ word ∈ s.words,
      baseName word = word := by
  -- the characters are those of the lines, which are faster to tell than those of the whole text
  have chars : brandedSupport.toList = _ :=
    toList_append_of (toList_append_of (toList_append_of (toList_append_of
      (String.toList_ofList ..) (String.toList_ofList ..)) (String.toList_ofList ..))
      (String.toList_ofList ..)) (String.toList_ofList ..)
  rw [chars]
  decide +kernel

theorem idle_brandedSupport (transforms : List Transform) :
    Idle transforms brandedSupport.toList := by
  refine idle_of_no_enum transforms fun inside => ?_
  rw [← containsText_iff, brandedSupport_quiet.1] at inside
  cases inside

theorem Passes.of_idle {transforms : List Transform} {cs' : List Char} {renames : List Rename}
    (h : Passes file transforms cs cs' renames) (idle : Idle transforms cs) :
    cs' = cs ∧ renames = [] := by
  induction h with
  | nil => exact ⟨rfl, rfl⟩
  | @same t ts cs cs' renames apply _ ih =>
    exact ih (idle.imp_right fun settled u hu => settled u (List.mem_cons_of_mem t hu))
  | @retyped t ts cs cs' renames r apply _ _ =>
    rcases idle with ⟨e, unscanned⟩ | settled
    · rw [Transform.apply_of_scan_error unscanned] at apply
      cases apply
    · rw [(settled t List.mem_cons_self).apply file] at apply
      cases apply

theorem Visits.of_idle {transforms : List Transform} {names : List String}
    {files : List (String × List Char)} {fs : List FileState} {renames : List Rename}
    (h : Visits transforms names files fs renames)
    (idle : ∀ file ∈ files, Idle transforms file.2) :
    renames = [] ∧ ∀ f ∈ fs, f.current = f.stored := by
  induction h with
  | nil => exact ⟨rfl, fun f hf => nomatch hf⟩
  | @cons names path stored files f fs renames later first _ ih =>
    obtain ⟨rfl, rest⟩ := ih fun file hf => idle file (List.mem_cons_of_mem _ hf)
    have here : renames = [] ∧ f.current = f.stored := by
      cases first with
      | same | failed => exact ⟨rfl, rfl⟩
      | retyped passes =>
        obtain ⟨rfl, rfl⟩ := passes.of_idle (idle _ List.mem_cons_self)
        exact ⟨rfl, rfl⟩
    refine ⟨by rw [here.1]; rfl, fun g hg => ?_⟩
    rcases List.mem_cons.1 hg with rfl | hg
    · exact here.2
    · exact rest g hg

/-- A run over files on which nothing is left to do changes nothing. -/
theorem changed_run_of_idle {transforms : List Transform} {files : List TreeFile}
    (idle : ∀ file ∈ decoded files, Idle transforms file.2) :
    (run transforms files).value.changed = [] := by
  obtain ⟨noRenames, unchanged⟩ := (transformAll_visits transforms files).of_idle idle
  have same : filesAfter transforms files = (transformAll transforms files).value.files := by
    rw [filesAfter, Progress.follow, noRenames]
    rfl
  rw [changed_run, List.map_eq_nil_iff, List.filter_eq_nil_iff, same]
  intro f hf
  simp [unchanged f hf]

/-- A second run over what the first one left writes nothing, if every import line that the first
one added stands apart. -/
theorem second_run {transforms : List Transform} {files : List TreeFile}
    (placed : RunPlacesWell transforms files) {again : List TreeFile}
    (results : ∀ file ∈ decoded again,
      file.2 = brandedSupport.toList ∨ ∃ f ∈ filesAfter transforms files, file.2 = f.current)
    (host : Script.Host) {root : String} {options : PostprocessOptions} {w : Workspace}
    (tree : Postprocess.treeFiles? options.extensions root w = some again) :
    ∃ report, ((postprocess host root transforms options).outcome w).value = (.ok report, w) ∧
      report.changed = [] ∧ report.support = [] := by
  have idle : ∀ file ∈ decoded again, Idle transforms file.2 := by
    intro file mem
    rcases results file mem with support | ⟨f, hf, result⟩
    · rw [support]
      exact idle_brandedSupport transforms
    · rw [result]
      exact (finished_filesAfter placed f hf).idle
  have nothing := changed_run_of_idle idle
  unfold postprocess
  rw [Action.value_outcome_bind (congrArg Logged.value (Action.outcome_look _ w)), tree]
  dsimp only
  rw [Action.value_outcome_bind (Action.value_outcome_logged _ w), nothing]
  exact ⟨_, rfl, rfl, rfl⟩

section Example

/-- A file with an import in front of an enum declaration. -/
def stateTree : List TreeFile :=
  [⟨"state.ts", some ("import \x7b Item \x7d from \"./item\";\n" ++
    "export enum State \x7b Open = \"open\", Done = \"done\" \x7d\n").toList⟩]

/-- What a run leaves of it. -/
def stateText : String :=
  "import \x7b Item \x7d from \"./item\";\n" ++
    "import type \x7b Branded \x7d from \"./branded\";\n" ++
    "export type State = Branded<string, \"State\">;\n"

def stateDirectory : Workspace :=
  ⟨[(["out"], .directory), (["out", "branded.ts"], .file ⟨.text brandedSupport, false⟩),
    (["out", "state.ts"], .file ⟨.text stateText, false⟩)]⟩

def stateTreeAfter : List TreeFile :=
  [⟨"branded.ts", some brandedSupport.toList⟩, ⟨"state.ts", some stateText.toList⟩]

theorem treeFiles?_stateDirectory :
    Postprocess.treeFiles? ["ts"] "out" stateDirectory = some stateTreeAfter := by
  have located : stateDirectory.locate? "out" = some ["out"] := by decide +kernel
  have below : stateDirectory.filesBelow ["out"] =
      [(["branded.ts"], ⟨.text brandedSupport, false⟩), (["state.ts"], ⟨.text stateText, false⟩)] :=
    List.mergeSort_of_pairwise (by decide)
  rw [Postprocess.treeFiles?, located]
  change some (((stateDirectory.filesBelow ["out"]).map _).filter _) = some stateTreeAfter
  rw [below]
  refine congrArg some (List.filter_eq_self.2 fun f hf => ?_)
  rcases List.mem_cons.1 hf with rfl | hf
  · decide +kernel
  · rw [List.mem_singleton.1 hf]
    decide +kernel

theorem results_of_texts {fs : List FileState} {text support : List Char} {name other : String}
    (texts : fs.map (·.current) = [text]) :
    ∀ file ∈ [(name, support), (other, text)],
      file.2 = support ∨ ∃ f ∈ fs, file.2 = f.current := by
  have mem : text ∈ fs.map (·.current) := by
    rw [texts]
    exact List.mem_singleton_self text
  obtain ⟨f, hf, rfl⟩ := List.mem_map.1 mem
  intro file hfile
  rcases List.mem_cons.1 hfile with rfl | hfile
  · exact .inl rfl
  · rw [List.mem_singleton.1 hfile]
    exact .inr ⟨f, hf, rfl⟩

theorem second_run_state : ∃ report,
    ((postprocess ⟨true, []⟩ "out" (defaultTransforms 1 .branded) {}).outcome
      stateDirectory).value = (.ok report, stateDirectory) ∧
      report.changed = [] ∧ report.support = [] := by
  have placed : RunPlacesWell (defaultTransforms 1 .branded) stateTree := by decide +kernel
  have texts : (filesAfter (defaultTransforms 1 .branded) stateTree).map (·.current) =
      [stateText.toList] := by decide +kernel
  have results : ∀ file ∈ decoded stateTreeAfter, file.2 = brandedSupport.toList ∨
      ∃ f ∈ filesAfter (defaultTransforms 1 .branded) stateTree, file.2 = f.current := by
    have after : decoded stateTreeAfter =
        [("branded.ts", brandedSupport.toList), ("state.ts", stateText.toList)] := rfl
    rw [after]
    exact results_of_texts texts
  exact second_run placed results ⟨true, []⟩ treeFiles?_stateDirectory

end Example

/-! ### An import line behind a point -/

/-- The keyword in the third line is a member until the import line stands before it. -/
def memberTree : List TreeFile :=
  [⟨"a.ts", some ("import b from \"./b\"; b.\nenum\nC\n\x7b D = \"d\" \x7d\n" ++
    "export enum E \x7b F = \"f\" \x7d\n").toList⟩]

/-- The tree that a run leaves, with its support files. -/
def treeAfter (transforms : List Transform) (files : List TreeFile) : List TreeFile :=
  (filesAfter transforms files).map (fun f => ⟨f.path, some f.current⟩) ++
    (run transforms files).value.support.map fun file => ⟨file.path, some file.content.toList⟩

theorem second_run_member : ¬ ∀ transforms files,
    (run transforms (treeAfter transforms files)).value.changed = [] := by
  intro unchanged
  exact absurd (unchanged (defaultTransforms 1 .branded) memberTree) (by decide +kernel)

end OpenApiModels.Retyping
