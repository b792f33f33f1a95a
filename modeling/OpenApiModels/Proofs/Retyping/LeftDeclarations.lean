import OpenApiModels.Proofs.Retyping.ArrangedFiles
import OpenApiModels.Proofs.Retyping.Replaced

/-!
# The declarations that a transform leaves

Behind a transform that brands nothing, the declarations of a text are those that it left, in order,
with their names followed and with the same values (`exists_left_of_apply`). So what the default
transforms replace is a declaration of the stored text (`ReplacesIn.default`).
-/

namespace OpenApiModels.Retyping

open Text TypeScript

variable {transform : Transform} {file : FileContext} {cs : List Char} {r : Retyped}

/-- A text is read, and the declarations in it are found. -/
structure Scans (cs : List Char) (s : Source) (decls : List EnumDecl) : Prop where
  read : Source.ofText? cs = .ok s
  scanned : enumDecls [] s.tokens = .ok decls

theorem Scans.unique {s s' : Source} {decls decls' : List EnumDecl} (h : Scans cs s decls)
    (h' : Scans cs s' decls') : s = s' ∧ decls = decls' := by
  obtain rfl := Except.ok.inj (h.read.symm.trans h'.read)
  exact ⟨rfl, Except.ok.inj (h.scanned.symm.trans h'.scanned)⟩

theorem Scans.exists_cut {s : Source} {decls : List EnumDecl} (h : Scans cs s decls) :
    Nonempty (Cut cs) :=
  exists_cut_of_scan (by rw [scanEnums, h.read]; exact h.scanned)

/-- The transform plans nothing for the declaration. -/
def Transform.leaves (transform : Transform) (used : List String) (file : FileContext)
    (d : EnumDecl) : Bool :=
  (transform.plan used file d).value.isNone

theorem enumsIn_retypedItems (choose : Choice) (pieces : Pieces) (rest : List Token) :
    enumsIn (retypedItems choose pieces rest) =
      ((pieces.map fun p => p.2.decl).filter fun d => (choose d).isNone).map
        fun d => (d.name, d.strings) := by
  induction pieces with
  | nil => exact enumsIn_tokenItems rest
  | cons p pieces ih =>
    obtain ⟨lead, e⟩ := p
    rw [retypedItems_cons, enumsIn_append, enumsIn_append, enumsIn_tokenItems, ih, List.map_cons,
      Choice.items]
    cases chosen : choose e.decl with
    | none =>
      rw [List.filter_cons_of_pos (by simp [chosen])]
      simp [declItems, enumsIn_append, enumsIn]
    | some new =>
      rw [List.filter_cons_of_neg (by simp [chosen])]
      simp

theorem text_of_unbranded {cut : Cut cs} {choose : Choice} {path : String}
    (unbranded : (cut.retyped choose path).support = []) :
    (cut.retyped choose path).text = cut.afterText choose := by
  unfold Cut.retyped at unbranded ⊢
  dsimp only at unbranded ⊢
  split at unbranded
  · cases unbranded
  · rename_i none
    rw [if_neg none]

/-- What a transform leaves is found again behind it. -/
theorem exists_left_of_apply (apply : (transform.apply file cs).value = .ok (some r))
    (unbranded : r.support = []) : ∃ s decls s' decls' renames, Scans cs s decls ∧
      Scans r.text s' decls' ∧ decls'.map (fun d => (d.name, d.strings)) =
        (decls.filter (transform.leaves s.words file)).map
          fun d => (renamed renames d.name, d.strings) := by
  obtain ⟨cut⟩ := exists_cut apply
  obtain rfl := eq_retyped_of_apply cut apply
  have sound : (transform.choose cut.source.words file).Sound := transform.sound_choose
  have parses : Parses false (cut.after (transform.choose cut.source.words file)) _ :=
    cut.parses_after
  have read := readSource_of_stable (cut.stable_after sound) 0
  have parses' := parses.of_bare_eq (map_bare_rebase 0 _).symm
  obtain ⟨decls', scanned, same⟩ := parses'.enumDecls (rfl : ([] : List Token).head?.any _ = false)
  have leaves : (fun d => (transform.choose cut.source.words file d).isNone) =
      transform.leaves cut.source.words file := by
    funext d
    rw [Transform.leaves, Transform.value_plan, Choice.candidate?, Option.isNone_map]
  refine ⟨cut.source, _, ⟨_, cut.source.tail⟩, decls',
    cut.renames (transform.choose cut.source.words file), ⟨cut.read, cut.scanned⟩, ⟨?_, scanned⟩, ?_⟩
  · rw [text_of_unbranded unbranded]
    exact read
  · rw [same, enumsIn_renameItems, enumsIn_retypedItems, leaves, List.map_map]
    rfl

/-- A transform that leaves every declaration changes nothing. -/
theorem apply_eq_none {s : Source} {decls : List EnumDecl} (scans : Scans cs s decls)
    (leaves : ∀ d ∈ decls, transform.leaves s.words file d = true) :
    (transform.apply file cs).value = .ok none := by
  obtain ⟨cut⟩ := scans.exists_cut
  obtain ⟨rfl, rfl⟩ := scans.unique ⟨cut.read, cut.scanned⟩
  have nothing : cut.ordered (transform.choose cut.source.words file) = [] := by
    rw [Cut.ordered, List.reverse_eq_nil_iff, List.filterMap_eq_nil_iff]
    intro p hp
    have left := leaves p.2.decl (List.mem_map_of_mem hp)
    rw [Transform.leaves, Transform.value_plan] at left
    exact Option.isNone_iff_eq_none.1 left
  rw [apply_cut cut, nothing]
  rfl

/-! ### The default transforms -/

/-- A transform that changes nothing leaves every declaration. -/
theorem leaves_of_apply_none (apply : (transform.apply file cs).value = .ok none) {s : Source}
    {decls : List EnumDecl} (scans : Scans cs s decls) :
    ∀ d ∈ decls, transform.leaves s.words file d = true := by
  intro d hd
  cases planned : (transform.plan s.words file d).value with
  | none => rw [Transform.leaves, planned]; rfl
  | some c =>
    obtain ⟨cut, -, retyped⟩ := exists_retyped_of_plan scans.read scans.scanned hd planned
    rw [apply] at retyped
    cases retyped

/-- Behind the union transform the values are those of the declarations that it left. -/
theorem exists_left_of_passes {text : List Char} {renames : List Rename}
    (passes : Passes file [.union] cs text renames) {s' : Source} {decls' : List EnumDecl}
    (scans' : Scans text s' decls') : ∃ s decls, Scans cs s decls ∧
      decls'.map EnumDecl.strings =
        (decls.filter (Transform.union.leaves s.words file)).map EnumDecl.strings := by
  cases passes with
  | same apply more =>
    cases more
    refine ⟨s', decls', scans', ?_⟩
    rw [List.filter_eq_self.2 (leaves_of_apply_none apply scans')]
  | retyped apply more =>
    cases more
    obtain ⟨s, decls, _, _, renames, scans, there, same⟩ :=
      exists_left_of_apply apply (support_of_union apply)
    obtain ⟨rfl, rfl⟩ := scans'.unique there
    refine ⟨s, decls, scans, ?_⟩
    have strings := congrArg (List.map Prod.snd) same
    simpa [List.map_map, Function.comp_def] using strings

section Suffixed

variable {used : List String} {limit : Nat} {mode : EnumMode} {d : EnumDecl}

/-- Of the enums with the suffix, the union transform leaves those without strings. -/
theorem strings_of_left (left : Transform.union.leaves used file d = true)
    (suffixed : baseName d.name ≠ d.name) : d.strings = [] := by
  rw [Transform.leaves, Transform.value_plan, Option.isNone_iff_eq_none, Choice.candidate?,
    Option.map_eq_none_iff] at left
  unfold Transform.choose at left
  dsimp only at left
  split at left
  · rename_i kept
    exact kept.resolve_left suffixed
  · cases left

theorem bySize_leaves (empty : d.strings = []) :
    (Transform.bySize limit mode).leaves used file d = true := by
  rw [Transform.leaves, Transform.value_plan, Option.isNone_iff_eq_none, Choice.candidate?,
    Option.map_eq_none_iff]
  unfold Transform.choose
  dsimp only
  rw [if_pos (.inl (by rw [empty]; rfl))]

variable {s : Source} {decls : List EnumDecl} (scans : Scans cs s decls)
  (suffixed : ∀ d ∈ decls, baseName d.name ≠ d.name)

include scans suffixed

/-- Where all enums have the suffix, nothing is left to do behind the union transform. -/
theorem apply_bySize_of_union {text : List Char} {renames : List Rename}
    (passes : Passes file [.union] cs text renames) :
    ((Transform.bySize limit mode).apply file text).value = .ok none := by
  obtain ⟨s', decls', scans'⟩ : ∃ s' decls', Scans text s' decls' := by
    cases passes with
    | same _ more =>
      cases more
      exact ⟨s, decls, scans⟩
    | retyped apply more =>
      cases more
      obtain ⟨_, _, s', decls', _, -, scans', -⟩ :=
        exists_left_of_apply apply (support_of_union apply)
      exact ⟨s', decls', scans'⟩
  obtain ⟨_, _, scans₁, same⟩ := exists_left_of_passes passes scans'
  obtain ⟨rfl, rfl⟩ := scans.unique scans₁
  refine apply_eq_none scans' fun d' hd' => bySize_leaves ?_
  have mem : d'.strings ∈ decls'.map EnumDecl.strings := List.mem_map_of_mem hd'
  rw [same] at mem
  obtain ⟨d, hd, equal⟩ := List.mem_map.1 mem
  obtain ⟨declared, left⟩ := List.mem_filter.1 hd
  rw [← equal]
  exact strings_of_left left (suffixed d declared)

/-- So the default transforms make of the file what the union transform does. -/
theorem Visit.of_default {f : FileState} {renames : List Rename}
    (visit : Visit (defaultTransforms limit mode) file cs f renames) : f.failed = false ∧
      (f.current = cs ∨ ∃ r, (Transform.union.apply file cs).value = .ok (some r) ∧
        f.current = r.text ∧ r.renames ⊆ renames) := by
  have second {text : List Char} {renames : List Rename}
      (passes : Passes file [.union] cs text renames) :
      ((Transform.bySize limit mode).apply file text).value = .ok none :=
    apply_bySize_of_union scans suffixed passes
  cases visit with
  | same => exact ⟨rfl, .inl rfl⟩
  | retyped passes =>
    refine ⟨rfl, ?_⟩
    cases passes with
    | same apply more =>
      have none := second (.same apply (.nil cs))
      cases more with
      | same _ done =>
        cases done
        exact .inl rfl
      | retyped apply' =>
        rw [none] at apply'
        cases apply'
    | retyped apply more =>
      have none := second (.retyped apply (.nil _))
      cases more with
      | same _ done =>
        cases done
        exact .inr ⟨_, apply, rfl, List.subset_append_left _ _⟩
      | retyped apply' =>
        rw [none] at apply'
        cases apply'
  | failed stops =>
    obtain ⟨done, t, later, text, renames, e, split, passes, fails⟩ := stops
    rcases done with - | ⟨u, - | ⟨v, done⟩⟩
    · obtain ⟨rfl, -⟩ := List.cons.inj split
      obtain ⟨cut⟩ := scans.exists_cut
      cases passes
      rw [apply_cut cut] at fails
      cases fails
    · obtain ⟨rfl, next⟩ := List.cons.inj split
      obtain ⟨rfl, -⟩ := List.cons.inj next
      rw [second passes] at fails
      cases fails
    · have lengths := congrArg List.length split
      simp [defaultTransforms] at lengths

end Suffixed

/-- The default transforms replace a declaration of a text: the union transform does, or the other
one does where it finds what the union transform left of the declaration. -/
inductive DefaultReplaces (limit : Nat) (mode : EnumMode) (file : FileContext) (cs : List Char)
    (d : EnumDecl) (c : Candidate) : Prop where
  | union {s : Source} {decls : List EnumDecl} (scans : Scans cs s decls) (mem : d ∈ decls)
      (planned : (Transform.union.plan s.words file d).value = some c)
  | bySize {s s' : Source} {decls decls' : List EnumDecl} {text : List Char}
      {renames : List Rename} {i : Nat} {d' : EnumDecl} (scans : Scans cs s decls)
      (left : (decls.filter (Transform.union.leaves s.words file))[i]? = some d)
      (passes : Passes file [.union] cs text renames) (scans' : Scans text s' decls')
      (found : decls'[i]? = some d')
      (planned : ((Transform.bySize limit mode).plan s'.words file d').value = some c)

variable {limit : Nat} {mode : EnumMode} {d d' : EnumDecl} {c : Candidate}

/-- Whatever the default transforms replace is a declaration of the stored text. -/
theorem ReplacesIn.default (h : ReplacesIn (defaultTransforms limit mode) file cs d' c) :
    ∃ d, DefaultReplaces limit mode file cs d c := by
  obtain ⟨order, reached, read, scanned, mem, planned, -⟩ := h
  rename_i first _ t before _ s' decls'
  rcases first with - | ⟨u, - | ⟨v, first⟩⟩
  · obtain ⟨rfl, -⟩ := List.cons.inj order
    cases reached
    exact ⟨d', .union ⟨read, scanned⟩ mem planned⟩
  · obtain ⟨rfl, later⟩ := List.cons.inj order
    obtain ⟨rfl, -⟩ := List.cons.inj later
    obtain ⟨renames, passes, -⟩ := combine_ok reached
    -- the declaration at the same place among those that the union transform left
    obtain ⟨i, found⟩ := List.getElem?_of_mem mem
    obtain ⟨s, decls, scans, same⟩ := exists_left_of_passes passes ⟨read, scanned⟩
    have left := congrArg (·[i]?) same
    simp only [List.getElem?_map, found, Option.map_some] at left
    obtain ⟨d, left, -⟩ := Option.map_eq_some_iff.1 left.symm
    exact ⟨d, .bySize scans left passes ⟨read, scanned⟩ found planned⟩
  · obtain ⟨-, later⟩ := List.cons.inj order
    obtain ⟨-, more⟩ := List.cons.inj later
    cases first <;> cases more

/-- What is planned for a declaration, if it is no branded string, is the union of its values. -/
theorem Transform.declaration_of_plan {used : List String}
    (planned : (transform.plan used file d).value = some c) (isUnion : c.branded = false) :
    ∃ target, c.declaration = unionDeclaration d target d.strings := by
  rw [Transform.value_plan] at planned
  obtain ⟨⟨name, type⟩, chosen, rfl⟩ := Option.map_eq_some_iff.1 planned
  rcases Transform.sound_choose.type chosen with rfl | ⟨rfl, some⟩
  · cases isUnion
  · exact ⟨name, (unionDeclaration_eq d name some).symm⟩

/-- A declaration that becomes a union becomes that of its values. -/
theorem DefaultReplaces.exists_union (h : DefaultReplaces limit mode file cs d c)
    (isUnion : c.branded = false) :
    ∃ d' target, c.declaration = unionDeclaration d' target d.strings := by
  cases h with
  | union scans mem planned => exact ⟨d, Transform.declaration_of_plan planned isUnion⟩
  | @bySize _ _ _ _ _ _ i d' scans left passes scans' found planned =>
    obtain ⟨target, union⟩ := Transform.declaration_of_plan planned isUnion
    obtain ⟨s, decls, scans₀, same⟩ := exists_left_of_passes passes scans'
    obtain ⟨rfl, rfl⟩ := scans.unique scans₀
    have strings := congrArg (·[i]?) same
    simp only [List.getElem?_map, found, left, Option.map_some, Option.some.injEq] at strings
    exact ⟨d', target, strings ▸ union⟩

end OpenApiModels.Retyping
