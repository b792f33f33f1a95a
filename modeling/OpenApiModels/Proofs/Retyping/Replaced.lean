import OpenApiModels.Proofs.Retyping.EnumWords

/-!
# The declarations that a run replaces

What a transform plans for a declaration is made (`Replaces`) unless a transform fails on the file.
A transform fires on the file of a declaration that is replaced (`ReplacesIn.fires`), so the file
ends a run with another text. The rename of one that other files can import is among those of the
run (`ReplacesIn.mem_renames`), and its new name is in use from there on
(`ReplacesIn.new_mem_treeNames`).
-/

namespace OpenApiModels.Retyping

open Text TypeScript

/-- Of the transforms over a file, none of which fails, one plans the candidate for a declaration in
what the ones before it made of the text. -/
inductive ReplacesIn (transforms : List Transform) (file : FileContext) (stored : List Char)
    (d : EnumDecl) (c : Candidate) : Prop where
  | intro {first rest : List Transform} {t : Transform} {before after : Combined} {s : Source}
      {decls : List EnumDecl} (order : transforms = first ++ t :: rest)
      (reached : (combine file stored first ⟨none, []⟩).value = .ok before)
      (read : Source.ofText? (before.text stored) = .ok s)
      (scanned : enumDecls [] s.tokens = .ok decls) (mem : d ∈ decls)
      (planned : (t.plan s.words file d).value = some c)
      (finished : (combine file stored transforms ⟨none, []⟩).value = .ok after)

/-- The candidate takes the place of a declaration in the file at the place `i` among those that
can be decoded. -/
inductive Replaces (transforms : List Transform) (files : List TreeFile) (i : Nat)
    (d : EnumDecl) (c : Candidate) : Prop where
  | intro {done later : List (String × List Char)} {path : String} {stored : List Char}
      (split : decoded files = done ++ (path, stored) :: later) (place : done.length = i)
      (inFile : ReplacesIn transforms (contextAt transforms files done path) stored d c)

/-! ### The transforms over one file -/

variable {transforms : List Transform} {file : FileContext} {stored text : List Char}
  {d : EnumDecl} {c : Candidate} {renames : List Rename}

theorem Passes.not_stops (passes : Passes file transforms stored text renames) :
    ¬ Stops file transforms stored := by
  rintro ⟨done, t, later, middle, before, e, rfl, toMiddle, fails⟩
  obtain ⟨middle', _, _, toMiddle', onward⟩ := passes.split
  obtain rfl := toMiddle.unique toMiddle'
  cases onward with
  | same apply | retyped apply =>
    rw [fails] at apply
    cases apply

theorem Passes.mem_of_split {first rest : List Transform} {t : Transform} {middle : List Char}
    {before : List Rename} {r : Retyped}
    (passes : Passes file (first ++ t :: rest) stored text renames)
    (toMiddle : Passes file first stored middle before)
    (apply : (t.apply file middle).value = .ok (some r)) {rename : Rename}
    (mem : rename ∈ r.renames) : rename ∈ renames := by
  induction toMiddle generalizing renames with
  | nil =>
    cases passes with
    | same apply' =>
      rw [apply] at apply'
      cases apply'
    | retyped apply' =>
      rw [apply] at apply'
      cases apply'
      exact List.mem_append_left _ mem
  | same here _ ih =>
    cases passes with
    | same _ more => exact ih more apply
    | retyped here' =>
      rw [here] at here'
      cases here'
  | retyped here _ ih =>
    cases passes with
    | same here' =>
      rw [here] at here'
      cases here'
    | retyped here' more =>
      rw [here] at here'
      cases here'
      exact List.mem_append_right _ (ih more apply)

/-- A planned candidate is one of those that a transform applies to a text. -/
theorem Cut.mem_ordered {t : Transform} {cs : List Char} (cut : Cut cs) {s : Source}
    {decls : List EnumDecl} (read : Source.ofText? cs = .ok s)
    (scanned : enumDecls [] s.tokens = .ok decls) (mem : d ∈ decls)
    (planned : (t.plan s.words file d).value = some c) :
    c ∈ cut.ordered (t.choose cut.source.words file) := by
  obtain rfl : cut.source = s := Except.ok.inj (cut.read.symm.trans read)
  obtain rfl := Except.ok.inj (cut.scanned.symm.trans scanned)
  obtain ⟨p, hp, rfl⟩ := List.mem_map.1 mem
  rw [Transform.value_plan] at planned
  exact List.mem_reverse.2 (List.mem_filterMap.2 ⟨p, hp, planned⟩)

/-- A candidate that is applied is one of the retyped text. -/
theorem exists_retyped_of_plan {t : Transform} {cs : List Char} {s : Source}
    {decls : List EnumDecl} (read : Source.ofText? cs = .ok s)
    (scanned : enumDecls [] s.tokens = .ok decls) (mem : d ∈ decls)
    (planned : (t.plan s.words file d).value = some c) :
    ∃ cut : Cut cs, c ∈ cut.ordered (t.choose cut.source.words file) ∧
      (t.apply file cs).value =
        .ok (some (cut.retyped (t.choose cut.source.words file) file.path)) := by
  obtain ⟨cut⟩ : Nonempty (Cut cs) := exists_cut_of_scan (by rw [scanEnums, read]; exact scanned)
  have ordered := cut.mem_ordered read scanned mem planned
  refine ⟨cut, ordered, ?_⟩
  rw [apply_cut cut, if_neg fun none => ?_]
  rw [List.isEmpty_iff.1 none] at ordered
  cases ordered

namespace ReplacesIn

variable (h : ReplacesIn transforms file stored d c)

include h

theorem exists_passes : ∃ text renames, Passes file transforms stored text renames := by
  obtain ⟨_, _, _, _, _, _, finished⟩ := h
  obtain ⟨renames, passes, -⟩ := combine_ok finished
  exact ⟨_, renames, passes⟩

theorem fires : Fires file transforms stored := by
  obtain ⟨rfl, reached, read, scanned, mem, planned, -⟩ := h
  obtain ⟨_, passes, -⟩ := combine_ok reached
  obtain ⟨cut, -, apply⟩ := exists_retyped_of_plan read scanned mem planned
  exact fires_append passes apply

/-- The new name of a declaration that other files can import is one of those that they follow. -/
theorem mem_renames (passes : Passes file transforms stored text renames) {rename : Rename}
    (isRename : c.rename = some rename) (exported : c.exported = true) : rename ∈ renames := by
  obtain ⟨rfl, reached, read, scanned, mem, planned, -⟩ := h
  obtain ⟨_, toMiddle, -⟩ := combine_ok reached
  obtain ⟨cut, ordered, apply⟩ := exists_retyped_of_plan read scanned mem planned
  refine passes.mem_of_split toMiddle apply ?_
  exact List.mem_filterMap.2 ⟨c, List.mem_filter.2 ⟨ordered, exported⟩, isRename⟩

/-- What is known of a new name: whose it is, and that it was free. -/
theorem dropsSuffix {rename : Rename} (isRename : c.rename = some rename) :
    DropsSuffix rename ∧ rename.old = d.name ∧ rename.new ∉ file.treeNames := by
  obtain ⟨-, -, read, scanned, mem, planned, -⟩ := h
  obtain ⟨cut, ordered, -⟩ := exists_retyped_of_plan read scanned mem planned
  have isNew := cut.planned_of_mem (List.mem_filterMap.2 ⟨c, ordered, isRename⟩)
  refine ⟨isNew.toDropsSuffix, ?_, isNew.new_not_mem_treeNames⟩
  rw [Transform.value_plan] at planned
  obtain ⟨⟨name, type⟩, -, rfl⟩ := Option.map_eq_some_iff.1 planned
  simp only [candidate] at isRename
  split at isRename <;> cases isRename
  rfl

end ReplacesIn

/-! ### The files of a run -/

variable {files : List TreeFile} {i : Nat}

theorem startOf_over_append (transforms : List Transform) (files : List TreeFile)
    (a b : List (String × List Char)) :
    (startOf transforms files).over transforms (a ++ b) =
      ((startOf transforms files).over transforms a).over transforms b :=
  List.foldl_append

/-- What a run makes of a file that no transform fails on, if one of them retypes something. -/
theorem Visit.of_fires {f : FileState} (visit : Visit transforms file stored f renames)
    (passes : Passes file transforms stored text renames')
    (fires : Fires file transforms stored) :
    f = ⟨file.path, stored, text, false⟩ ∧ Passes file transforms stored text renames := by
  cases visit with
  | same passes' => exact absurd rfl (passes'.text_ne fires)
  | retyped passes' =>
    obtain rfl := passes.unique passes'
    exact ⟨rfl, passes'⟩
  | failed stops => exact absurd stops passes.not_stops

/-- The renames of a file are known to the files behind it. -/
theorem ReplacesIn.new_mem_treeNames {done further : List (String × List Char)} {path : String}
    (h : ReplacesIn transforms (contextAt transforms files done path) stored d c)
    {rename : Rename} (isRename : c.rename = some rename) (exported : c.exported = true) :
    rename.new ∈ ((startOf transforms files).over transforms
      (done ++ (path, stored) :: further)).treeNames := by
  obtain ⟨text, _, passes⟩ := h.exists_passes
  obtain ⟨f, renames, visit, -, -, names⟩ :=
    ((startOf transforms files).over transforms done).step_visit transforms path stored
  have mem := h.mem_renames (Visit.of_fires visit passes h.fires).2 isRename exported
  rw [startOf_over_append]
  refine Progress.treeNames_subset_over transforms
    (((startOf transforms files).over transforms done).step transforms path stored).value further ?_
  rw [names]
  exact List.mem_append_right _ (List.mem_map_of_mem mem)

end OpenApiModels.Retyping
