import Mathlib.Data.List.Nodup
import OpenApiModels.Proofs.Offsets.Renaming
import OpenApiModels.Proofs.Retyping.Applying
import OpenApiModels.Proofs.Retyping.ImportPlace

/-!
# Retyping by byte offsets

New declarations are put in at offsets, the old ones are cut out by ranges of offsets, from the
last to the first, and so is the import put in. `apply_eq` says that no offset is out of range of
the text as it is by then, or inside of a character.
-/

namespace OpenApiModels.Offsets

open Text TypeScript OpenApiModels.Retyping

/-- The text with another one put in at an offset. -/
def insertAt (cs : List Char) (i : Nat) (new : List Char) : Checked (List Char) := do
  let before ← slice cs 0 i
  let after ← sliceFrom cs i
  return before ++ (new ++ after)

/-- The text without what is between two offsets. -/
def removeRange (cs : List Char) (start stop : Nat) : Checked (List Char) := do
  let before ← slice cs 0 start
  let _ ← slice cs start stop
  let after ← sliceFrom cs stop
  return before ++ after

/-- Puts the new declaration in front of the old one, which is then cut out. -/
def replaceIn (cs : List Char) (c : Candidate) : Checked (List Char) := do
  let out ← insertAt cs c.position c.declaration
  match findText? c.enumText (← sliceFrom out c.position) with
  | none => .error (.error (.declarationNotFound c.position))
  | some found =>
    let start := c.position + found
    removeRange out start (start + byteSize c.enumText)

/-- The offset just past the comment lines at the top of a text. -/
def headerEnd (cs : List Char) : Nat :=
  ((linesWithBreaks cs).takeWhile fun line =>
    (stripStart? ['/', '/'] (trimStart line)).isSome).foldr (fun line n => byteSize line + n) 0

/-- The offset just past the last import statement, or past the comment lines at the top. -/
def importPlace (cs : List Char) : Nat :=
  match afterLastImport? true cs with
  | some rest => byteSize cs - byteSize rest
  | none => headerEnd cs

/-- Adds the import of `Branded`, unless the text has one. -/
def addBrandedImport (path : String) (cs : List Char) : Checked (List Char) :=
  if importsBranded true cs then return cs
  else insertAt cs (importPlace cs) (brandedImport path ++ ['\n'])

/-- The text with the names and the import that the new declarations need. -/
def follow (path : String) (candidates : List Candidate) (cs : List Char) :
    Checked (List Char) := do
  let renames := candidates.filterMap (·.rename)
  let followed ← if renames.isEmpty then pure cs else renameText renames cs
  if candidates.any (·.branded) then addBrandedImport path followed else return followed

/-- Applies candidates to the file at `path`, the last one first. -/
def applyCandidates (path : String) (text : List Char) (candidates : List Candidate) :
    Checked (Option Retyped) :=
  if candidates.isEmpty then return none
  else do
    let ordered := candidates.mergeSort fun a b => decide (b.position ≤ a.position)
    let replaced ← ordered.foldlM replaceIn text
    return some
      { text := ← follow path ordered replaced
        renames := (ordered.filter (·.exported)).filterMap (·.rename)
        support := if ordered.any (·.branded) then [⟨brandedFile, brandedSupport⟩] else [] }

/-- Retypes the enums of a file. Yields nothing when there is nothing to retype. -/
def apply (transform : Transform) (file : FileContext) (text : List Char) :
    Checked (Option Retyped) := do
  let used ← identifiers text
  let decls ← scanEnums text
  applyCandidates file.path text ((decls.mapM (transform.plan used file)).value.filterMap id)

/-! ### Edits at offsets -/

theorem insertAt_append (before new after : List Char) :
    insertAt (before ++ after) (byteSize before) new = .ok (before ++ (new ++ after)) := by
  have front := slice_append [] before after
  rw [List.nil_append, byteSize_nil, Nat.zero_add] at front
  rw [insertAt, front, ok_bind, sliceFrom_append]
  rfl

theorem removeRange_append (before old after : List Char) :
    removeRange (before ++ (old ++ after)) (byteSize before) (byteSize before + byteSize old) =
      .ok (before ++ after) := by
  have front := slice_append [] before (old ++ after)
  have behind := sliceFrom_append (before ++ old) after
  rw [List.nil_append, byteSize_nil, Nat.zero_add] at front
  rw [List.append_assoc, byteSize_append] at behind
  rw [removeRange, front, ok_bind, slice_append, ok_bind, behind]
  rfl

/-- Where a declaration stands between characters, it is replaced as planned, and what is in front
of it stays. -/
theorem replaceIn_eq (c : Candidate) {before : List Char} (position : byteSize before = c.position)
    (after : List Char) :
    replaceIn (before ++ after) c = reported (c.replaceIn (before ++ after)) ∧
      ∀ out, c.replaceIn (before ++ after) = .ok out → before <+: out := by
  rw [replaceIn, Candidate.replaceIn, ← position, splitAtByte_append, insertAt_append, ok_bind,
    sliceFrom_append, ok_bind, findText?]
  dsimp only
  cases found : splitFirst? c.enumText (c.declaration ++ after) with
  | none => exact ⟨rfl, fun out h => by cases h⟩
  | some cut =>
    obtain ⟨kept, rest⟩ := cut
    have cutOut := removeRange_append (before ++ kept) c.enumText rest
    rw [byteSize_append, List.append_assoc, ← List.append_assoc kept, ← splitFirst?_eq_some found]
      at cutOut
    refine ⟨cutOut, ?_⟩
    rintro _ ⟨⟩
    exact ⟨kept ++ rest, (List.append_assoc ..).symm⟩

/-- A place in a text between two characters. -/
def IsPlace (cs : List Char) (i : Nat) : Prop :=
  ∃ before after, cs = before ++ after ∧ byteSize before = i

/-- A place in front of another one is still there when what is behind that one has changed. -/
theorem IsPlace.congr {cs cs' before : List Char} {i : Nat} (h : IsPlace cs i)
    (start : before <+: cs) (start' : before <+: cs') (le : i ≤ byteSize before) :
    IsPlace cs' i := by
  obtain ⟨front, after, rfl, size⟩ := h
  have inside : front <+: before := by
    rcases List.prefix_or_prefix_of_prefix (List.prefix_append front after) start with
      inside | ⟨more, rfl⟩
    · exact inside
    · rw [byteSize_append] at size
      have none : more = [] := by
        by_contra some_
        have := byteSize_pos some_
        omega
      simp [none]
  obtain ⟨rest, rfl⟩ := inside.trans start'
  exact ⟨front, rest, rfl, size⟩

/-- Every edit leaves the text in front of it as it is, where the later edits are made. -/
theorem foldlM_replaceIn {candidates : List Candidate} {cs : List Char}
    (places : ∀ c ∈ candidates, IsPlace cs c.position)
    (ordered : candidates.Pairwise fun a b => b.position ≤ a.position) :
    candidates.foldlM replaceIn cs = reported (Retyping.replaceAll candidates cs) := by
  induction candidates generalizing cs with
  | nil => rfl
  | cons c candidates ih =>
    obtain ⟨⟨before, after, rfl, position⟩, others⟩ := List.forall_mem_cons.1 places
    obtain ⟨first, later⟩ := List.pairwise_cons.1 ordered
    obtain ⟨replaced, kept⟩ := replaceIn_eq c position after
    rw [List.foldlM_cons, Retyping.replaceAll, List.foldlM_cons, replaced]
    cases found : c.replaceIn (before ++ after) with
    | error e => rfl
    | ok out =>
      refine ih (fun d mem => ?_) later
      refine (others d mem).congr (List.prefix_append before after) (kept out found) ?_
      rw [position]
      exact first d mem

theorem mergeSort_candidates {candidates : List Candidate}
    (ordered : candidates.Pairwise fun a b => a.position < b.position) :
    (candidates.mergeSort fun a b => decide (b.position ≤ a.position)) = candidates.reverse := by
  have distinct : (candidates.map (·.position)).Nodup :=
    List.pairwise_map.2 (ordered.imp Nat.ne_of_lt)
  refine List.Perm.eq_of_pairwise (fun a b ha hb le ge => ?_)
    (List.pairwise_mergeSort (fun a b c ab bc => ?_) (fun a b => ?_) candidates)
    (List.pairwise_reverse.2 (ordered.imp fun less => decide_eq_true less.le))
    ((List.mergeSort_perm _ _).trans (List.reverse_perm _).symm)
  · rw [decide_eq_true_eq] at le ge
    exact List.inj_on_of_nodup_map distinct ((List.mergeSort_perm _ _).mem_iff.1 ha)
      (List.mem_reverse.1 hb) (Nat.le_antisymm ge le)
  · rw [decide_eq_true_eq] at ab bc ⊢
    exact bc.trans ab
  · rw [Bool.or_eq_true, decide_eq_true_eq, decide_eq_true_eq]
    exact Nat.le_total _ _

/-! ### The import -/

theorem byteSize_flatten (lines : List (List Char)) :
    byteSize lines.flatten = lines.foldr (fun line n => byteSize line + n) 0 := by
  induction lines with
  | nil => rfl
  | cons line lines ih => rw [List.flatten_cons, byteSize_append, ih, List.foldr_cons]

/-- The text is cut at the offset where the import is put in. -/
theorem importPlace_eq (cs : List Char) :
    ∃ before after, splitAtImports cs = (before, after) ∧ cs = before ++ after ∧
      byteSize before = importPlace cs := by
  unfold splitAtImports importPlace
  cases found : afterLastImport? true cs with
  | some rest =>
    obtain ⟨before, split, -⟩ := lineBefore_of_afterLastImport? found
    dsimp only
    refine ⟨before, rest, ?_, split, ?_⟩
    · rw [List.splitAt_eq, split]
      simp
    · rw [split, byteSize_append, Nat.add_sub_cancel]
  | none =>
    obtain ⟨rest, split, -⟩ := lineBefore_headerLines cs
    refine ⟨headerLines cs, rest, ?_, split, byteSize_flatten _⟩
    generalize headerLines cs = header at split
    rw [List.splitAt_eq, split]
    simp

theorem addBrandedImport_eq (path : String) (cs : List Char) :
    addBrandedImport path cs = .ok (Retyping.addBrandedImport path cs) := by
  unfold addBrandedImport Retyping.addBrandedImport
  split
  · rfl
  · obtain ⟨before, after, cut, split, size⟩ := importPlace_eq cs
    rw [cut, ← size]
    conv_lhs => rw [split]
    rw [insertAt_append]
    simp

/-! ### Candidates -/

theorem follow_eq (path : String) (candidates : List Candidate) (cs : List Char) :
    follow path candidates cs = reported (do
      let renames := candidates.filterMap (·.rename)
      let followed ← if renames.isEmpty then .ok cs else TypeScript.renameText renames cs
      return if candidates.any (·.branded) then Retyping.addBrandedImport path followed
        else followed) := by
  have added (followed : List Char) :
      (if candidates.any (·.branded) = true then addBrandedImport path followed
        else .ok followed) =
      .ok (if candidates.any (·.branded) = true then Retyping.addBrandedImport path followed
        else followed) := by
    rw [addBrandedImport_eq]
    exact (apply_ite Except.ok _ _ _).symm
  rw [follow]
  dsimp only
  by_cases none : (candidates.filterMap (·.rename)).isEmpty = true
  · simp only [none, if_true, pure_eq, ok_bind, added]
    rfl
  · simp only [if_neg none, renameText_eq, pure_eq]
    cases TypeScript.renameText (candidates.filterMap (·.rename)) cs with
    | error e => rfl
    | ok followed => exact added followed

theorem applyCandidates_eq (path : String) {text : List Char} {candidates : List Candidate}
    (places : ∀ c ∈ candidates, IsPlace text c.position)
    (ordered : candidates.Pairwise fun a b => a.position < b.position) :
    applyCandidates path text candidates =
      reported (Retyping.applyCandidates path text candidates) := by
  have replaced : candidates.reverse.foldlM replaceIn text =
      reported (Retyping.replaceAll candidates.reverse text) :=
    foldlM_replaceIn (fun c mem => places c (List.mem_reverse.1 mem))
      (List.pairwise_reverse.2 (ordered.imp Nat.le_of_lt))
  rw [applyCandidates, Retyping.applyCandidates, mergeSort_candidates ordered, List.isEmpty_reverse]
  by_cases none : candidates.isEmpty = true
  · rw [if_pos none, if_pos none]
    rfl
  · rw [if_neg none, if_neg none]
    dsimp only
    rw [replaced]
    cases Retyping.replaceAll candidates.reverse text with
    | error e => rfl
    | ok replaced =>
      dsimp only [reported_ok, ok_bind]
      rw [follow_eq]
      by_cases same : (candidates.reverse.filterMap (·.rename)).isEmpty = true
      · simp only [same, if_true]
        rfl
      · simp only [if_neg same]
        cases TypeScript.renameText (candidates.reverse.filterMap (·.rename)) replaced <;> rfl

/-! ### Transforms -/

theorem plan_congr (transform : Transform) {used used' : List String}
    (same : ∀ name, used.contains name = used'.contains name) (file : FileContext) :
    transform.plan used file = transform.plan used' file := by
  have target (d : EnumDecl) : targetName d used file = targetName d used' file := by
    simp only [targetName, same]
  funext d
  cases transform <;> simp only [Transform.plan, target]

/-- The candidates stand between characters, one behind another. -/
theorem places_of_scanEnums {text : List Char} {decls : List EnumDecl}
    (scanned : TypeScript.scanEnums text = .ok decls) (choose : Choice) :
    (∀ c ∈ decls.filterMap choose.candidate?, IsPlace text c.position) ∧
      (decls.filterMap choose.candidate?).Pairwise fun a b => a.position < b.position := by
  obtain ⟨s, -, ordered, stand⟩ := declared_of_scanEnums scanned
  have position {d : EnumDecl} {c : Candidate} (h : choose.candidate? d = some c) :
      c.position = d.start := by
    obtain ⟨⟨name, type⟩, -, rfl⟩ := Option.map_eq_some_iff.1 h
    rfl
  constructor
  · intro c mem
    obtain ⟨d, found, planned⟩ := List.mem_filterMap.1 mem
    obtain ⟨_, _, _, stands⟩ := stand d found
    obtain ⟨before, after, split, size, -⟩ := slice?_eq_some_iff.1 stands.slice
    exact ⟨before, _, split, size.trans (position planned).symm⟩
  · rw [List.pairwise_filterMap]
    refine (ordered.imp_of_mem fun {d d'} mem _ apart c planned c' planned' => ?_)
    obtain ⟨_, _, _, stands⟩ := stand d mem
    rw [position planned, position planned']
    exact stands.start_lt.trans_le apart

theorem apply_eq (transform : Transform) (file : FileContext) (text : List Char) :
    apply transform file text = reported (transform.apply file text).value := by
  rw [apply, identifiers_eq, scanEnums_eq, TypeScript.identifiers]
  cases read : Source.ofText? text with
  | error e =>
    rw [Transform.apply, read]
    rfl
  | ok s =>
    cases scanned : TypeScript.scanEnums text with
    | error e =>
      rw [Transform.apply_of_scan_error scanned]
      rfl
    | ok decls =>
      have found : enumDecls [] s.tokens = .ok decls := by
        rw [TypeScript.scanEnums, read] at scanned
        exact scanned
      have same (name : String) :
          (s.words.eraseDups.mergeSort fun a b => decide (a ≤ b)).contains name =
            s.words.contains name := by
        rw [Bool.eq_iff_iff]
        simp [List.mem_mergeSort, List.mem_eraseDups]
      have planned : (decls.mapM (transform.plan s.words file)).value.filterMap id =
          decls.filterMap (transform.choose s.words file).candidate? := by
        rw [Logged.value_mapM, List.filterMap_map]
        exact List.filterMap_congr fun d _ => transform.value_plan d
      obtain ⟨places, ordered⟩ := places_of_scanEnums scanned (transform.choose s.words file)
      rw [Transform.apply, read]
      dsimp only
      rw [found]
      dsimp only [Except.map, reported_ok, ok_bind]
      rw [plan_congr transform same, Logged.value_bind, Logged.value_pure, planned,
        applyCandidates_eq file.path places ordered]

/-! ### No faults -/

/-- The same value or the same error about the text, and nothing else: no slice, index or count has
gone wrong, and every loop has come to its end. -/
def Reports {α : Type} (x : Checked α) (y : Except SourceError α) : Prop :=
  x = reported y ∧ ∀ f, x ≠ .error (.fault f)

theorem reports_of_eq {α : Type} {x : Checked α} {y : Except SourceError α} (h : x = reported y) :
    Reports x y := by
  refine ⟨h, fun f fails => ?_⟩
  rw [h] at fails
  cases y <;> cases fails

/-- Whatever the text, reading it by offsets ends and runs into no fault, and neither do the scan
for declarations, the names, the renaming and the transforms. -/
theorem reports_every_text (text : List Char) :
    (∀ extra, tokensFrom text (byteSize text + 1 + extra) 0 = tokens text) ∧
      Reports (tokens text) ((Source.ofText? text).map fun s => s.tokens.map gapless) ∧
      Reports (scanEnums text) (TypeScript.scanEnums text) ∧
      Reports (identifiers text) (TypeScript.identifiers text) ∧
      Reports (declaredNames text) (TypeScript.declaredNames text) ∧
      (∀ renames, Reports (renameText renames text) (TypeScript.renameText renames text)) ∧
      ∀ transform file, Reports (apply transform file text) (transform.apply file text).value := by
  have ends (extra : Nat) : tokensFrom text (byteSize text + 1 + extra) 0 = tokens text :=
    (yields_tokens text _ (by omega)).trans (tokens_eq text).symm
  exact ⟨ends, reports_of_eq (tokens_eq text), reports_of_eq (scanEnums_eq text),
    reports_of_eq (identifiers_eq text), reports_of_eq (declaredNames_eq text),
    fun renames => reports_of_eq (renameText_eq renames text),
    fun transform file => reports_of_eq (apply_eq transform file text)⟩

end OpenApiModels.Offsets
