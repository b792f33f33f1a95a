import OpenApiModels.Proofs.Retyping.Settling

/-!
# A further file in a tree

A file in which nothing is retyped and nothing is renamed takes part in a run by the names that it
declares: no enum gets one of them. Where none would have got one, the other files are changed as
they were without it (`run_beside`).
-/

namespace OpenApiModels.Retyping

open Text TypeScript

/-! ### Further names -/

/-- The second list has the names of the first one, and of further names at most `extra`. -/
structure Widens (extra names names' : List String) : Prop where
  keeps : names ⊆ names'
  adds : ∀ n ∈ names', n ∈ names ∨ n ∈ extra

theorem Widens.append {extra names names' : List String} (h : Widens extra names names')
    (more : List String) : Widens extra (names ++ more) (names' ++ more) where
  keeps := by
    intro n hn
    rcases List.mem_append.1 hn with old | new
    · exact List.mem_append_left _ (h.keeps old)
    · exact List.mem_append_right _ new
  adds := by
    intro n hn
    rcases List.mem_append.1 hn with old | new
    · exact (h.adds n old).imp_left (List.mem_append_left _)
    · exact .inl (List.mem_append_right _ new)

variable {extra used names names' : List String} {path : String} {transform : Transform}

theorem targetName_widens (wide : Widens extra names names') {d : EnumDecl}
    (apart : (targetName d used ⟨path, names⟩).value ≠ d.name →
      (targetName d used ⟨path, names⟩).value ∉ extra) :
    (targetName d used ⟨path, names'⟩).value = (targetName d used ⟨path, names⟩).value := by
  by_cases own : baseName d.name = d.name
  · have any (names : List String) : (targetName d used ⟨path, names⟩).value = d.name := by
      simp [targetName, own]
    rw [any, any]
  by_cases taken : baseName d.name ∈ used ∨ baseName d.name ∈ names
  · have taken' : baseName d.name ∈ used ∨ baseName d.name ∈ names' :=
      taken.imp_right fun h => wide.keeps h
    simp [targetName, own, taken, taken']
  · have free : (targetName d used ⟨path, names⟩).value = baseName d.name := by
      simp [targetName, own, taken]
    have fresh : baseName d.name ∉ extra := by
      rw [free] at apart
      exact apart own
    have free' : ¬ (baseName d.name ∈ used ∨ baseName d.name ∈ names') := by
      rintro (old | other)
      · exact taken (.inl old)
      · rcases wide.adds _ other with old | new
        · exact taken (.inr old)
        · exact fresh new
    rw [free]
    simp [targetName, own, free']

/-- A plan stays the same if the name it gives is none of the further ones. -/
theorem value_plan_widens (wide : Widens extra names names') {d : EnumDecl}
    (apart : ∀ r, (transform.plan used ⟨path, names⟩ d).value.bind (·.rename) = some r →
      r.new ∉ extra) :
    (transform.plan used ⟨path, names'⟩ d).value = (transform.plan used ⟨path, names⟩ d).value := by
  rw [Transform.value_plan, Choice.candidate?] at apart
  rw [Transform.value_plan, Transform.value_plan, Choice.candidate?, Choice.candidate?]
  cases kept : transform.choose used ⟨path, names⟩ d with
  | none =>
    rw [Transform.choose_eq_none_iff.2 (Transform.choose_eq_none_iff.1 kept)]
  | some chosen =>
    have target : chosen.1 = (targetName d used ⟨path, names⟩).value := by
      unfold Transform.choose at kept
      repeat' split at kept
      all_goals cases kept
      all_goals rfl
    have fresh : (targetName d used ⟨path, names⟩).value ≠ d.name →
        (targetName d used ⟨path, names⟩).value ∉ extra := by
      intro ne
      rw [← target] at ne ⊢
      rw [kept] at apart
      refine apart ⟨d.name, chosen.1⟩ ?_
      simp only [Option.map_some, Option.bind_some, candidate]
      rw [if_neg ne]
    have same := targetName_widens wide fresh
    rw [← kept]
    unfold Transform.choose
    simp only [same]

/-! ### One file -/

/-- No transform gives a declaration of the file one of the names. -/
def StaysApart (extra : List String) : List Transform → FileContext → List Char → Prop
  | [], _, _ => True
  | t :: ts, file, cs =>
    (∀ r ∈ t.renamesIn file cs, r.new ∉ extra) ∧
      match (t.apply file cs).value with
      | .ok none => StaysApart extra ts file cs
      | .ok (some r) => StaysApart extra ts file r.text
      | .error _ => True

instance StaysApart.decidable (extra : List String) : (transforms : List Transform) →
    (file : FileContext) → (cs : List Char) → Decidable (StaysApart extra transforms file cs)
  | [], _, _ => isTrue trivial
  | t :: ts, file, cs =>
    have : Decidable (match (t.apply file cs).value with
        | .ok none => StaysApart extra ts file cs
        | .ok (some r) => StaysApart extra ts file r.text
        | .error _ => True) :=
      match (t.apply file cs).value with
      | .ok none => StaysApart.decidable extra ts file cs
      | .ok (some r) => StaysApart.decidable extra ts file r.text
      | .error _ => isTrue trivial
    inferInstanceAs (Decidable (_ ∧ _))

variable {cs : List Char} {transforms : List Transform}

theorem value_apply_widens (wide : Widens extra names names')
    (apart : ∀ r ∈ transform.renamesIn ⟨path, names⟩ cs, r.new ∉ extra) :
    (transform.apply ⟨path, names'⟩ cs).value = (transform.apply ⟨path, names⟩ cs).value := by
  unfold Transform.renamesIn at apart
  unfold Transform.apply
  split
  · rfl
  · rename_i s read
    rw [read] at apart
    dsimp only at apart
    split
    · rfl
    · rename_i decls scanned
      rw [scanned] at apart
      have plans : decls.map (fun d => (transform.plan s.words ⟨path, names'⟩ d).value) =
          decls.map fun d => (transform.plan s.words ⟨path, names⟩ d).value := by
        refine List.map_congr_left fun d hd => value_plan_widens wide fun r isRename => ?_
        exact apart r (List.mem_reverse.2 (List.mem_filterMap.2 ⟨d, hd, isRename⟩))
      rw [Logged.value_bind, Logged.value_bind, Logged.value_mapM, Logged.value_mapM, plans]

theorem value_combine_widens (wide : Widens extra names names') {stored : List Char}
    {before : Combined} (apart : StaysApart extra transforms ⟨path, names⟩ (before.text stored)) :
    (combine ⟨path, names'⟩ stored transforms before).value =
      (combine ⟨path, names⟩ stored transforms before).value := by
  induction transforms generalizing before with
  | nil => rfl
  | cons t ts ih =>
    obtain ⟨here, later⟩ := apart
    have same : (t.apply ⟨path, names'⟩ ((before.retyped.map (·.text)).getD stored)).value =
        (t.apply ⟨path, names⟩ (before.text stored)).value := value_apply_widens wide here
    rw [combine, combine, Logged.value_bind, Logged.value_bind, same]
    rw [show (before.retyped.map (·.text)).getD stored = before.text stored from rfl]
    cases result : (t.apply ⟨path, names⟩ (before.text stored)).value with
    | error e => rfl
    | ok retyped =>
      rw [result] at later
      cases retyped with
      | none => exact ih later
      | some r => exact ih later

/-- What becomes of a file that stays apart does not depend on the further names. -/
theorem value_transformFile_widens (wide : Widens extra names names') {stored : List Char}
    (apart : StaysApart extra transforms ⟨path, names⟩ stored) :
    (transformFile transforms ⟨path, names'⟩ stored).value =
      (transformFile transforms ⟨path, names⟩ stored).value := by
  rw [transformFile, transformFile, Logged.value_bind, Logged.value_bind,
    value_combine_widens wide apart]

/-! ### All files -/

/-- No transform gives a declaration of the files one of the names, from here on. -/
def FilesStayApart (extra : List String) (transforms : List Transform) :
    Progress → List (String × List Char) → Prop
  | _, [] => True
  | p, (path, stored) :: files =>
    StaysApart extra transforms ⟨path, p.treeNames⟩ stored ∧
      FilesStayApart extra transforms (p.step transforms path stored).value files

instance FilesStayApart.decidable (extra : List String) (transforms : List Transform) :
    (p : Progress) → (files : List (String × List Char)) →
      Decidable (FilesStayApart extra transforms p files)
  | _, [] => isTrue trivial
  | p, (path, stored) :: files =>
    have := FilesStayApart.decidable extra transforms (p.step transforms path stored).value files
    inferInstanceAs (Decidable (StaysApart extra transforms ⟨path, p.treeNames⟩ stored ∧ _))

/-- A run gives no declaration one of the names. -/
def RunStaysApart (extra : List String) (transforms : List Transform) (files : List TreeFile) :
    Prop :=
  FilesStayApart extra transforms (startOf transforms files) (decoded files)

instance (extra : List String) (transforms : List Transform) (files : List TreeFile) :
    Decidable (RunStaysApart extra transforms files) :=
  FilesStayApart.decidable extra transforms _ _

/-- Two runs that differ in the names of the tree and in the files that they have gone through. -/
structure Progress.Beside (extra : List String) (p p' : Progress) : Prop where
  names : Widens extra p.treeNames p'.treeNames
  renames : p'.renames = p.renames
  support : p'.support = p.support

variable {p p' : Progress}

theorem Progress.Beside.step (h : p.Beside extra p') {stored : List Char}
    (apart : StaysApart extra transforms ⟨path, p.treeNames⟩ stored) :
    (p.step transforms path stored).value.Beside extra (p'.step transforms path stored).value ∧
      ∃ f, (p.step transforms path stored).value.files = p.files ++ [f] ∧
        (p'.step transforms path stored).value.files = p'.files ++ [f] := by
  have same := value_transformFile_widens h.names apart
  rw [Progress.step, Progress.step, Logged.value_bind, Logged.value_bind, same]
  cases (transformFile transforms ⟨path, p.treeNames⟩ stored).value with
  | error e => exact ⟨⟨h.names, h.renames, h.support⟩, _, rfl, rfl⟩
  | ok found =>
    cases found with
    | none => exact ⟨⟨h.names, h.renames, h.support⟩, _, rfl, rfl⟩
    | some found =>
      refine ⟨⟨h.names.append _, ?_, ?_⟩, _, rfl, rfl⟩
      · exact congrArg (· ++ found.1.renames) h.renames
      · exact congrArg (fun support => (support ++ found.1.support).eraseDups) h.support

theorem Progress.Beside.over (h : p.Beside extra p') {files : List (String × List Char)}
    (apart : FilesStayApart extra transforms p files) :
    (p.over transforms files).Beside extra (p'.over transforms files) ∧
      ∃ fs, (p.over transforms files).files = p.files ++ fs ∧
        (p'.over transforms files).files = p'.files ++ fs := by
  induction files generalizing p p' with
  | nil => exact ⟨h, [], (List.append_nil _).symm, (List.append_nil _).symm⟩
  | cons file files ih =>
    obtain ⟨here, later⟩ := apart
    obtain ⟨next, f, first, first'⟩ := h.step here
    obtain ⟨last, fs, rest, rest'⟩ := ih next later
    refine ⟨last, f :: fs, ?_, ?_⟩
    · exact rest.trans (by rw [first, List.append_assoc]; rfl)
    · exact rest'.trans (by rw [first', List.append_assoc]; rfl)

theorem filesStayApart_append {a b : List (String × List Char)} :
    FilesStayApart extra transforms p (a ++ b) ↔
      FilesStayApart extra transforms p a ∧
        FilesStayApart extra transforms (p.over transforms a) b := by
  induction a generalizing p with
  | nil => exact (true_and _).to_iff.symm
  | cons file a ih => exact (and_congr_right fun _ => ih).trans and_assoc.symm

/-! ### A file on which nothing is left to do -/

theorem text_ne_of_transformFile {file : FileContext} {stored : List Char}
    {found : Retyped × List Bool}
    (h : (transformFile transforms file stored).value = .ok (some found)) :
    found.1.text ≠ stored := by
  rw [transformFile, Logged.value_bind] at h
  split at h
  · cases h
  · rename_i combined _
    simp only [Logged.value_pure, Except.ok.injEq, Option.map_eq_some_iff,
      Option.filter_eq_some_iff] at h
    obtain ⟨r, ⟨-, changed⟩, rfl⟩ := h
    simpa using changed

/-- A file on which nothing is left to do adds itself to a run and nothing else. -/
theorem Progress.Beside.idle (h : p.Beside extra p') {stored : List Char}
    (idle : Idle transforms stored) (path : String) :
    p.Beside extra (p'.step transforms path stored).value ∧ ∃ failed,
      (p'.step transforms path stored).value.files =
        p'.files ++ [⟨path, stored, stored, failed⟩] := by
  have spec := transformFile_spec transforms ⟨path, p'.treeNames⟩ stored
  rw [Progress.step, Logged.value_bind]
  cases result : (transformFile transforms ⟨path, p'.treeNames⟩ stored).value with
  | error e => exact ⟨⟨h.names, h.renames, h.support⟩, _, rfl⟩
  | ok found =>
    cases found with
    | none => exact ⟨⟨h.names, h.renames, h.support⟩, _, rfl⟩
    | some found =>
      rw [result] at spec
      exact absurd (spec.of_idle idle).1 (text_ne_of_transformFile result)

/-- No name in the text has a suffix to drop. -/
def KeepsNames (cs : List Char) : Prop :=
  ∀ s ∈ (Source.ofText? cs).toOption, ∀ word ∈ s.words, baseName word = word

instance (cs : List Char) : Decidable (KeepsNames cs) :=
  inferInstanceAs (Decidable (∀ s ∈ (Source.ofText? cs).toOption, ∀ word ∈ s.words, _))

theorem current_followed {renames : List Rename} (drops : ∀ r ∈ renames, DropsSuffix r)
    {f f' : FileState} (keeps : KeepsNames f.current) (followed : Followed renames f f') :
    f'.current = f.current ∧ f'.stored = f.stored := by
  cases followed with
  | same => exact ⟨rfl, rfl⟩
  | @renamed text _ rename =>
    refine ⟨?_, rfl⟩
    cases read : Source.ofText? f.current with
    | error e =>
      rw [renameText, read] at rename
      cases rename
    | ok s =>
      have own : ∀ t ∈ s.tokens, t.kind = .word → renamed renames t.name = t.name := by
        intro t ht word
        refine renamed_of_baseName_eq drops (keeps s (mem_toOption.2 read) t.name ?_)
        exact List.mem_map.2 ⟨t, List.mem_filter.2 ⟨ht, by simp [word]⟩, rfl⟩
      have same : s.rename renames = s := by
        rw [Source.rename, renameTokens_eq_self own]
      rw [renameText_eq_ok read, same] at rename
      rw [← Except.ok.inj rename, text_of_ofText? read]

/-! ### A run with a further file -/

/-- The changed files among those that a run leaves. -/
def changedFiles (fs : List FileState) : List (String × List Char) :=
  (fs.filter fun f => f.current != f.stored).map fun f => (f.path, f.current)

theorem changedFiles_append (a b : List FileState) :
    changedFiles (a ++ b) = changedFiles a ++ changedFiles b := by
  rw [changedFiles, List.filter_append, List.map_append]
  rfl

theorem treeNames_append (a b : List TreeFile) : treeNames (a ++ b) = treeNames a ++ treeNames b :=
  List.flatMap_append

theorem decoded_append (a b : List TreeFile) : decoded (a ++ b) = decoded a ++ decoded b :=
  List.filterMap_append

/-- A file behind the renames of a run. -/
def FileState.behind (renames : List Rename) (f : FileState) : FileState :=
  if renames.isEmpty then f else (f.follow renames).value

theorem FileState.followed_behind (renames : List Rename) (f : FileState) :
    Followed renames f (f.behind renames) := by
  unfold FileState.behind
  split
  · rename_i none
    exact .same (.inr (.inl (List.isEmpty_iff.1 none)))
  · exact followed_follow renames f

theorem FileState.behind_eq (renames : List Rename) (f : FileState) :
    f.behind renames = { f with current := (f.behind renames).current } := by
  have followed := f.followed_behind renames
  generalize f.behind renames = g at followed ⊢
  cases followed <;> rfl

theorem Progress.value_follow (p : Progress) :
    p.follow.value = p.files.map (FileState.behind p.renames) := by
  unfold Progress.follow FileState.behind
  split
  · exact (List.map_id' _).symm
  · exact Logged.value_mapM _ _

/-- What a run leaves of its files, each behind the renames of all. -/
theorem filesAfter_eq (transforms : List Transform) (files : List TreeFile) :
    filesAfter transforms files = (transformAll transforms files).value.files.map
      (FileState.behind (transformAll transforms files).value.renames) :=
  Progress.value_follow _

theorem changed_eq (transforms : List Transform) (files : List TreeFile) :
    (run transforms files).value.changed =
      changedFiles ((transformAll transforms files).value.files.map
        (FileState.behind (transformAll transforms files).value.renames)) := by
  rw [← filesAfter_eq]
  exact changed_run transforms files

/-- A file in which nothing is retyped and nothing renamed does not change what a run does to the
others, unless an enum would have got one of the names that the file declares. -/
theorem run_beside {transforms : List Transform} {a b : List TreeFile} {path : String}
    {text : List Char} (idle : Idle transforms text) (keeps : KeepsNames text)
    (apart : RunStaysApart (treeNames [⟨path, some text⟩]) transforms (a ++ b)) :
    (run transforms (a ++ ⟨path, some text⟩ :: b)).value.changed =
        (run transforms (a ++ b)).value.changed ∧
      (run transforms (a ++ ⟨path, some text⟩ :: b)).value.support =
        (run transforms (a ++ b)).value.support := by
  have safe := (transformAll_visits transforms (a ++ b)).safe
  rw [RunStaysApart, decoded_append, filesStayApart_append] at apart
  have start : (startOf transforms (a ++ b)).Beside (treeNames [⟨path, some text⟩])
      (startOf transforms (a ++ ⟨path, some text⟩ :: b)) := by
    have names : treeNames (a ++ ⟨path, some text⟩ :: b) =
        treeNames a ++ (treeNames [⟨path, some text⟩] ++ treeNames b) := by
      rw [← treeNames_append, ← treeNames_append]
      rfl
    refine ⟨⟨fun n hn => ?_, fun n hn => ?_⟩, rfl, rfl⟩
    all_goals
      simp only [startOf, names, treeNames_append, List.mem_append] at hn ⊢
    · exact hn.imp_right .inr
    · rcases hn with inA | new | inB
      · exact .inl (.inl inA)
      · exact .inr new
      · exact .inl (.inr inB)
  obtain ⟨beforeX, fa, filesA, filesA'⟩ := start.over apart.1
  obtain ⟨behindX, failed, filesX⟩ := beforeX.idle idle path
  obtain ⟨done, fb, filesB, filesB'⟩ := behindX.over apart.2
  have whole : (transformAll transforms (a ++ b)).value =
      ((startOf transforms (a ++ b)).over transforms (decoded a)).over transforms (decoded b) := by
    rw [transformAll_eq, decoded_append]
    exact List.foldl_append
  have whole' : (transformAll transforms (a ++ ⟨path, some text⟩ :: b)).value =
      ((((startOf transforms (a ++ ⟨path, some text⟩ :: b)).over transforms (decoded a)).step
        transforms path text).value).over transforms (decoded b) := by
    rw [transformAll_eq, decoded_append]
    exact List.foldl_append
  refine ⟨?_, ?_⟩
  · have renames : ∀ r ∈ (transformAll transforms (a ++ b)).value.renames, DropsSuffix r :=
      fun r hr => (safe r hr).toDropsSuffix
    have same := current_followed renames keeps
      (FileState.followed_behind _ ⟨path, text, text, failed⟩)
    have none : changedFiles [FileState.behind (transformAll transforms (a ++ b)).value.renames
        ⟨path, text, text, failed⟩] = [] := by
      simp [changedFiles, same]
    rw [changed_eq, changed_eq, whole', filesB', filesX, filesA', done.renames, ← whole]
    rw [List.map_append, List.map_append, changedFiles_append, changedFiles_append,
      List.map_singleton, none, List.append_nil, ← changedFiles_append, ← List.map_append, whole,
      filesB, filesA]
    rfl
  · change (transformAll transforms _).value.support = (transformAll transforms _).value.support
    rw [whole, whole', done.support]

end OpenApiModels.Retyping
