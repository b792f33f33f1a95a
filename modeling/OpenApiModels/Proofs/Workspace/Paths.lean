import OpenApiModels.Generation
import OpenApiModels.Proofs.Workspace.ReadWrite

/-!
# Paths below a directory

A path that is joined to that of a directory leads on from where the directory is
(`locate?_join`), and what leads there needs no new directories (`makeDirectories_parent_join`).
-/

namespace OpenApiModels

namespace Text

variable {mark : Char}

theorem splitAtChar_eq_splitOn (mark : Char) (cs : List Char) :
    splitAtChar mark cs = cs.splitOn mark := by
  induction cs with
  | nil => rfl
  | cons c cs ih =>
    rw [List.splitOn_cons_eq_if_modifyHead]
    by_cases cut : c = mark
    · simp [splitAtChar, cut, ih]
    · rw [if_neg (by simpa using cut), splitAtChar, if_neg cut, ih]
      cases pieces : cs.splitOn mark with
      | nil => exact absurd pieces (List.splitOn_ne_nil mark cs)
      | cons piece rest => rfl

theorem not_mem_of_mem_splitOn {cs piece : List Char} (h : piece ∈ cs.splitOn mark) :
    mark ∉ piece := by
  induction cs generalizing piece with
  | nil =>
    rw [List.mem_singleton.1 h]
    exact List.not_mem_nil
  | cons c cs ih =>
    rw [List.splitOn_cons_eq_if_modifyHead] at h
    split at h
    · rcases List.mem_cons.1 h with rfl | h
      · exact List.not_mem_nil
      · exact ih h
    · rename_i ne
      cases pieces : cs.splitOn mark with
      | nil => exact absurd pieces (List.splitOn_ne_nil mark cs)
      | cons first rest =>
        rw [pieces] at h ih
        rcases List.mem_cons.1 h with rfl | h
        · rw [List.mem_cons, not_or]
          exact ⟨fun same => ne (by simp [same]), ih List.mem_cons_self⟩
        · exact ih (List.mem_cons_of_mem _ h)

end Text

namespace Path

open Text

/-! ### Parts -/

theorem parts_eq (path : String) : parts path = (path.toList.splitOn '/').map String.ofList := by
  rw [parts, splitAtChar_eq_splitOn]

theorem slash_not_mem_of_mem_parts {path part : String} (h : part ∈ parts path) :
    '/' ∉ part.toList := by
  rw [parts_eq] at h
  obtain ⟨piece, hpiece, rfl⟩ := List.mem_map.1 h
  rw [String.toList_ofList]
  exact not_mem_of_mem_splitOn hpiece

theorem parts_append_slash (a b : String) : parts (a ++ "/" ++ b) = parts a ++ parts b := by
  have chars : (a ++ "/" ++ b).toList = a.toList ++ '/' :: b.toList := by simp
  rw [parts_eq, chars, List.splitOn_append_cons_self, List.map_append, parts_eq, parts_eq]

theorem intercalate_parts (path : String) : "/".intercalate (parts path) = path := by
  rw [← String.toList_inj, String.toList_intercalate, parts_eq, List.map_map]
  have chars : String.toList ∘ String.ofList = id := funext fun cs => String.toList_ofList
  rw [chars, List.map_id]
  exact List.intercalate_splitOn '/'

theorem parts_intercalate {names : List String} (some : names ≠ [])
    (plain : ∀ name ∈ names, '/' ∉ name.toList) : parts ("/".intercalate names) = names := by
  have pieces : ∀ piece ∈ names.map String.toList, '/' ∉ piece := by
    intro piece hpiece
    obtain ⟨name, hname, rfl⟩ := List.mem_map.1 hpiece
    exact plain name hname
  have names' : names.map String.toList ≠ [] := mt List.map_eq_nil_iff.1 some
  rw [parts_eq, String.toList_intercalate]
  have split := List.splitOn_intercalate '/' pieces names'
  rw [show "/".toList = ['/'] from rfl, split, List.map_map]
  have chars : String.ofList ∘ String.toList = id := funext fun s => String.ofList_toList
  rw [chars, List.map_id]

/-- The parts that lead to a directory, without the empty one behind a slash at the end. -/
def lead (directory : String) : List String :=
  if directory.toList.getLast? = some '/' then (parts directory).dropLast else parts directory

theorem lead_cases (directory : String) :
    directory.toList.getLast? ≠ some '/' ∧ lead directory = parts directory ∨
      ∃ front, directory = front ++ "/" ∧ lead directory = parts front ∧
        parts directory = parts front ++ [""] := by
  by_cases slash : directory.toList.getLast? = some '/'
  · obtain ⟨front, chars⟩ := List.getLast?_eq_some_iff.1 slash
    have isDirectory : directory = String.ofList front ++ "/" := by
      rw [← String.toList_inj]
      simp [chars]
    have isParts : parts directory = parts (String.ofList front) ++ [""] := by
      rw [isDirectory, ← String.append_empty (s := String.ofList front ++ "/"), parts_append_slash]
      rfl
    refine .inr ⟨String.ofList front, isDirectory, ?_, isParts⟩
    rw [lead, if_pos slash, isParts, List.dropLast_concat]
  · exact .inl ⟨slash, if_neg slash⟩

theorem join_eq {directory path : String} (named : directory ≠ "")
    (relative : isAbsolute path = false) :
    ∃ slash, (slash = "" ∨ slash = "/") ∧ join directory path = directory ++ slash ++ path := by
  by_cases slash : directory.toList.getLast? = some '/'
  · exact ⟨"", .inl rfl, by simp [join, relative, named, slash]⟩
  · exact ⟨"/", .inr rfl, by simp [join, relative, named, slash]⟩

theorem parts_join {directory path : String} (named : directory ≠ "")
    (relative : isAbsolute path = false) :
    parts (join directory path) = lead directory ++ parts path := by
  rcases lead_cases directory with ⟨plain, isLead⟩ | ⟨front, isDirectory, isLead, -⟩
  · have joined : join directory path = directory ++ "/" ++ path := by
      simp [join, relative, named, plain]
    rw [joined, parts_append_slash, isLead]
  · have joined : join directory path = front ++ "/" ++ path := by
      simp [join, relative, isDirectory]
    rw [joined, parts_append_slash, isLead]

/-- A path that leads somewhere from the root. -/
structure Usable (path : String) : Prop where
  named : path ≠ ""
  relative : isAbsolute path = false
  text : '\x00' ∉ path.toList

theorem Usable.join {directory path : String} (h : Usable directory)
    (relative : isAbsolute path = false) (text : '\x00' ∉ path.toList) :
    Usable (Path.join directory path) := by
  obtain ⟨slash, isSlash, joined⟩ := join_eq h.named relative
  have start : isAbsolute (Path.join directory path) = isAbsolute directory := by
    obtain ⟨c, cs, chars⟩ := List.exists_cons_of_ne_nil (mt String.toList_eq_nil_iff.1 h.named)
    simp [isAbsolute, joined, chars]
  refine ⟨?_, start.trans h.relative, ?_⟩
  · simp [joined, h.named]
  · rcases isSlash with rfl | rfl
    · simp [joined, h.text, text]
    · simp [joined, h.text, text]

/-! ### The directory of a path -/

variable {path : String}

theorem parent_eq (h : (parts path).dropLast ≠ []) :
    ∃ name, path = Generation.parent path ++ "/" ++ name := by
  have some : parts path ≠ [] := fun none => h (by rw [none]; rfl)
  refine ⟨(parts path).getLast some, ?_⟩
  have whole := intercalate_parts path
  rw [← List.dropLast_concat_getLast some, String.intercalate_append_of_ne_nil h (by simp),
    String.intercalate_singleton] at whole
  exact whole.symm

theorem parts_parent (h : (parts path).dropLast ≠ []) :
    parts (Generation.parent path) = (parts path).dropLast :=
  parts_intercalate h fun _ mem => slash_not_mem_of_mem_parts ((List.dropLast_sublist _).subset mem)

end Path

namespace Workspace

open OpenApiModels.Path

variable {w : Workspace} {here loc root : Location} {directory path : String}

/-! ### Leading on -/

theorem follow_append (here : Location) (a b : List String) :
    w.follow here (a ++ b) = (w.follow here a).bind fun loc => w.follow loc b := by
  induction a generalizing here with
  | nil => rfl
  | cons part a ih =>
    simp only [List.cons_append, follow]
    repeat' split
    all_goals first
      | rfl
      | exact ih _

theorem usable_of_locate? (h : w.locate? path = some loc) : Usable path := by
  unfold locate? at h
  split at h
  · cases h
  · rename_i usable
    simp only [Bool.or_eq_true, beq_iff_eq, List.contains_iff_mem, not_or,
      Bool.not_eq_true] at usable
    exact ⟨usable.1.1, usable.1.2, usable.2⟩

theorem locate?_of_usable (h : Usable path) (w : Workspace) :
    w.locate? path = w.follow [] (parts path) := by
  simp [locate?, h.named, h.relative, h.text]

theorem follow_lead (h : w.locate? directory = some root) :
    w.follow [] (lead directory) = some root := by
  rw [locate?_of_usable (usable_of_locate? h)] at h
  rcases lead_cases directory with ⟨-, isLead⟩ | ⟨front, -, isLead, isParts⟩
  · rw [isLead]
    exact h
  · rw [isParts, follow_append] at h
    rw [isLead]
    obtain ⟨loc, led, behind⟩ := Option.bind_eq_some_iff.1 h
    simp only [follow, beq_self_eq_true, Bool.true_or] at behind
    split at behind
    · cases behind
    · rw [led, ← Option.some_inj.1 behind]

theorem locate?_join (h : w.locate? directory = some root) (relative : isAbsolute path = false)
    (text : '\x00' ∉ path.toList) :
    w.locate? (join directory path) = w.follow root (parts path) := by
  have named := (usable_of_locate? h).named
  rw [locate?_of_usable ((usable_of_locate? h).join relative text), parts_join named relative,
    follow_append, follow_lead h]
  rfl

/-! ### Directories on the way -/

theorem makeAlong_append {a b : List String} (h : w.follow here a = some loc)
    (directory : w.isDirectoryAt loc) : w.makeAlong here (a ++ b) = w.makeAlong loc b := by
  induction a generalizing here with
  | nil =>
    cases h
    rfl
  | cons part a ih =>
    simp only [follow] at h
    split at h
    · cases h
    simp only [List.cons_append, makeAlong]
    split at h
    · rename_i skipped
      rw [if_pos skipped]
      exact ih h
    rename_i named
    rw [if_neg named]
    split at h
    · rename_i up
      rw [if_pos up]
      split at h
      · cases h
      · rename_i below
        rw [if_neg below]
        exact ih h
    rename_i down
    rw [if_neg down]
    split at h
    · cases h
    rename_i short
    rw [if_neg short]
    have next : w.find? (here ++ [part]) = some .directory := by
      cases a with
      | nil =>
        cases h
        simpa [isDirectoryAt] using directory
      | cons further a =>
        rw [follow] at h
        split at h
        · cases h
        · rename_i isDirectory
          simpa [isDirectoryAt] using isDirectory
    rw [next]
    exact ih h

/-- What leads to a file below a directory is made from the directory on. -/
theorem makeDirectories_parent_join (h : w.locate? directory = some root)
    (isDirectory : w.isDirectoryAt root) (relative : isAbsolute path = false)
    (text : '\x00' ∉ path.toList) (inside : (parts path).dropLast ≠ []) :
    w.makeDirectories (Generation.parent (join directory path)) =
      w.makeAlong root (parts path).dropLast := by
  have usable := (usable_of_locate? h).join relative text
  have isParts := parts_join (usable_of_locate? h).named relative
  have dropped : (parts (join directory path)).dropLast =
      lead directory ++ (parts path).dropLast := by
    rw [isParts, List.dropLast_append_of_ne_nil fun none => inside (by rw [none]; rfl)]
  have inside' : (parts (join directory path)).dropLast ≠ [] := by
    rw [dropped]
    exact List.append_ne_nil_of_right_ne_nil _ inside
  obtain ⟨name, isPath⟩ := parent_eq inside'
  have parentRelative : isAbsolute (Generation.parent (join directory path)) = false := by
    rw [Bool.eq_false_iff]
    intro fromRoot
    have := usable.relative
    rw [isPath] at this
    simp [isAbsolute] at this fromRoot
    simp [fromRoot] at this
  have parentText : '\x00' ∉ (Generation.parent (join directory path)).toList := by
    intro null
    refine usable.text ?_
    rw [isPath]
    simp [null]
  have plain : ¬ (isAbsolute (Generation.parent (join directory path)) ||
      (Generation.parent (join directory path)).toList.contains '\x00') = true := by
    simp [parentRelative, parentText]
  rw [makeDirectories, if_neg plain, parts_parent inside', dropped,
    makeAlong_append (follow_lead h) isDirectory]

end Workspace

end OpenApiModels
