import OpenApiModels.Proofs.Workspace.ReadWrite

/-!
# Writing files again

Of the texts that a file is given only the last one counts, and texts of different files do not
meet. So to write a list of texts once more behind other texts for the same files is to write it
alone (`setTexts_setTexts`, `setTexts_again`).
-/

namespace OpenApiModels.Workspace

variable {w : Workspace} {loc other : Location} {text text' : String}

/-- Gives a file a text and keeps whether it is executable. -/
def setText (loc : Location) (text : String) (w : Workspace) : Workspace :=
  w.put loc (.file { (w.fileAt? loc).getD ⟨.text "", false⟩ with content := .text text })

def HasFile (w : Workspace) (loc : Location) : Prop :=
  ∃ f, w.find? loc = some (.file f)

theorem HasFile.ne_nil (h : w.HasFile loc) : loc ≠ [] :=
  let ⟨_, found⟩ := h
  ne_nil_of_find? found

theorem HasFile.hasKey (h : w.HasFile loc) : Keyed.hasKey loc w.entries = true := by
  obtain ⟨f, found⟩ := h
  rw [find?, if_neg (HasFile.ne_nil ⟨f, found⟩)] at found
  exact Keyed.hasKey_of_lookup found

theorem HasFile.not_isDirectoryAt (h : w.HasFile loc) : w.isDirectoryAt loc = false := by
  obtain ⟨f, found⟩ := h
  rw [isDirectoryAt, found]
  rfl

/-- What the file in a place holds. -/
def contentAt? (w : Workspace) (loc : Location) : Option Content :=
  (w.fileAt? loc).map (·.content)

theorem contentAt?_of_find? {f : File} (found : w.find? loc = some (.file f)) :
    w.contentAt? loc = some f.content := by
  rw [contentAt?, fileAt?, found]
  rfl

theorem contentAt?_congr {w' : Workspace} (same : w'.find? loc = w.find? loc) :
    w'.contentAt? loc = w.contentAt? loc := by
  rw [contentAt?, contentAt?, fileAt?, fileAt?, same]

theorem readText_iff {path : String} (located : w.locate? path = some loc) :
    w.readText path = .ok text ↔ w.contentAt? loc = some (.text text) := by
  constructor
  · intro read
    obtain ⟨loc', f, located', found, content⟩ := readText_eq_ok read
    obtain rfl := Option.some.inj (located.symm.trans located')
    rw [contentAt?_of_find? found, content]
  · intro holds
    obtain ⟨f, file, content⟩ := Option.map_eq_some_iff.1 holds
    refine readText_of_find? located (f := f) ?_ content
    unfold fileAt? at file
    split at file
    · rename_i found
      rw [found, Option.some.inj file]
    · cases file

theorem write_eq {path : String} (located : w.locate? path = some loc)
    (free : w.isDirectoryAt loc = false) (text : String) :
    w.write path (.text text) = .ok (w.setText loc text) := by
  simp only [write, located, setText, fileAt?]
  cases found : w.find? loc with
  | none => rfl
  | some e =>
    cases e with
    | directory => simp [isDirectoryAt, found] at free
    | file f => rfl

/-- What can be written stands in a place that is no directory. -/
theorem exists_place_of_write {path : String} {w' : Workspace}
    (h : w.write path (.text text) = .ok w') :
    ∃ loc, w.locate? path = some loc ∧ w.isDirectoryAt loc = false ∧ w' = w.setText loc text := by
  cases located : w.locate? path with
  | none =>
    simp only [write, located] at h
    cases h
  | some loc =>
    have free : w.isDirectoryAt loc = false := by
      rw [Bool.eq_false_iff]
      intro directory
      have found : w.find? loc = some .directory := by simpa [isDirectoryAt] using directory
      simp only [write, located, found] at h
      cases h
    rw [write_eq located free] at h
    exact ⟨loc, rfl, free, (Except.ok.inj h).symm⟩

/-! ### One text -/

theorem find?_setText_of_ne (h : other ≠ loc) (w : Workspace) :
    (w.setText loc text).find? other = w.find? other :=
  find?_put_of_ne h _ w

theorem find?_setText_self (h : loc ≠ []) (text : String) (w : Workspace) :
    ∃ f, (w.setText loc text).find? loc = some (.file f) ∧ f.content = .text text :=
  ⟨_, find?_put_self h _ w, rfl⟩

theorem contentAt?_setText_self (h : loc ≠ []) (text : String) (w : Workspace) :
    (w.setText loc text).contentAt? loc = some (.text text) := by
  obtain ⟨f, found, content⟩ := find?_setText_self h text w
  rw [contentAt?_of_find? found, content]

theorem fileAt?_setText_of_ne (h : other ≠ loc) (w : Workspace) :
    (w.setText loc text).fileAt? other = w.fileAt? other := by
  rw [fileAt?, fileAt?, find?_setText_of_ne h]

theorem HasFile.setText (h : w.HasFile other) : (w.setText loc text).HasFile other := by
  by_cases same : other = loc
  · subst same
    obtain ⟨f, found, -⟩ := find?_setText_self h.ne_nil text w
    exact ⟨f, found⟩
  · obtain ⟨f, found⟩ := h
    exact ⟨f, (find?_setText_of_ne same w).trans found⟩

theorem hasFile_setText_self (h : loc ≠ []) (w : Workspace) : (w.setText loc text).HasFile loc := by
  obtain ⟨f, found, -⟩ := find?_setText_self h text w
  exact ⟨f, found⟩

theorem isDirectoryAt_setText (free : w.isDirectoryAt loc = false) (text : String)
    (other : Location) :
    (w.setText loc text).isDirectoryAt other = w.isDirectoryAt other := by
  have ne := ne_nil_of_free free
  by_cases same : other = loc
  · subst same
    rw [(hasFile_setText_self ne w).not_isDirectoryAt, free]
  · rw [isDirectoryAt, isDirectoryAt, find?_setText_of_ne same]

theorem setText_setText (h : loc ≠ []) (w : Workspace) :
    (w.setText loc text).setText loc text' = w.setText loc text' := by
  have put_put (e e' : Entry) : (w.put loc e).put loc e' = w.put loc e' :=
    congrArg Workspace.mk (Keyed.put_put loc e' e w.entries)
  have own : (w.setText loc text).fileAt? loc =
      some { (w.fileAt? loc).getD ⟨.text "", false⟩ with content := .text text } := by
    rw [fileAt?, setText, find?_put_self h]
  rw [setText, own, setText, put_put]
  rfl

/-- A file and another one, which may be new, can be written in either order. -/
theorem setText_comm (ne : loc ≠ other) (h : w.HasFile loc) :
    (w.setText other text').setText loc text = (w.setText loc text).setText other text' := by
  have put_comm (e e' : Entry) : (w.put other e').put loc e = (w.put loc e).put other e' :=
    congrArg Workspace.mk (Keyed.put_comm ne h.hasKey e e')
  rw [setText, fileAt?_setText_of_ne ne, setText, put_comm, setText, fileAt?_setText_of_ne ne.symm,
    setText]

theorem setText_eq_self {f : File} (h : w.find? loc = some (.file f))
    (content : f.content = .text text) : w.setText loc text = w := by
  have own : w.fileAt? loc = some f := by rw [fileAt?, h]
  rw [setText, own, Option.getD_some, ← content]
  exact put_eq_self h

/-! ### Many texts -/

def setTexts (texts : List (Location × String)) (w : Workspace) : Workspace :=
  texts.foldl (fun w t => w.setText t.1 t.2) w

variable {texts texts' : List (Location × String)}

theorem setTexts_cons (t : Location × String) (texts : List (Location × String)) (w : Workspace) :
    w.setTexts (t :: texts) = (w.setText t.1 t.2).setTexts texts := rfl

theorem HasFile.setTexts (h : w.HasFile loc) (texts : List (Location × String)) :
    (w.setTexts texts).HasFile loc := by
  induction texts generalizing w with
  | nil => exact h
  | cons t texts ih => exact ih h.setText

theorem hasFile_setTexts (some : ∀ t ∈ texts, t.1 ≠ []) :
    ∀ t ∈ texts, (w.setTexts texts).HasFile t.1 := by
  induction texts generalizing w with
  | nil => exact fun t ht => nomatch ht
  | cons first texts ih =>
    intro t ht
    rcases List.mem_cons.1 ht with rfl | ht
    · exact (hasFile_setText_self (some t List.mem_cons_self) w).setTexts texts
    · exact ih (fun t ht => some t (List.mem_cons_of_mem _ ht)) t ht

theorem find?_setTexts_of_ne (h : ∀ t ∈ texts, loc ≠ t.1) (w : Workspace) :
    (w.setTexts texts).find? loc = w.find? loc := by
  induction texts generalizing w with
  | nil => rfl
  | cons t texts ih =>
    rw [setTexts_cons, ih fun t ht => h t (List.mem_cons_of_mem _ ht),
      find?_setText_of_ne (h t List.mem_cons_self)]

/-- A file holds what it is given, where no other text is for the same file. -/
theorem contentAt?_setTexts_of_mem (distinct : (texts.map (·.1)).Nodup)
    (some : ∀ t ∈ texts, t.1 ≠ []) {t : Location × String} (mem : t ∈ texts) (w : Workspace) :
    (w.setTexts texts).contentAt? t.1 = .some (.text t.2) := by
  induction texts generalizing w with
  | nil => cases mem
  | cons first texts ih =>
    rw [List.map_cons, List.nodup_cons] at distinct
    rcases List.mem_cons.1 mem with rfl | mem
    · have others : ∀ u ∈ texts, t.1 ≠ u.1 :=
        fun u hu same => distinct.1 (List.mem_map.2 ⟨u, hu, same.symm⟩)
      rw [setTexts_cons, contentAt?_congr (find?_setTexts_of_ne others _)]
      exact contentAt?_setText_self (some t List.mem_cons_self) t.2 w
    · exact ih distinct.2 (fun u hu => some u (List.mem_cons_of_mem _ hu)) mem _

/-- Writing over files makes no new one. -/
theorem isSome_find?_setTexts (files : ∀ t ∈ texts, w.HasFile t.1) (loc : Location) :
    ((w.setTexts texts).find? loc).isSome = (w.find? loc).isSome := by
  by_cases mem : loc ∈ texts.map (·.1)
  · obtain ⟨t, isText, rfl⟩ := List.mem_map.1 mem
    obtain ⟨f, found⟩ := files t isText
    obtain ⟨g, found'⟩ := HasFile.setTexts ⟨f, found⟩ texts
    rw [found, found']
    rfl
  · rw [find?_setTexts_of_ne fun t ht same => mem (List.mem_map.2 ⟨t, ht, same.symm⟩)]

theorem isDirectoryAt_setTexts (free : ∀ t ∈ texts, w.isDirectoryAt t.1 = false)
    (other : Location) : (w.setTexts texts).isDirectoryAt other = w.isDirectoryAt other := by
  induction texts generalizing w with
  | nil => rfl
  | cons t texts ih =>
    have same := isDirectoryAt_setText (free t List.mem_cons_self) t.2
    refine (ih fun u hu => ?_).trans (same other)
    rw [same]
    exact free u (List.mem_cons_of_mem _ hu)

theorem locate?_setTexts (free : ∀ t ∈ texts, w.isDirectoryAt t.1 = false) (path : String) :
    (w.setTexts texts).locate? path = w.locate? path := by
  simp only [locate?, follow_congr (isDirectoryAt_setTexts free)]

/-- A file that no text is for is read as before. -/
theorem readText_setTexts (free : ∀ t ∈ texts, w.isDirectoryAt t.1 = false) {path : String}
    (others : ∀ loc, w.locate? path = some loc → ∀ t ∈ texts, loc ≠ t.1) :
    (w.setTexts texts).readText path = w.readText path := by
  simp only [readText, read, lookup?, locate?_setTexts free]
  cases located : w.locate? path with
  | none => rfl
  | some loc =>
    rw [Option.bind_some, Option.bind_some, find?_setTexts_of_ne (others loc located)]

/-- A text is lost where a later one is written over it. -/
theorem setTexts_setText (mem : loc ∈ texts.map (·.1)) (files : ∀ t ∈ texts, w.HasFile t.1)
    (text : String) : (w.setText loc text).setTexts texts = w.setTexts texts := by
  induction texts generalizing w with
  | nil => cases mem
  | cons t texts ih =>
    have here := files t List.mem_cons_self
    rw [setTexts_cons, setTexts_cons]
    by_cases same : loc = t.1
    · subst same
      rw [setText_setText here.ne_nil]
    · rw [setText_comm (Ne.symm same) here]
      refine ih ((List.mem_cons.1 mem).resolve_left same) fun u hu => ?_
      exact (files u (List.mem_cons_of_mem _ hu)).setText

theorem setTexts_setTexts (mem : ∀ t ∈ texts', t.1 ∈ texts.map (·.1))
    (files : ∀ t ∈ texts, w.HasFile t.1) :
    (w.setTexts texts').setTexts texts = w.setTexts texts := by
  induction texts' generalizing w with
  | nil => rfl
  | cons t texts' ih =>
    rw [setTexts_cons, ih (fun u hu => mem u (List.mem_cons_of_mem _ hu))
      fun u hu => (files u hu).setText, setTexts_setText (mem t List.mem_cons_self) files]

theorem setTexts_again (some : ∀ t ∈ texts, t.1 ≠ []) (w : Workspace) :
    (w.setTexts texts).setTexts texts = w.setTexts texts := by
  induction texts generalizing w with
  | nil => rfl
  | cons t texts ih =>
    have later : ∀ u ∈ texts, u.1 ≠ [] := fun u hu => some u (List.mem_cons_of_mem _ hu)
    have again := ih later (w.setText t.1 t.2)
    rw [setTexts_cons, setTexts_cons]
    by_cases mem : t.1 ∈ texts.map (·.1)
    · rw [setTexts_setText mem (hasFile_setTexts later), again]
    · have others : ∀ u ∈ texts, t.1 ≠ u.1 :=
        fun u hu same => mem (List.mem_map.2 ⟨u, hu, same.symm⟩)
      have kept := find?_setTexts_of_ne others (w.setText t.1 t.2)
      obtain ⟨f, found, content⟩ := find?_setText_self (some t List.mem_cons_self) t.2 w
      rw [setText_eq_self (kept.trans found) content, again]

/-- A new file is as good written before others as behind them. -/
theorem setTexts_comm (ne : ∀ t ∈ texts, t.1 ≠ loc) (files : ∀ t ∈ texts, w.HasFile t.1) :
    (w.setText loc text).setTexts texts = (w.setTexts texts).setText loc text := by
  induction texts generalizing w with
  | nil => rfl
  | cons t texts ih =>
    rw [setTexts_cons, setTexts_cons,
      setText_comm (ne t List.mem_cons_self) (files t List.mem_cons_self)]
    refine ih (fun u hu => ne u (List.mem_cons_of_mem _ hu)) fun u hu => ?_
    exact (files u (List.mem_cons_of_mem _ hu)).setText

end OpenApiModels.Workspace
