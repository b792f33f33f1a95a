import OpenApiModels.Proofs.TypeScript.NameCharacters

/-!
# Case forms of letters

The capital form of a letter consists of letters, and so does the small one
(`isAlphanumeric_of_mem_capital`, `isAlphanumeric_of_mem_small`), but for a few that have a
combining mark behind them. What is not a letter has no other form.
-/

namespace OpenApiModels.Text

/-! ### Tables -/

theorem alphabeticRanges_valid :
    ∀ r ∈ alphabeticRanges, 0x80 ≤ r.1 ∧ (r.2 < 0xd800 ∨ 0xdfff < r.1 ∧ r.2 < 0x110000) := by
  decide +kernel

theorem toNat_ofNat {n : Nat} (valid : n.isValidChar) : (Char.ofNat n).toNat = n := by
  rw [Char.ofNat, dif_pos valid]
  rfl

theorem isAlphabetic_ofNat {n : Nat} (h : inRanges alphabeticRanges n = true) :
    isAlphabetic (Char.ofNat n) = true := by
  obtain ⟨r, hr, first, last⟩ := inRanges_iff.1 h
  obtain ⟨beyond, range⟩ := alphabeticRanges_valid r hr
  have valid : n.isValidChar := by
    unfold Nat.isValidChar
    omega
  rw [isAlphabetic, toNat_ofNat valid, if_neg (by omega)]
  exact h

/-- Stretches of code points that hold the letters with other case forms. -/
def casedStretches : List (Nat × Nat) :=
  [(0xB5, 0x588), (0x10A0, 0x10FC), (0x13A0, 0x13F8), (0x1C80, 0x1DBF), (0x1E00, 0x2D2D),
   (0xA640, 0xAB70), (0xFB00, 0xFB13), (0xFF21, 0xFF41), (0x10400, 0x105BB), (0x10C80, 0x10D6F),
   (0x118A0, 0x118A0), (0x16E40, 0x16EBB), (0x1E900, 0x1E900)]

/-- The letters of ASCII, and the ranges of letters that start in these stretches. -/
def casedRanges : List (Nat × Nat) :=
  (0x41, 0x5A) :: (0x61, 0x7A) :: alphabeticRanges.filter fun r =>
    casedStretches.any fun s => Nat.ble r.1 s.2 && Nat.ble s.1 r.1

/-- One of the ranges holds all code points from `first` to `last`. -/
def isCased (first last : Nat) : Bool :=
  casedRanges.any fun s => Nat.ble last s.2 && Nat.ble s.1 first

theorem isAlphabetic_of_isCased {first last n : Nat} (h : isCased first last = true)
    (le : first ≤ n) (ge : n ≤ last) : isAlphabetic (Char.ofNat n) = true := by
  have ascii : ∀ n < 0x80, 0x41 ≤ n ∧ n ≤ 0x5A ∨ 0x61 ≤ n ∧ n ≤ 0x7A →
      isAlphabetic (Char.ofNat n) = true := by
    decide
  obtain ⟨s, hs, covers⟩ := List.any_eq_true.1 h
  simp only [Bool.and_eq_true, Nat.ble_eq] at covers
  simp only [casedRanges, List.mem_cons] at hs
  rcases hs with rfl | rfl | beyond
  · exact ascii n (by omega) (.inl ⟨by omega, by omega⟩)
  · exact ascii n (by omega) (.inr ⟨by omega, by omega⟩)
  · exact isAlphabetic_ofNat (inRanges_iff.2 ⟨s, List.mem_of_mem_filter beyond, by omega, by omega⟩)

namespace Run

/-- The run consists of letters when its first member is `target`: the whole stretch does, or each
member is one. -/
def staysAlphabetic (r : Run) (target : Nat) : Bool :=
  isCased target (target + (r.last - r.first)) ||
    (List.range ((r.last - r.first) / r.step + 1)).all fun k =>
      isCased (target + k * r.step) (target + k * r.step)

theorem isAlphabetic_shift {r : Run} {target n : Nat} (stays : r.staysAlphabetic target = true)
    (h : r.contains n = true) : isAlphabetic (Char.ofNat (r.shift target n)) = true := by
  simp only [contains, Bool.and_eq_true, decide_eq_true_eq, beq_iff_eq] at h
  obtain ⟨⟨first, last⟩, member⟩ := h
  rw [staysAlphabetic, Bool.or_eq_true] at stays
  unfold shift
  rcases stays with stretch | each
  · exact isAlphabetic_of_isCased stretch (by omega) (by omega)
  · have position : (n - r.first) / r.step * r.step = n - r.first :=
      Nat.div_mul_cancel (Nat.dvd_of_mod_eq_zero member)
    have inRun : (n - r.first) / r.step < (r.last - r.first) / r.step + 1 :=
      Nat.lt_succ_of_le (Nat.div_le_div_right (Nat.sub_le_sub_right last _))
    have letter := List.all_eq_true.1 each _ (List.mem_range.2 inRun)
    rw [position] at letter
    exact isAlphabetic_of_isCased letter (Nat.le_refl _) (Nat.le_refl _)

end Run

theorem capitalRuns_alphabetic : ∀ r ∈ capitalRuns,
    r.1.staysAlphabetic r.1.first = true ∧ r.1.staysAlphabetic r.2 = true := by
  decide +kernel

theorem smallRuns_alphabetic : ∀ r ∈ smallRuns, r.1.staysAlphabetic r.2 = true := by
  decide +kernel

/-- Letters whose capital form ends in combining marks. -/
def markedCapitals : List Nat :=
  [0x1F0, 0x390, 0x3B0, 0x1E96, 0x1E97, 0x1E98, 0x1E99, 0x1F50, 0x1F52, 0x1F54, 0x1F56, 0x1FB6,
   0x1FB7, 0x1FC6, 0x1FC7, 0x1FD2, 0x1FD3, 0x1FD6, 0x1FD7, 0x1FE2, 0x1FE3, 0x1FE4, 0x1FE6, 0x1FE7,
   0x1FF6, 0x1FF7]

def hasMarkedCapital (c : Char) : Bool :=
  markedCapitals.contains c.toNat

/-- The combining marks in capital forms. -/
def capitalMarks : List Nat :=
  [0x300, 0x301, 0x308, 0x30A, 0x30C, 0x313, 0x331, 0x342]

/-- Neither a letter nor a digit, and beyond ASCII. -/
def IsMark (c : Char) : Prop :=
  0x80 ≤ c.toNat ∧ isAlphanumeric c = false

instance (c : Char) : Decidable (IsMark c) :=
  inferInstanceAs (Decidable (_ ∧ _))

theorem isMark_capitalMarks : ∀ n ∈ capitalMarks, IsMark (Char.ofNat n) := by
  decide +kernel

/-- A form of several letters starts with a letter, and has a mark behind it just for the letters
that are listed. -/
theorem capitalExpansions_letters : ∀ e ∈ capitalExpansions,
    isCased e.1 e.1 = true ∧ (e.2.head?.any fun n => isCased n n) = true ∧
      if markedCapitals.contains e.1 then e.2.any capitalMarks.contains = true
      else (e.2.all fun n => isCased n n) = true := by
  decide +kernel

/-! ### Capital forms -/

variable {c d : Char}

theorem mapByRuns_cases (runs : List (Run × Nat)) (c : Char) :
    (∃ r ∈ runs, r.1.contains c.toNat = true ∧
      mapByRuns runs c = Char.ofNat (r.1.shift r.2 c.toNat)) ∨ mapByRuns runs c = c := by
  unfold mapByRuns
  split
  · rename_i run target found
    exact .inl ⟨_, List.mem_of_find?_eq_some found, by simpa using List.find?_some found, rfl⟩
  · exact .inr rfl

/-- What becomes of a character as a capital. -/
inductive CapitalCases (c : Char) : Prop where
  | same (form : capital c = [c])
  | letter {d : Char} (letter : isAlphabetic c = true) (form : capital c = [d])
      (capital : isAlphabetic d = true)
  | several {e : Nat × List Nat} (mem : e ∈ capitalExpansions) (own : e.1 = c.toNat)
      (letter : isAlphabetic c = true) (form : capital c = e.2.map Char.ofNat)

theorem toUpper_ascii : ∀ n < 0x80, (Char.ofNat n).toUpper = Char.ofNat n ∨
    isAlphabetic (Char.ofNat n) = true ∧ isAlphabetic (Char.ofNat n).toUpper = true := by
  decide

theorem capitalCases (c : Char) : CapitalCases c := by
  by_cases ascii : c.toNat < 0x80
  · have cases := toUpper_ascii c.toNat ascii
    rw [Char.ofNat_toNat] at cases
    rcases cases with same | ⟨letter, upper⟩
    · exact .same (by rw [capital_ascii ascii, same])
    · exact .letter letter (capital_ascii ascii) upper
  · cases found : capitalExpansions.lookup c.toNat with
    | some cs =>
      have form : capital c = cs.map Char.ofNat := by
        simp only [capital, if_neg ascii, found]
      obtain ⟨before, after, isTable, -⟩ := List.lookup_eq_some_iff.1 found
      have mem : (c.toNat, cs) ∈ capitalExpansions := by simp [isTable]
      have letter := isAlphabetic_of_isCased (capitalExpansions_letters _ mem).1
        (Nat.le_refl _) (Nat.le_refl _)
      rw [Char.ofNat_toNat] at letter
      exact .several mem rfl letter form
    | none =>
      have form : capital c = [mapByRuns capitalRuns c] := by
        simp only [capital, if_neg ascii, found]
      rcases mapByRuns_cases capitalRuns c with ⟨r, hr, inRun, mapped⟩ | same
      · obtain ⟨domain, image⟩ := capitalRuns_alphabetic r hr
        -- the letters of the run are those of a run that is shifted to itself
        have letter := Run.isAlphabetic_shift domain inRun
        have first : r.1.first ≤ c.toNat := by
          simp only [Run.contains, Bool.and_eq_true, decide_eq_true_eq] at inRun
          exact inRun.1.1
        rw [Run.shift, Nat.add_sub_cancel' first, Char.ofNat_toNat] at letter
        refine .letter letter form ?_
        rw [mapped]
        exact Run.isAlphabetic_shift image inRun
      · rw [same] at form
        exact .same form

theorem isAlphanumeric_of_isAlphabetic (h : isAlphabetic c = true) : isAlphanumeric c = true := by
  rw [isAlphanumeric, h, Bool.true_or]

/-- The capital form starts with a letter just if the character is one. -/
theorem head?_capital (c : Char) :
    (isAlphabetic c = false ∧ capital c = [c]) ∨
      (isAlphabetic c = true ∧ ∃ d r, capital c = d :: r ∧ isAlphabetic d = true) := by
  cases isLetter : isAlphabetic c with
  | false =>
    left
    cases capitalCases c with
    | same form => exact ⟨rfl, form⟩
    | letter letter | several _ _ letter =>
      rw [isLetter] at letter
      cases letter
  | true =>
    right
    refine ⟨rfl, ?_⟩
    cases capitalCases c with
    | same form => exact ⟨c, [], form, isLetter⟩
    | @letter d _ form upper => exact ⟨d, [], form, upper⟩
    | @several e mem own _ form =>
      have first := (capitalExpansions_letters e mem).2.1
      obtain ⟨n, more⟩ := e
      cases more with
      | nil => cases first
      | cons m more =>
        exact ⟨_, _, form, isAlphabetic_of_isCased first (Nat.le_refl _) (Nat.le_refl _)⟩

theorem capital_marked : ∀ n ∈ markedCapitals, isCased n n = true ∧
    ((capital (Char.ofNat n)).any fun d => capitalMarks.contains d.toNat) = true := by
  decide +kernel

theorem isAlphabetic_of_hasMarkedCapital (h : hasMarkedCapital c = true) :
    isAlphabetic c = true := by
  have letter := (capital_marked c.toNat (List.contains_iff_mem.1 h)).1
  rw [← Char.ofNat_toNat c]
  exact isAlphabetic_of_isCased letter (Nat.le_refl _) (Nat.le_refl _)

theorem exists_isMark_capital (h : hasMarkedCapital c = true) : ∃ d ∈ capital c, IsMark d := by
  have form := (capital_marked c.toNat (List.contains_iff_mem.1 h)).2
  rw [Char.ofNat_toNat] at form
  obtain ⟨d, hd, listed⟩ := List.any_eq_true.1 form
  have mark := isMark_capitalMarks d.toNat (List.contains_iff_mem.1 listed)
  rw [Char.ofNat_toNat] at mark
  exact ⟨d, hd, mark⟩

/-- The capital form of a letter or digit consists of such, unless it ends in a mark. -/
theorem isAlphanumeric_of_mem_capital (h : isAlphanumeric c = true)
    (unmarked : hasMarkedCapital c = false) (hd : d ∈ capital c) : isAlphanumeric d = true := by
  cases capitalCases c with
  | same form =>
    rw [form, List.mem_singleton] at hd
    rwa [hd]
  | letter _ form upper =>
    rw [form, List.mem_singleton] at hd
    rw [hd]
    exact isAlphanumeric_of_isAlphabetic upper
  | @several e mem own _ form =>
    rw [form] at hd
    obtain ⟨n, hn, rfl⟩ := List.mem_map.1 hd
    have letters := (capitalExpansions_letters e mem).2.2
    rw [own, if_neg (by rw [← hasMarkedCapital, unmarked]; decide)] at letters
    exact isAlphanumeric_of_isAlphabetic
      (isAlphabetic_of_isCased (List.all_eq_true.1 letters n hn) (Nat.le_refl _) (Nat.le_refl _))

/-! ### Small forms -/

theorem toLower_ascii : ∀ n < 0x80, isAlphanumeric (Char.ofNat n) = true →
    isAlphanumeric (Char.ofNat n).toLower = true := by
  decide

/-- The small form of a letter or digit consists of such, but for that of `İ`. -/
theorem isAlphanumeric_of_mem_small (h : isAlphanumeric c = true) (other : c ≠ 'İ')
    (hd : d ∈ small c) : isAlphanumeric d = true := by
  unfold small at hd
  split at hd
  · rename_i ascii
    have lower := toLower_ascii c.toNat ascii
    rw [Char.ofNat_toNat] at lower
    rw [List.mem_singleton.1 hd]
    exact lower h
  · rw [if_neg (by simpa using other), List.mem_singleton] at hd
    subst hd
    rcases mapByRuns_cases smallRuns c with ⟨r, hr, inRun, mapped⟩ | same
    · rw [mapped]
      exact isAlphanumeric_of_isAlphabetic
        (Run.isAlphabetic_shift (smallRuns_alphabetic r hr) inRun)
    · rwa [same]

theorem isAlphanumeric_of_mem_smallWord {word : List Char}
    (h : ∀ c ∈ word, isAlphanumeric c = true) (others : 'İ' ∉ word) (hd : d ∈ smallWord word) :
    isAlphanumeric d = true := by
  fun_induction smallWord word with
  | case1 => cases hd
  | case2 c final =>
    rw [List.mem_singleton.1 hd]
    decide +kernel
  | case3 c _ =>
    exact isAlphanumeric_of_mem_small (h c List.mem_cons_self)
      (fun same => others (same ▸ List.mem_cons_self)) hd
  | case4 c next rest ih =>
    rcases List.mem_append.1 hd with first | later
    · exact isAlphanumeric_of_mem_small (h c List.mem_cons_self)
        (fun same => others (same ▸ List.mem_cons_self)) first
    · exact ih (fun c hc => h c (List.mem_cons_of_mem _ hc))
        (fun mem => others (List.mem_cons_of_mem _ mem)) later

theorem exists_isMark_smallWord {word : List Char} (h : 'İ' ∈ word) :
    ∃ d ∈ smallWord word, IsMark d := by
  have mark : IsMark '\u0307' := by decide +kernel
  refine ⟨'\u0307', ?_, mark⟩
  fun_induction smallWord word with
  | case1 => cases h
  | case2 c final =>
    rw [beq_iff_eq] at final
    subst final
    exact absurd h (by decide)
  | case3 c _ =>
    rw [← List.mem_singleton.1 h]
    decide
  | case4 c next rest ih =>
    rcases List.mem_cons.1 h with rfl | h
    · exact List.mem_append_left _ (by decide)
    · exact List.mem_append_right _ (ih h)

end OpenApiModels.Text
