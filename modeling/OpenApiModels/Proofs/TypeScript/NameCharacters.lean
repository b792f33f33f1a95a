import Mathlib.Data.Bool.AllAny
import Mathlib.Data.List.SplitBy
import OpenApiModels.TypeScript.Name

/-!
# Characters of names

Neither a separator of a spec's name nor a case mapping brings a mark into a generated name: in
ASCII it consists of letters, digits and underscores (`inName_of_mem_typeName`). So a type name can
stand as a file name: it holds no slash, no point and no control character.
-/

namespace OpenApiModels.Text

/-- In ASCII a letter, a digit or an underscore. -/
def InName (c : Char) : Prop :=
  c.toNat < 0x80 → (c.isAlphanum || c == '_') = true

instance (c : Char) : Decidable (InName c) :=
  inferInstanceAs (Decidable (_ → _))

variable {c d : Char}

theorem InName.ne (h : InName c) (mark : Char) (notName : ¬ InName mark) : c ≠ mark := by
  rintro rfl
  exact notName h

theorem inName_ascii : ∀ n < 0x80, InName (Char.ofNat n) →
    '0' ≤ Char.ofNat n ∧ InName (Char.ofNat n).toUpper ∧ InName (Char.ofNat n).toLower := by
  decide

theorem InName.zero_le (h : InName c) : '0' ≤ c := by
  by_cases ascii : c.toNat < 0x80
  · have cases := inName_ascii c.toNat ascii
    rw [Char.ofNat_toNat] at cases
    exact (cases h).1
  · change '0'.toNat ≤ c.toNat
    have : '0'.toNat = 0x30 := rfl
    omega

theorem inName_cases (ascii : c.toNat < 0x80) (h : InName c) :
    InName c.toUpper ∧ InName c.toLower := by
  have cases := inName_ascii c.toNat ascii
  rw [Char.ofNat_toNat] at cases
  exact (cases h).2

/-! ### Case mappings -/

/-- A code point of a character beyond ASCII. -/
def IsBeyondAscii (n : Nat) : Prop :=
  n.isValidChar ∧ 0x80 ≤ n

instance (n : Nat) : Decidable (IsBeyondAscii n) :=
  inferInstanceAs (Decidable (_ ∧ _))

theorem IsBeyondAscii.inName {n : Nat} (h : IsBeyondAscii n) : InName (Char.ofNat n) := by
  have same : (Char.ofNat n).toNat = n := by
    rw [Char.ofNat, dif_pos h.1]
    rfl
  intro ascii
  rw [same] at ascii
  exact absurd h.2 (Nat.not_le.2 ascii)

/-- The members of a run stay beyond ASCII, or there is one and it is mapped into a name. -/
def MapsIntoNames (runs : List (Run × Nat)) : Prop :=
  ∀ r ∈ runs, (0x80 ≤ r.2 ∧ (r.2 + (r.1.last - r.1.first) < 0xd800 ∨
      0xdfff < r.2 ∧ r.2 + (r.1.last - r.1.first) < 0x110000)) ∨
    (r.1.last = r.1.first ∧ InName (Char.ofNat r.2))

instance (runs : List (Run × Nat)) : Decidable (MapsIntoNames runs) :=
  inferInstanceAs (Decidable (∀ r ∈ runs, _))

theorem mapsIntoNames_capitalRuns : MapsIntoNames capitalRuns := by
  decide +kernel

theorem mapsIntoNames_smallRuns : MapsIntoNames smallRuns := by
  decide +kernel

theorem inName_mapByRuns {runs : List (Run × Nat)} (into : MapsIntoNames runs) (h : InName c) :
    InName (mapByRuns runs c) := by
  unfold mapByRuns
  split
  · rename_i run target found
    have inRun : run.contains c.toNat := by simpa using List.find?_some found
    simp only [Run.contains, Bool.and_eq_true, decide_eq_true_eq] at inRun
    rcases into _ (List.mem_of_find?_eq_some found) with ⟨beyond, valid⟩ | ⟨single, inName⟩
    · refine IsBeyondAscii.inName ⟨?_, ?_⟩
      · unfold Run.shift Nat.isValidChar
        dsimp only at beyond valid
        omega
      · unfold Run.shift
        omega
    · have stays : run.shift target c.toNat = target := by
        unfold Run.shift
        dsimp only at single
        omega
      rw [stays]
      exact inName
  · exact h

theorem inName_capitalExpansions : ∀ e ∈ capitalExpansions, ∀ n ∈ e.2, InName (Char.ofNat n) := by
  decide +kernel

theorem inName_of_mem_capital (h : InName c) (hd : d ∈ capital c) : InName d := by
  unfold capital at hd
  split at hd
  · rename_i ascii
    rw [List.mem_singleton.1 hd]
    exact (inName_cases ascii h).1
  · split at hd
    · rename_i cs expanded
      obtain ⟨before, after, isTable, -⟩ := List.lookup_eq_some_iff.1 expanded
      have mem : (c.toNat, cs) ∈ capitalExpansions := by simp [isTable]
      obtain ⟨n, hn, rfl⟩ := List.mem_map.1 hd
      exact inName_capitalExpansions _ mem n hn
    · rw [List.mem_singleton.1 hd]
      exact inName_mapByRuns mapsIntoNames_capitalRuns h

theorem inName_of_mem_small (h : InName c) (hd : d ∈ small c) : InName d := by
  unfold small at hd
  split at hd
  · rename_i ascii
    rw [List.mem_singleton.1 hd]
    exact (inName_cases ascii h).2
  · split at hd
    · exact List.all_iff_forall_prop.1 (by decide) d hd
    · rw [List.mem_singleton.1 hd]
      exact inName_mapByRuns mapsIntoNames_smallRuns h

/-! ### Words -/

theorem inName_of_isAlphanumeric (h : isAlphanumeric c) : InName c := by
  intro ascii
  rw [isAlphanumeric_ascii ascii] at h
  rw [h]
  rfl

theorem isAlphanumeric_of_mem_alphanumericRuns {cs run : List Char}
    (h : run ∈ alphanumericRuns cs) (hc : c ∈ run) : isAlphanumeric c := by
  obtain ⟨isRun, start⟩ := List.mem_filter.1 h
  have chain := List.isChain_of_mem_splitBy isRun
  clear isRun h
  induction run with
  | nil => cases hc
  | cons first rest ih =>
    have first' : isAlphanumeric first := by simpa using start
    rcases List.mem_cons.1 hc with rfl | hc
    · exact first'
    · cases rest with
      | nil => cases hc
      | cons second rest =>
        obtain ⟨same, chain⟩ := List.isChain_cons_cons.1 chain
        refine ih hc ?_ chain
        rw [beq_iff_eq] at same
        simpa [← same] using first'

theorem mem_of_mem_splitRun {last : LastCase} {word run piece : List Char}
    (h : piece ∈ splitRun last word run) (hc : c ∈ piece) : c ∈ word ∨ c ∈ run := by
  fun_induction splitRun last word run with
  | case1 => cases h
  | case2 last word first =>
    rw [List.mem_singleton.1 h, List.mem_reverse, List.mem_cons] at hc
    rcases hc with rfl | hc
    · exact .inr List.mem_cons_self
    · exact .inl hc
  | case3 last word first next rest _ ih =>
    rcases List.mem_cons.1 h with rfl | h
    · rw [List.mem_reverse, List.mem_cons] at hc
      rcases hc with rfl | hc
      · exact .inr List.mem_cons_self
      · exact .inl hc
    · exact .inr (List.mem_cons_of_mem _ ((ih h).resolve_left List.not_mem_nil))
  | case4 last word first next rest _ _ ih =>
    rcases List.mem_cons.1 h with rfl | h
    · exact .inl (List.mem_reverse.1 hc)
    · rcases ih h with here | later
      · rw [List.mem_singleton.1 here]
        exact .inr List.mem_cons_self
      · exact .inr (List.mem_cons_of_mem _ later)
  | case5 last word first next rest _ _ ih =>
    rcases ih h with here | later
    · rcases List.mem_cons.1 here with rfl | before
      · exact .inr List.mem_cons_self
      · exact .inl before
    · exact .inr (List.mem_cons_of_mem _ later)

theorem isAlphanumeric_of_mem_words {cs word : List Char} (h : word ∈ words cs) (hc : c ∈ word) :
    isAlphanumeric c := by
  obtain ⟨run, hrun, split⟩ := List.mem_flatMap.1 h
  have mem := (mem_of_mem_splitRun split hc).resolve_left List.not_mem_nil
  exact isAlphanumeric_of_mem_alphanumericRuns hrun mem

theorem inName_of_mem_words {cs word : List Char} (h : word ∈ words cs) (hc : c ∈ word) :
    InName c :=
  inName_of_isAlphanumeric (isAlphanumeric_of_mem_words h hc)

theorem inName_of_mem_smallWord {word : List Char} (h : ∀ c ∈ word, InName c)
    (hd : d ∈ smallWord word) : InName d := by
  fun_induction smallWord word with
  | case1 => cases hd
  | case2 c _ =>
    rw [List.mem_singleton.1 hd]
    decide
  | case3 c _ => exact inName_of_mem_small (h c List.mem_cons_self) hd
  | case4 c next rest ih =>
    rcases List.mem_append.1 hd with first | later
    · exact inName_of_mem_small (h c List.mem_cons_self) first
    · exact ih (fun c hc => h c (List.mem_cons_of_mem _ hc)) later

theorem inName_of_mem_pascalCase {cs : List Char} (hd : d ∈ pascalCase cs) : InName d := by
  obtain ⟨word, hword, hd⟩ := List.mem_flatMap.1 hd
  have letters : ∀ c ∈ word, InName c := fun c hc => inName_of_mem_words hword hc
  cases word with
  | nil => cases hd
  | cons c rest =>
    rcases List.mem_append.1 hd with first | later
    · exact inName_of_mem_capital (letters c List.mem_cons_self) first
    · exact inName_of_mem_smallWord (fun c hc => letters c (List.mem_cons_of_mem _ hc)) later

/-! ### Small letters -/

theorem isLower_iff {c : Char} : c.isLower = true ↔ 'a'.toNat ≤ c.toNat ∧ c.toNat ≤ 'z'.toNat := by
  change (decide _ && decide _) = true ↔ _
  rw [Bool.and_eq_true, decide_eq_true_eq, decide_eq_true_eq]
  rfl

theorem isLower_of_beyondAscii {c : Char} (h : ¬ c.toNat < 0x80) : c.isLower = false := by
  rw [Bool.eq_false_iff, Ne, isLower_iff]
  have last : 'z'.toNat = 0x7a := rfl
  omega

theorem isLower_toUpper : ∀ n < 0x80, (Char.ofNat n).toUpper.isLower = false := by
  decide

theorem isLower_capitalExpansions :
    ∀ e ∈ capitalExpansions, ∀ n ∈ e.2, (Char.ofNat n).isLower = false := by
  decide +kernel

theorem capitalRuns_avoid_lower :
    ∀ r ∈ capitalRuns, 'z'.toNat < r.2 ∨ r.2 + (r.1.last - r.1.first) < 'a'.toNat := by
  decide +kernel

theorem isLower_ofNat {n : Nat} (h : 'z'.toNat < n ∨ n < 'a'.toNat) :
    (Char.ofNat n).isLower = false := by
  rw [Bool.eq_false_iff, Ne, isLower_iff]
  by_cases valid : n.isValidChar
  · rw [show (Char.ofNat n).toNat = n by rw [Char.ofNat, dif_pos valid]; rfl]
    omega
  · rw [show (Char.ofNat n).toNat = 0 by rw [Char.ofNat, dif_neg valid]; rfl]
    exact fun both => absurd both.1 (by decide)

/-- No small letter of ASCII stands in the capital form of a character. -/
theorem isLower_of_mem_capital {c d : Char} (h : d ∈ capital c) : d.isLower = false := by
  unfold capital at h
  split at h
  · rename_i ascii
    have upper := isLower_toUpper c.toNat ascii
    rw [Char.ofNat_toNat] at upper
    rw [List.mem_singleton.1 h]
    exact upper
  · rename_i beyond
    split at h
    · rename_i cs expanded
      obtain ⟨n, hn, rfl⟩ := List.mem_map.1 h
      obtain ⟨before, after, isTable, -⟩ := List.lookup_eq_some_iff.1 expanded
      exact isLower_capitalExpansions (c.toNat, cs) (by simp [isTable]) n hn
    · rw [List.mem_singleton.1 h]
      unfold mapByRuns
      split
      · rename_i run target found
        have inRun : run.contains c.toNat := by simpa using List.find?_some found
        simp only [Run.contains, Bool.and_eq_true, decide_eq_true_eq] at inRun
        have outside := capitalRuns_avoid_lower _ (List.mem_of_find?_eq_some found)
        dsimp only at outside
        refine isLower_ofNat ?_
        unfold Run.shift
        omega
      · exact isLower_of_beyondAscii beyond

theorem isLower_pascalCase (cs : List Char) : (pascalCase cs).head?.any Char.isLower = false := by
  rw [pascalCase, List.head?_flatMap]
  cases found : (words cs).findSome? fun word => (titleWord word).head? with
  | none => rfl
  | some d =>
    obtain ⟨word, -, first⟩ := List.exists_of_findSome?_eq_some found
    cases word with
    | nil => cases first
    | cons c rest =>
      cases letters : capital c with
      | nil => exact absurd letters (capital_ne_nil c)
      | cons e more =>
        rw [titleWord, letters] at first
        obtain rfl : e = d := Option.some.inj first
        exact isLower_of_mem_capital (by rw [letters]; exact List.mem_cons_self)

end OpenApiModels.Text

namespace OpenApiModels.TypeScript

open Text

/-- No mark stands in a type name. -/
theorem inName_of_mem_typeName {name : String} {c : Char} (h : c ∈ (typeName name).toList) :
    InName c := by
  rw [typeName, String.toList_ofList, guardDigit] at h
  split at h
  · rcases List.mem_cons.1 h with rfl | h
    · decide
    · exact inName_of_mem_pascalCase h
  · exact inName_of_mem_pascalCase h

/-- Where a letter has a capital, a type name does not start with the small one. -/
theorem isLower_typeName (name : String) :
    (typeName name).toList.head?.any Char.isLower = false := by
  rw [typeName, String.toList_ofList, guardDigit]
  split
  · rfl
  · exact isLower_pascalCase _

theorem typeName_ne {word : String} (h : word.toList.head?.any Char.isLower = true)
    (name : String) : typeName name ≠ word := by
  rintro rfl
  rw [isLower_typeName] at h
  cases h

/-- No model takes the name of the index file. -/
theorem typeName_ne_index (name : String) : typeName name ≠ "index" :=
  typeName_ne (by decide) name

end OpenApiModels.TypeScript
