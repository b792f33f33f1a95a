import Mathlib.Data.List.TakeWhile
import OpenApiModels.Proofs.Text.Finding

/-!
# Bytes and slices of texts

A text is cut at an offset in its UTF-8 bytes only where a character ends
(`splitBytes?_eq_some_iff`). In the bytes, a character of ASCII is one byte, and the bytes of any
other character are no characters of ASCII (`utf8EncodeChar_cases`).
-/

namespace OpenApiModels.Text

/-! ### Slices -/

/-- The first `n` bytes of a text and what follows them. Yields nothing where the text is shorter or
a character would be cut. -/
def splitBytes? (n : Nat) : List Char → Option (List Char × List Char)
  | [] => if n = 0 then some ([], []) else none
  | c :: cs =>
    if n = 0 then some ([], c :: cs)
    else if c.utf8Size ≤ n then
      (splitBytes? (n - c.utf8Size) cs).map fun (before, after) => (c :: before, after)
    else none

/-- The text between two offsets in its bytes. Yields nothing where these are out of order or out of
range, or a character would be cut. -/
def slice? (cs : List Char) (start stop : Nat) : Option (List Char) :=
  if start ≤ stop then
    (splitBytes? start cs).bind fun cut => (splitBytes? (stop - start) cut.2).map (·.1)
  else none

theorem splitBytes?_append (a b : List Char) : splitBytes? (byteSize a) (a ++ b) = some (a, b) := by
  induction a with
  | nil => cases b <;> rfl
  | cons c a ih =>
    have positive := Char.utf8Size_pos c
    have rest : byteSize (c :: a) - c.utf8Size = byteSize a := by
      rw [byteSize_cons]
      omega
    rw [List.cons_append, splitBytes?, rest, ih, byteSize_cons, if_neg (by omega),
      if_pos (by omega)]
    rfl

/-- A text is cut between characters. -/
theorem splitBytes?_eq_some_iff {n : Nat} {cs a b : List Char} :
    splitBytes? n cs = some (a, b) ↔ cs = a ++ b ∧ byteSize a = n := by
  constructor
  · intro h
    fun_induction splitBytes? n cs generalizing a with
    | case1 =>
      cases h
      exact ⟨rfl, by simp [*]⟩
    | case2 => cases h
    | case3 =>
      cases h
      exact ⟨rfl, by simp [*]⟩
    | case4 n c cs _ fits ih =>
      obtain ⟨⟨before, after⟩, split, same⟩ := Option.map_eq_some_iff.1 h
      cases same
      obtain ⟨rfl, size⟩ := ih split
      refine ⟨rfl, ?_⟩
      rw [byteSize_cons, size]
      omega
    | case5 => cases h
  · rintro ⟨rfl, rfl⟩
    exact splitBytes?_append a b

theorem slice?_append (a t b : List Char) :
    slice? (a ++ (t ++ b)) (byteSize a) (byteSize a + byteSize t) = some t := by
  have size : byteSize a + byteSize t - byteSize a = byteSize t := by omega
  rw [slice?, if_pos (Nat.le_add_right _ _), splitBytes?_append, Option.bind_some, size]
  dsimp only
  rw [splitBytes?_append]
  rfl

/-- A slice is what stands between what comes before its start and what comes behind its end. -/
theorem slice?_eq_some_iff {cs t : List Char} {start stop : Nat} :
    slice? cs start stop = some t ↔
      ∃ a b, cs = a ++ (t ++ b) ∧ byteSize a = start ∧ start + byteSize t = stop := by
  constructor
  · intro h
    unfold slice? at h
    split at h
    · rename_i ordered
      obtain ⟨⟨a, rest⟩, before, inside⟩ := Option.bind_eq_some_iff.1 h
      obtain ⟨⟨t, b⟩, cut, rfl⟩ := Option.map_eq_some_iff.1 inside
      obtain ⟨rfl, size⟩ := splitBytes?_eq_some_iff.1 before
      obtain ⟨rfl, inner⟩ := splitBytes?_eq_some_iff.1 cut
      refine ⟨a, b, rfl, size, ?_⟩
      rw [inner]
      omega
    · cases h
  · rintro ⟨a, b, rfl, rfl, rfl⟩
    exact slice?_append a t b

/-! ### Bytes -/

theorem byteSize_pos {cs : List Char} (h : cs ≠ []) : 0 < byteSize cs := by
  cases cs with
  | nil => exact absurd rfl h
  | cons c cs =>
    have := c.utf8Size_pos
    rw [byteSize_cons]
    omega

/-- The UTF-8 bytes of a text. -/
def bytes (cs : List Char) : List UInt8 :=
  cs.flatMap String.utf8EncodeChar

@[simp] theorem bytes_cons (c : Char) (cs : List Char) :
    bytes (c :: cs) = String.utf8EncodeChar c ++ bytes cs := rfl

@[simp] theorem bytes_append (a b : List Char) : bytes (a ++ b) = bytes a ++ bytes b :=
  List.flatMap_append

@[simp] theorem length_bytes (cs : List Char) : (bytes cs).length = byteSize cs := by
  induction cs with
  | nil => rfl
  | cons c cs ih =>
    rw [bytes_cons, List.length_append, ih, String.length_utf8EncodeChar, byteSize_cons]

/-- Whether a character is one byte. -/
def IsAscii (c : Char) : Prop :=
  c.toNat < 0x80

instance : DecidablePred IsAscii :=
  fun c => inferInstanceAs (Decidable (c.toNat < 0x80))

theorem utf8EncodeChar_cases (c : Char) :
    (IsAscii c ∧ String.utf8EncodeChar c = [c.toUInt8]) ∨
      (¬ IsAscii c ∧ ∀ b ∈ String.utf8EncodeChar c, 0x80 ≤ b) := by
  have code : c.toNat = c.val.toNat := rfl
  unfold IsAscii String.utf8EncodeChar
  rw [code]
  dsimp only
  by_cases ascii : c.val.toNat ≤ 127
  · refine .inl ⟨by omega, ?_⟩
    rw [if_pos ascii]
    rfl
  · refine .inr ⟨by omega, ?_⟩
    rw [if_neg ascii]
    intro b hb
    rw [UInt8.le_iff_toNat_le]
    repeat' split at hb
    all_goals
      simp only [List.mem_cons, List.not_mem_nil, or_false] at hb
      rcases hb with rfl | rfl | rfl | rfl <;> simp [UInt8.toNat_ofNat'] <;> omega

theorem utf8Size_of_isAscii {c : Char} (h : IsAscii c) : c.utf8Size = 1 := by
  have code := (utf8EncodeChar_cases c).resolve_right fun other => other.1 h
  rw [← String.length_utf8EncodeChar, code.2]
  rfl

theorem toUInt8_lt {c : Char} (h : IsAscii c) : c.toUInt8 < 0x80 := by
  rw [UInt8.lt_iff_toNat_lt]
  unfold IsAscii at h
  have code : c.toUInt8.toNat = c.toNat % 256 := rfl
  have bound : (0x80 : UInt8).toNat = 0x80 := rfl
  omega

theorem toUInt8_inj {c d : Char} (hc : IsAscii c) (hd : IsAscii d) :
    c.toUInt8 = d.toUInt8 ↔ c = d := by
  refine ⟨fun same => ?_, fun same => by rw [same]⟩
  have codes : c.val.toNat % 256 = d.val.toNat % 256 := congrArg UInt8.toNat same
  unfold IsAscii at hc hd
  have code (e : Char) : e.toNat = e.val.toNat := rfl
  rw [code] at hc hd
  refine Char.ext (UInt32.toNat_inj.1 ?_)
  omega

/-- A character has a first byte, which tells it from any character of ASCII, and the bytes behind
the first one are none of ASCII. -/
theorem exists_firstByte (c : Char) :
    ∃ b more, String.utf8EncodeChar c = b :: more ∧ (∀ x ∈ more, 0x80 ≤ x) ∧
      ∀ a, IsAscii a → (b = a.toUInt8 ↔ c = a) := by
  rcases utf8EncodeChar_cases c with ⟨ascii, code⟩ | ⟨notAscii, large⟩
  · exact ⟨_, [], code, by simp, fun a ha => toUInt8_inj ascii ha⟩
  · cases code : String.utf8EncodeChar c with
    | nil =>
      have size := String.length_utf8EncodeChar c
      rw [code, List.length_nil] at size
      exact absurd size.symm c.utf8Size_pos.ne'
    | cons b more =>
      rw [code] at large
      obtain ⟨first, others⟩ := List.forall_mem_cons.1 large
      refine ⟨b, more, rfl, others, fun a ha => ⟨?_, ?_⟩⟩
      · rintro rfl
        exact absurd first (UInt8.not_le.2 (toUInt8_lt ha))
      · rintro rfl
        exact absurd ha notAscii

/-- The byte at an offset is that of a character of ASCII where this character stands there. -/
theorem getElem?_bytes_iff {a : Char} (ascii : IsAscii a) (before cs : List Char) :
    (bytes (before ++ cs))[byteSize before]? = some a.toUInt8 ↔ cs.head? = some a := by
  rw [bytes_append, ← length_bytes, List.getElem?_append_right (Nat.le_refl _), Nat.sub_self]
  cases cs with
  | nil => simp
  | cons c cs =>
    obtain ⟨b, more, code, -, first⟩ := exists_firstByte c
    rw [bytes_cons, code, List.cons_append, List.getElem?_cons_zero, List.head?_cons,
      Option.some.injEq, Option.some.injEq, first a ascii]

/-! ### Offsets of what is found -/

/-- The offset of the first character that `p` holds of. -/
def findChar? (p : Char → Bool) (cs : List Char) : Option Nat :=
  if cs.any p then some (byteSize (cs.takeWhile fun c => !p c)) else none

/-- The offset of the first occurrence of `key`. -/
def findText? (key cs : List Char) : Option Nat :=
  (splitFirst? key cs).map fun cut => byteSize cut.1

theorem findChar?_eq (p : Char → Bool) (cs : List Char) :
    findChar? p cs = if cs.dropWhile (fun c => !p c) = [] then none
      else some (byteSize (cs.takeWhile fun c => !p c)) := by
  have none_iff : cs.dropWhile (fun c => !p c) = [] ↔ ¬ cs.any p = true := by simp
  rw [findChar?]
  by_cases found : cs.any p = true
  · rw [if_pos found, if_neg (not_not_intro found ∘ none_iff.1)]
  · rw [if_neg found, if_pos (none_iff.2 found)]

/-- Where no character is found, the text is over. -/
theorem findChar?_getD (p : Char → Bool) (cs : List Char) :
    (findChar? p cs).getD (byteSize cs) = byteSize (cs.takeWhile fun c => !p c) := by
  have whole := List.takeWhile_append_dropWhile (p := fun c => !p c) (l := cs)
  rw [findChar?_eq]
  split
  · rename_i none
    rw [none, List.append_nil] at whole
    rw [whole]
    rfl
  · rfl

end OpenApiModels.Text
