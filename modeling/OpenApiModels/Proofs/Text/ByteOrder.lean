/-!
# The order of UTF-8 bytes

Texts are in the order of their UTF-8 bytes, as a character with a greater code point has greater
bytes (`lt_iff_byteLex`).
-/

namespace OpenApiModels.Text

/-- The UTF-8 bytes of a text. -/
def utf8 (s : String) : List UInt8 :=
  s.toUTF8.data.toList

theorem utf8_eq (s : String) : utf8 s = s.toList.flatMap String.utf8EncodeChar := by
  rw [utf8, String.toUTF8_eq_toByteArray, ← String.utf8Encode_toList, List.utf8Encode,
    List.data_toByteArray]

/-- The bytes come before others: at the first difference they are less, or they end there. -/
abbrev ByteLex : List UInt8 → List UInt8 → Prop :=
  List.Lex (· < ·)

/-! ### One character -/

theorem byteLex_cons {x y : Nat} {xs ys : List UInt8} (small : y < 256) (le : x ≤ y)
    (rest : x = y → ByteLex xs ys) : ByteLex (UInt8.ofNat x :: xs) (UInt8.ofNat y :: ys) := by
  rcases Nat.lt_or_eq_of_le le with less | same
  · exact .rel ((UInt8.ofNat_lt_iff_lt (Nat.lt_trans less small) small).2 less)
  · rw [same]
    exact .cons (rest same)

theorem byteLex_cons_of_lt {x y : Nat} {xs ys : List UInt8} (small : y < 256) (less : x < y) :
    ByteLex (UInt8.ofNat x :: xs) (UInt8.ofNat y :: ys) :=
  byteLex_cons small (Nat.le_of_lt less) fun same => absurd same (Nat.ne_of_lt less)

/-- Greater characters have greater bytes, whatever follows. -/
theorem byteLex_utf8EncodeChar {c d : Char} (h : c < d) (cs ds : List UInt8) :
    ByteLex (String.utf8EncodeChar c ++ cs) (String.utf8EncodeChar d ++ ds) := by
  have less : c.val.toNat < d.val.toNat := h
  have bound : d.val.toNat < 0x110000 := by
    rcases d.valid with h | h
    · exact Nat.lt_trans h (by decide)
    · exact h.2
  unfold String.utf8EncodeChar
  dsimp only
  generalize c.val.toNat = v at less
  generalize d.val.toNat = w at less bound
  repeat' split
  -- The first bytes of longer encodings are greater; those of one length need not differ there.
  all_goals try omega
  all_goals try exact byteLex_cons_of_lt (by omega) (by omega)
  · refine byteLex_cons (by omega) (by omega) fun first => ?_
    exact byteLex_cons_of_lt (by omega) (by omega)
  · refine byteLex_cons (by omega) (by omega) fun first => ?_
    refine byteLex_cons (by omega) (by omega) fun second => ?_
    exact byteLex_cons_of_lt (by omega) (by omega)
  · refine byteLex_cons (by omega) (by omega) fun first => ?_
    refine byteLex_cons (by omega) (by omega) fun second => ?_
    refine byteLex_cons (by omega) (by omega) fun third => ?_
    exact byteLex_cons_of_lt (by omega) (by omega)

theorem utf8EncodeChar_eq_cons (c : Char) : ∃ x xs, String.utf8EncodeChar c = x :: xs := by
  unfold String.utf8EncodeChar
  dsimp only
  repeat' split
  all_goals exact ⟨_, _, rfl⟩

/-! ### Texts -/

theorem byteLex_append_left (cs : List UInt8) {xs ys : List UInt8} (h : ByteLex xs ys) :
    ByteLex (cs ++ xs) (cs ++ ys) := by
  induction cs with
  | nil => exact h
  | cons c cs ih => exact .cons ih

theorem byteLex_of_lt {a b : String} (h : a < b) : ByteLex (utf8 a) (utf8 b) := by
  rw [utf8_eq, utf8_eq]
  have chars : List.Lex (· < ·) a.toList b.toList := h
  generalize a.toList = cs at chars
  generalize b.toList = ds at chars
  induction chars with
  | nil =>
    rename_i d ds
    obtain ⟨x, xs, bytes⟩ := utf8EncodeChar_eq_cons d
    rw [List.flatMap_nil, List.flatMap_cons, bytes]
    exact .nil
  | rel less =>
    rw [List.flatMap_cons, List.flatMap_cons]
    exact byteLex_utf8EncodeChar less _ _
  | cons _ ih =>
    rw [List.flatMap_cons, List.flatMap_cons]
    exact byteLex_append_left _ ih

theorem byteLex_irrefl (xs : List UInt8) : ¬ ByteLex xs xs :=
  List.lt_irrefl xs

theorem lt_iff_byteLex {a b : String} : a < b ↔ ByteLex (utf8 a) (utf8 b) := by
  refine ⟨byteLex_of_lt, fun bytes => ?_⟩
  rcases Std.lt_trichotomy a b with less | same | greater
  · exact less
  · exact absurd bytes (same ▸ byteLex_irrefl _)
  · exact absurd bytes (List.lt_asymm (byteLex_of_lt greater))

theorem le_iff_not_byteLex {a b : String} : a ≤ b ↔ ¬ ByteLex (utf8 b) (utf8 a) := by
  rw [← lt_iff_byteLex, Std.not_lt]

end OpenApiModels.Text
