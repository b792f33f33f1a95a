/-!
# Finding and cutting texts

Operations on texts as lists of characters. `splitFirst?_eq_some` says that cutting a text at the
first occurrence of another loses nothing.
-/

namespace OpenApiModels.Text

/-- What follows `key` in a text that starts with it. -/
def stripStart? : List Char → List Char → Option (List Char)
  | [], s => some s
  | _ :: _, [] => none
  | k :: key, c :: cs => if k = c then stripStart? key cs else none

theorem stripStart?_eq_some_iff {key s rest : List Char} :
    stripStart? key s = some rest ↔ s = key ++ rest := by
  fun_induction stripStart? key s with
  | case1 s => simp
  | case2 => simp
  | case3 k key cs ih => simp [ih]
  | case4 k key c cs hne => simp [Ne.symm hne]

theorem length_lt_of_stripStart? {key s rest : List Char} (h : stripStart? key s = some rest)
    (hkey : key ≠ []) : rest.length < s.length := by
  rw [stripStart?_eq_some_iff.1 h, List.length_append]
  have := List.length_pos_iff.2 hkey
  omega

/-- The text before and after the first occurrence of `key`. -/
def splitFirst? (key : List Char) : List Char → Option (List Char × List Char)
  | [] => if key.isEmpty then some ([], []) else none
  | c :: cs =>
    match stripStart? key (c :: cs) with
    | some rest => some ([], rest)
    | none => (splitFirst? key cs).map fun (before, after) => (c :: before, after)

theorem splitFirst?_eq_some {key s before after : List Char}
    (h : splitFirst? key s = some (before, after)) : s = before ++ key ++ after := by
  induction s generalizing before with
  | nil =>
    simp only [splitFirst?] at h
    split at h
    · rename_i hk
      cases h
      simp [List.isEmpty_iff.1 hk]
    · cases h
  | cons c cs ih =>
    simp only [splitFirst?] at h
    split at h
    · rename_i rest hp
      cases h
      simpa using stripStart?_eq_some_iff.1 hp
    · simp only [Option.map_eq_some_iff, Prod.exists, Prod.mk.injEq] at h
      obtain ⟨b, a, hb, rfl, rfl⟩ := h
      simp [ih hb]

/-- Whether `key` occurs in the text. -/
def containsText (key s : List Char) : Bool :=
  (splitFirst? key s).isSome

/-- The text with every occurrence of a nonempty `key` replaced, from left to right. -/
def replaceAll (key new : List Char) (hkey : key ≠ []) : List Char → List Char
  | [] => []
  | c :: cs =>
    match h : stripStart? key (c :: cs) with
    | some rest =>
      have := length_lt_of_stripStart? h hkey
      new ++ replaceAll key new hkey rest
    | none => c :: replaceAll key new hkey cs
termination_by s => s.length
decreasing_by
  · exact this
  · exact Nat.lt_succ_self _

/-- The pieces between the occurrences of a character: one more than there are occurrences. -/
def splitAtChar (mark : Char) : List Char → List (List Char)
  | [] => [[]]
  | c :: cs =>
    if c = mark then [] :: splitAtChar mark cs
    else match splitAtChar mark cs with
      | [] => [[c]]
      | piece :: pieces => (c :: piece) :: pieces

/-- What follows the last occurrence of a character; the whole text when there is none. -/
def afterLast (mark : Char) (cs : List Char) : List Char :=
  (cs.reverse.takeWhile (· != mark)).reverse

/-- The lines of a text, each with its line break. -/
def linesWithBreaks : List Char → List (List Char)
  | [] => []
  | c :: cs =>
    if c = '\n' then ['\n'] :: linesWithBreaks cs
    else match linesWithBreaks cs with
      | [] => [[c]]
      | line :: lines => (c :: line) :: lines

theorem flatten_linesWithBreaks (cs : List Char) : (linesWithBreaks cs).flatten = cs := by
  induction cs with
  | nil => rfl
  | cons c cs ih =>
    simp only [linesWithBreaks]
    split
    · simp [*]
    · split
      · rename_i h
        rw [h] at ih
        simp [← ih]
      · rename_i h
        rw [h] at ih
        simp [← ih]

/-- The number of bytes of the text in UTF-8. -/
def byteSize : List Char → Nat
  | [] => 0
  | c :: cs => c.utf8Size + byteSize cs

@[simp] theorem byteSize_nil : byteSize [] = 0 := rfl

@[simp] theorem byteSize_cons (c : Char) (cs : List Char) :
    byteSize (c :: cs) = c.utf8Size + byteSize cs := rfl

@[simp] theorem byteSize_append (a b : List Char) :
    byteSize (a ++ b) = byteSize a + byteSize b := by
  induction a with
  | nil => simp
  | cons c a ih => simp [ih, Nat.add_assoc]

end OpenApiModels.Text
