import OpenApiModels.Proofs.Json.NumberText
import OpenApiModels.Proofs.Json.Rereading

/-!
# Documents told apart by their texts

An indented text is that of one document only, if equal texts of numbers in it come from equal
numbers (`pretty_injective`). Each value is told apart together with what follows it, since the
text of a number goes on as long as there are numerals.
-/

namespace OpenApiModels.Json

/-- What holds of a container whenever it holds of all that it contains, and of the scalars, holds
of every value. -/
@[elab_as_elim]
theorem induct {P : Json → Prop} (null : P .null) (bool : ∀ b, P (.bool b))
    (number : ∀ n, P (.number n)) (string : ∀ s, P (.string s))
    (array : ∀ items, (∀ v ∈ items, P v) → P (.array items))
    (object : ∀ members, (∀ m ∈ members, P m.2) → P (.object members)) (v : Json) : P v :=
  @Json.rec P (fun items => ∀ v ∈ items, P v) (fun members => ∀ m ∈ members, P m.2)
    (fun m => P m.2) null bool number string array object
    (fun _ h => absurd h List.not_mem_nil)
    (fun _ _ here others => List.forall_mem_cons.2 ⟨here, others⟩)
    (fun _ h => absurd h List.not_mem_nil)
    (fun _ _ here others => List.forall_mem_cons.2 ⟨here, others⟩)
    (fun _ _ here => here) v

/-- Numbers of two documents that have the same text are the same number. -/
def NumbersTold (v w : Json) : Prop :=
  ∀ m ∈ v.numbers, ∀ n ∈ w.numbers, numberText m = numberText n → m = n

theorem numbersTold (v w : Json) : NumbersTold v w :=
  fun _ _ _ _ => numberText_injective

theorem numbersTold_of_integers {v w : Json} (hv : ∀ m ∈ v.numbers, ∃ k, m = .integer k)
    (hw : ∀ n ∈ w.numbers, ∃ k, n = .integer k) : NumbersTold v w := by
  intro m hm n hn text
  obtain ⟨k, rfl⟩ := hv m hm
  obtain ⟨l, rfl⟩ := hw n hn
  exact congrArg Number.Value.integer (integerText_injective text)

/-! ### Where a value ends -/

/-- The text does not go on with a numeral. -/
def Stops (cs : List Char) : Prop :=
  cs.takeWhile isNumeral = []

theorem stops_cons {c : Char} (h : isNumeral c = false) (cs : List Char) : Stops (c :: cs) :=
  List.takeWhile_cons_of_neg (by simp [h])

theorem numberText_append_inj {m n : Number.Value} {rest rest' : List Char} (stops : Stops rest)
    (stops' : Stops rest') (h : numberText m ++ rest = numberText n ++ rest') :
    numberText m = numberText n ∧ rest = rest' := by
  have whole (n : Number.Value) {rest : List Char} (stops : Stops rest) :
      (numberText n ++ rest).takeWhile isNumeral = numberText n := by
    rw [List.takeWhile_append_of_pos fun _ hc => isNumeral_of_mem_numberText hc, stops,
      List.append_nil]
  have texts : numberText m = numberText n := by
    rw [← whole m stops, h, whole n stops']
  refine ⟨texts, ?_⟩
  rw [texts] at h
  exact List.append_cancel_left h

/-- The character that a value starts with, unless it is a number. -/
def startMark : Json → Option Char
  | .null => some 'n'
  | .bool true => some 't'
  | .bool false => some 'f'
  | .number _ => none
  | .string _ => some '"'
  | .array _ => some '['
  | .object _ => some '\x7b'

theorem exists_start (depth : Nat) (v : Json) :
    ∃ c cs, prettyAt depth v = c :: cs ∧ (if isNumeral c then none else some c) = v.startMark := by
  cases v with
  | null => exact ⟨_, _, rfl, rfl⟩
  | bool b => cases b <;> exact ⟨_, _, rfl, rfl⟩
  | number n =>
    obtain ⟨c, cs, text⟩ := List.exists_cons_of_ne_nil (numberText_ne_nil n)
    have numeral : isNumeral c = true :=
      isNumeral_of_mem_numberText (by rw [text]; exact List.mem_cons_self)
    exact ⟨c, cs, text, if_pos numeral⟩
  | string s => exact ⟨_, _, rfl, rfl⟩
  | array items => cases items <;> exact ⟨_, _, rfl, rfl⟩
  | object members => cases members <;> exact ⟨_, _, rfl, rfl⟩

theorem startMark_eq {v w : Json} {depth : Nat} {rest rest' : List Char}
    (h : prettyAt depth v ++ rest = prettyAt depth w ++ rest') : v.startMark = w.startMark := by
  obtain ⟨c, cs, text, mark⟩ := exists_start depth v
  obtain ⟨c', cs', text', mark'⟩ := exists_start depth w
  rw [text, text', List.cons_append, List.cons_append] at h
  rw [← mark, ← mark', (List.cons.inj h).1]

/-! ### Joined texts -/

theorem prettyItems_eq_intercalate (depth : Nat) (items : List Json) :
    prettyItems depth items =
      List.intercalate (',' :: lineBreak depth) (items.map (prettyAt depth)) := by
  induction items with
  | nil => rfl
  | cons v items ih =>
    cases items with
    | nil => simp [prettyItems]
    | cons w items => simp [prettyItems, ih]

/-- The text of a member behind its indentation. -/
def memberText (depth : Nat) (m : String × Json) : List Char :=
  stringText m.1 ++ ':' :: ' ' :: prettyAt depth m.2

theorem prettyMembers_eq_intercalate (depth : Nat) (members : List (String × Json)) :
    prettyMembers depth members =
      List.intercalate (',' :: lineBreak depth) (members.map (memberText depth)) := by
  induction members with
  | nil => rfl
  | cons m members ih =>
    cases members with
    | nil => simp [prettyMembers, memberText]
    | cons m' members => simp [prettyMembers, memberText, ih]

/-- If each piece is told apart together with what follows it, so are joined pieces up to a line
break. -/
theorem intercalate_inj {α : Type} {piece : α → List Char} {between : List Char} {as bs : List α}
    (told : ∀ a ∈ as, ∀ b ∈ bs, ∀ rest rest', Stops rest → Stops rest' →
      piece a ++ rest = piece b ++ rest' → a = b ∧ rest = rest')
    (some : as ≠ []) (some' : bs ≠ []) {tail tail' : List Char}
    (h : List.intercalate (',' :: between) (as.map piece) ++ '\n' :: tail =
      List.intercalate (',' :: between) (bs.map piece) ++ '\n' :: tail') :
    as = bs ∧ tail = tail' := by
  have comma (cs : List Char) : Stops (',' :: cs) := stops_cons (by decide) cs
  have line (cs : List Char) : Stops ('\n' :: cs) := stops_cons (by decide) cs
  induction as generalizing bs with
  | nil => exact absurd rfl some
  | cons a as ih =>
    cases bs with
    | nil => exact absurd rfl some'
    | cons b bs =>
      have first := told a List.mem_cons_self b List.mem_cons_self
      have others : ∀ a ∈ as, ∀ b ∈ bs, ∀ rest rest', Stops rest → Stops rest' →
          piece a ++ rest = piece b ++ rest' → a = b ∧ rest = rest' :=
        fun a ha b hb => told a (List.mem_cons_of_mem _ ha) b (List.mem_cons_of_mem _ hb)
      -- Behind a piece, the comma or the line break says whether another one follows.
      cases as with
      | nil =>
        cases bs with
        | nil =>
          simp only [List.map_cons, List.map_nil, List.intercalate_singleton] at h
          obtain ⟨rfl, same⟩ := first _ _ (line _) (line _) h
          exact ⟨rfl, (List.cons.inj same).2⟩
        | cons b' bs =>
          simp only [List.map_cons, List.map_nil, List.intercalate_singleton,
            List.intercalate_cons_cons, List.append_assoc, List.cons_append] at h
          have behind := (first _ _ (line _) (comma _) h).2
          cases (List.cons.inj behind).1
      | cons a' as =>
        cases bs with
        | nil =>
          simp only [List.map_cons, List.map_nil, List.intercalate_singleton,
            List.intercalate_cons_cons, List.append_assoc, List.cons_append] at h
          have behind := (first _ _ (comma _) (line _) h).2
          cases (List.cons.inj behind).1
        | cons b' bs =>
          simp only [List.map_cons, List.intercalate_cons_cons, List.append_assoc,
            List.cons_append] at h ih
          obtain ⟨rfl, behind⟩ := first _ _ (comma _) (comma _) h
          have behind := List.append_cancel_left (List.cons.inj behind).2
          obtain ⟨same, tails⟩ := ih others (List.cons_ne_nil _ _) (List.cons_ne_nil _ _) behind
          exact ⟨congrArg (a :: ·) same, tails⟩

/-- Pieces on lines of their own between brackets, or the brackets alone. -/
def bracketed (opening closing : Char) (depth : Nat) : List (List Char) → List Char
  | [] => [opening, closing]
  | piece :: pieces => opening :: lineBreak (depth + 1) ++
      List.intercalate (',' :: lineBreak (depth + 1)) (piece :: pieces) ++ lineBreak depth ++
        [closing]

theorem prettyAt_array (depth : Nat) (items : List Json) :
    prettyAt depth (.array items) = bracketed '[' ']' depth (items.map (prettyAt (depth + 1))) := by
  cases items with
  | nil => rfl
  | cons v items => rw [prettyAt, prettyItems_eq_intercalate, List.map_cons, bracketed]

theorem prettyAt_object (depth : Nat) (members : List (String × Json)) :
    prettyAt depth (.object members) =
      bracketed '\x7b' '\x7d' depth (members.map (memberText (depth + 1))) := by
  cases members with
  | nil => rfl
  | cons m members => rw [prettyAt, prettyMembers_eq_intercalate, List.map_cons, bracketed]

theorem bracketed_inj {α : Type} {piece : α → List Char} {opening closing : Char} {depth : Nat}
    {as bs : List α}
    (told : ∀ a ∈ as, ∀ b ∈ bs, ∀ rest rest', Stops rest → Stops rest' →
      piece a ++ rest = piece b ++ rest' → a = b ∧ rest = rest')
    (closes : closing ≠ '\n') {rest rest' : List Char}
    (h : bracketed opening closing depth (as.map piece) ++ rest =
      bracketed opening closing depth (bs.map piece) ++ rest') : as = bs ∧ rest = rest' := by
  cases as with
  | nil =>
    cases bs with
    | nil => exact ⟨rfl, List.append_cancel_left h⟩
    | cons b bs =>
      have second := (List.cons.inj (List.cons.inj h).2).1
      exact absurd second closes
  | cons a as =>
    cases bs with
    | nil =>
      have second := (List.cons.inj (List.cons.inj h).2).1
      exact absurd second.symm closes
    | cons b bs =>
      have inside : List.intercalate (',' :: lineBreak (depth + 1)) ((a :: as).map piece) ++
            '\n' :: (List.replicate (2 * depth) ' ' ++ closing :: rest) =
          List.intercalate (',' :: lineBreak (depth + 1)) ((b :: bs).map piece) ++
            '\n' :: (List.replicate (2 * depth) ' ' ++ closing :: rest') := by
        simpa [bracketed, lineBreak] using h
      obtain ⟨same, behind⟩ :=
        intercalate_inj told (List.cons_ne_nil a as) (List.cons_ne_nil b bs) inside
      exact ⟨same, (List.cons.inj (List.append_cancel_left behind)).2⟩

/-! ### Values -/

/-- The value is told apart together with what follows it. -/
def Told (v : Json) : Prop :=
  ∀ w depth rest rest', NumbersTold v w → Stops rest → Stops rest' →
    prettyAt depth v ++ rest = prettyAt depth w ++ rest' → v = w ∧ rest = rest'

theorem told_array {items : List Json} (h : ∀ v ∈ items, v.Told) : Told (.array items) := by
  intro w depth rest rest' numbers stops stops' text
  have mark := startMark_eq text
  cases w with
  | array items' =>
    rw [prettyAt_array, prettyAt_array] at text
    have each : ∀ v ∈ items, ∀ w ∈ items', ∀ rest rest', Stops rest → Stops rest' →
        prettyAt (depth + 1) v ++ rest = prettyAt (depth + 1) w ++ rest' → v = w ∧ rest = rest' :=
      fun v hv w hw rest rest' => h v hv w (depth + 1) rest rest' fun m hm n hn =>
        numbers m (mem_numbers_array.2 ⟨v, hv, hm⟩) n (mem_numbers_array.2 ⟨w, hw, hn⟩)
    obtain ⟨same, behind⟩ := bracketed_inj each (by decide) text
    exact ⟨congrArg array same, behind⟩
  | bool b => cases b <;> cases mark
  | null | number | string | object => cases mark

theorem told_object {members : List (String × Json)} (h : ∀ m ∈ members, m.2.Told) :
    Told (.object members) := by
  intro w depth rest rest' numbers stops stops' text
  have mark := startMark_eq text
  cases w with
  | object members' =>
    rw [prettyAt_object, prettyAt_object] at text
    have each : ∀ m ∈ members, ∀ m' ∈ members', ∀ rest rest', Stops rest → Stops rest' →
        memberText (depth + 1) m ++ rest = memberText (depth + 1) m' ++ rest' →
          m = m' ∧ rest = rest' := by
      intro m hm m' hm' rest rest' stops stops' text
      simp only [memberText, List.append_assoc, List.cons_append] at text
      obtain ⟨keys, behind⟩ := stringText_append_inj text
      have told : NumbersTold m.2 m'.2 := fun n hn n' hn' =>
        numbers n (mem_numbers_object.2 ⟨m, hm, hn⟩) n' (mem_numbers_object.2 ⟨m', hm', hn'⟩)
      obtain ⟨values, rests⟩ := h m hm m'.2 (depth + 1) rest rest' told stops stops'
        (List.cons.inj (List.cons.inj behind).2).2
      exact ⟨Prod.ext keys values, rests⟩
    obtain ⟨same, behind⟩ := bracketed_inj each (by decide) text
    exact ⟨congrArg object same, behind⟩
  | bool b => cases b <;> cases mark
  | null | number | string | array => cases mark

theorem told (v : Json) : v.Told := by
  induction v using induct with
  | null =>
    intro w depth rest rest' _ _ _ text
    have mark := startMark_eq text
    cases w with
    | null => exact ⟨rfl, List.append_cancel_left text⟩
    | bool b => cases b <;> cases mark
    | number | string | array | object => cases mark
  | bool b =>
    intro w depth rest rest' _ _ _ text
    have mark := startMark_eq text
    cases w with
    | bool b' =>
      obtain rfl : b = b' := by cases b <;> cases b' <;> first | rfl | cases mark
      exact ⟨rfl, List.append_cancel_left text⟩
    | null | number | string | array | object => cases b <;> cases mark
  | number n =>
    intro w depth rest rest' numbers stops stops' text
    have mark := startMark_eq text
    cases w with
    | number n' =>
      obtain ⟨texts, behind⟩ := numberText_append_inj stops stops' text
      exact ⟨congrArg number (numbers n List.mem_cons_self n' List.mem_cons_self texts), behind⟩
    | bool b => cases b <;> cases mark
    | null | string | array | object => cases mark
  | string s =>
    intro w depth rest rest' _ _ _ text
    have mark := startMark_eq text
    cases w with
    | string s' =>
      obtain ⟨same, behind⟩ := stringText_append_inj text
      exact ⟨congrArg string same, behind⟩
    | bool b => cases b <;> cases mark
    | null | number | array | object => cases mark
  | array items h => exact told_array h
  | object members h => exact told_object h

theorem pretty_injective {v w : Json} (numbers : NumbersTold v w) (h : pretty v = pretty w) :
    v = w := by
  have text : prettyAt 0 v ++ [] = prettyAt 0 w ++ [] := by
    rw [List.append_nil, List.append_nil]
    exact String.ofList_injective h
  exact (told v w 0 [] [] numbers rfl rfl text).1

end OpenApiModels.Json
