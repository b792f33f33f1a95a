import OpenApiModels.Proofs.Json.NumberText
import OpenApiModels.Proofs.Json.StringText
import OpenApiModels.Proofs.Keyed

/-!
# Reading indented texts

The reader takes the indented text of a document for the document (`read?_pretty`). Of numbers it
is assumed that they are read back one by one; keys must not repeat and containers not nest too
deep, as in every document that was read. One lemma for each kind of value says what is read for it
when its parts may be read for others.
-/

namespace OpenApiModels.Json

/-! ### Readers without their bounds -/

/-- What a reader yields, without the bound on what is left. -/
def forget {α : Type} {cs : List Char} (x : Option (α × Rest cs)) : Option (α × List Char) :=
  x.map fun r => (r.1, r.2.1)

@[simp] theorem forget_some {α : Type} {cs : List Char} (v : α) (r : Rest cs) :
    forget (some (v, r)) = some (v, r.1) := rfl

theorem forget_eq_some {α : Type} {cs rest : List Char} {x : Option (α × Rest cs)} {v : α}
    (h : forget x = some (v, rest)) : ∃ r : Rest cs, x = some (v, r) ∧ r.1 = rest := by
  simp only [forget, Option.map_eq_some_iff] at h
  obtain ⟨⟨v', r⟩, rfl, eq⟩ := h
  cases eq
  exact ⟨r, rfl, rfl⟩

theorem skipBlanks_cons {c : Char} (h : isJsonBlank c = false) (cs : List Char) :
    skipBlanks (c :: cs) = c :: cs := by
  simp [skipBlanks, h]

def Blank (cs : List Char) : Prop :=
  ∀ c ∈ cs, isJsonBlank c = true

theorem blank_lineBreak (depth : Nat) : Blank (lineBreak depth) := by
  intro c hc
  rcases List.mem_cons.1 hc with rfl | hc
  · rfl
  · rw [List.eq_of_mem_replicate hc]
    rfl

theorem skipBlanks_append {lead : List Char} (h : Blank lead) (cs : List Char) :
    skipBlanks (lead ++ cs) = skipBlanks cs :=
  List.dropWhile_append_of_pos h

/-! ### Steps of the reader -/

section Steps

variable {α : Type} {close : Char} {item : (cs : List Char) → Option (α × Rest cs)}
variable {cs r r' rest : List Char} {v : α} {vs : List α}

theorem readSeparated_last (read : forget (item cs) = some (v, r))
    (closed : skipBlanks r = close :: rest) :
    forget (readSeparated close item cs) = some ([v], rest) := by
  obtain ⟨r, found, rfl⟩ := forget_eq_some read
  rw [readSeparated, found]
  dsimp only
  split
  · rename_i none
    rw [none] at closed
    cases closed
  · rename_i c r' next
    obtain ⟨rfl, rfl⟩ := List.cons.inj (next.symm.trans closed)
    rw [if_pos rfl, forget_some]

theorem readSeparated_comma (read : forget (item cs) = some (v, r))
    (comma : skipBlanks r = ',' :: r') (open_ : close ≠ ',')
    (more : forget (readSeparated close item r') = some (vs, rest)) :
    forget (readSeparated close item cs) = some (v :: vs, rest) := by
  obtain ⟨r, found, rfl⟩ := forget_eq_some read
  rw [readSeparated, found]
  dsimp only
  split
  · rename_i none
    rw [none] at comma
    cases comma
  · rename_i c r₂ next
    obtain ⟨rfl, rfl⟩ := List.cons.inj (next.symm.trans comma)
    obtain ⟨end_, found, rfl⟩ := forget_eq_some more
    rw [if_neg open_.symm, if_pos rfl, found]
    rfl

theorem readItems_empty (closed : skipBlanks cs = close :: rest) :
    forget (readItems close item cs) = some ([], rest) := by
  unfold readItems
  split
  · rename_i none
    rw [none] at closed
    cases closed
  · rename_i c r next
    obtain ⟨rfl, rfl⟩ := List.cons.inj (next.symm.trans closed)
    rw [if_pos rfl, forget_some]

theorem readItems_cons {c : Char} (start : skipBlanks cs = c :: rest) (ne : c ≠ close) :
    readItems close item cs = readSeparated close item cs := by
  unfold readItems
  split
  · rename_i none
    rw [none] at start
    cases start
  · rename_i d r next
    obtain ⟨rfl, rfl⟩ := List.cons.inj (next.symm.trans start)
    rw [if_neg ne]

end Steps

theorem readMember_eq {value : (cs : List Char) → Option (Json × Rest cs)} {key : String}
    {v : Json} {cs r r₁ r₂ rest : List Char} (quote : skipBlanks cs = '"' :: r)
    (body : readBody r = some (key.toList, r₁)) (colon : skipBlanks r₁ = ':' :: r₂)
    (read : forget (value r₂) = some (v, rest)) :
    forget (readMember value cs) = some ((key, v), rest) := by
  have body : forget (readStringBody r) = some (key.toList, r₁) := body
  obtain ⟨r₁, found, rfl⟩ := forget_eq_some body
  obtain ⟨end_, ended, rfl⟩ := forget_eq_some read
  unfold readMember
  split
  · rename_i r' next
    obtain rfl := (List.cons.inj (next.symm.trans quote)).2
    rw [found]
    dsimp only
    split
    · rename_i r₂' next'
      obtain rfl := (List.cons.inj (next'.symm.trans colon)).2
      rw [ended]
      simp [Rest.widen]
    · rename_i other
      exact absurd colon (other _)
  · rename_i other
    exact absurd quote (other _)

/-! ### What starts a value -/

section Starts

variable {container : Option ((cs : List Char) → Option (Json × Rest cs))}
variable {value : (cs : List Char) → Option (Json × Rest cs)}
variable {cs rest : List Char}

theorem readStart_string {s : String} (h : readBody cs = some (s.toList, rest)) :
    forget (readStart container ('"' :: cs)) = some (.string s, rest) := by
  have body : forget (readStringBody cs) = some (s.toList, rest) := h
  obtain ⟨r, found, rfl⟩ := forget_eq_some body
  simp [readStart, found, Rest.widen]

theorem readStart_array {items : List Json}
    (h : forget (readItems ']' value cs) = some (items, rest)) :
    forget (readStart (some value) ('[' :: cs)) = some (.array items, rest) := by
  obtain ⟨r, found, rfl⟩ := forget_eq_some h
  simp [readStart, found, Rest.widen]

theorem readStart_object {ms : List (String × Json)}
    (h : forget (readItems '\x7d' (readMember value) cs) = some (ms, rest))
    (distinct : (ms.map (·.1)).Nodup) :
    forget (readStart (some value) ('\x7b' :: cs)) = some (.object ms, rest) := by
  obtain ⟨r, found, rfl⟩ := forget_eq_some h
  simp [readStart, found, Rest.widen, Keyed.mergeRepeated_of_nodup distinct]

theorem readStart_null :
    forget (readStart container ("null".toList ++ rest)) = some (.null, rest) := rfl

theorem readStart_bool (b : Bool) :
    forget (readStart container (boolText b ++ rest)) = some (.bool b, rest) := by
  cases b <;> rfl

/-- The first character of a number. -/
def startsNumber (c : Char) : Bool :=
  c == '-' || c.isDigit

theorem readStart_number {c : Char} {n : Number.Value} (hc : startsNumber c = true)
    (read : forget (readNumber (c :: cs)) = some (n, rest)) :
    forget (readStart container (c :: cs)) = some (.number n, rest) := by
  have ne {d : Char} (hd : startsNumber d = false) : c ≠ d := by
    rintro rfl
    rw [hc] at hd
    cases hd
  obtain ⟨r, found, rfl⟩ := forget_eq_some read
  simp only [readStart, ne (d := '"') rfl, ne (d := '[') rfl, ne (d := '\x7b') rfl,
    ne (d := 'n') rfl, ne (d := 't') rfl, ne (d := 'f') rfl, if_false, found]
  rfl

end Starts

/-! ### Readable documents -/

/-- A number ends where a text goes on like this. -/
def endsNumber : List Char → Bool
  | [] => true
  | c :: _ => !(c.isDigit || c == '.' || c == 'e' || c == 'E')

/-- A number is read back from its text. -/
structure Rereads (n : Number.Value) : Prop where
  start : ∃ c cs, numberText n = c :: cs ∧ startsNumber c = true
  read : ∀ rest, endsNumber rest = true →
    forget (readNumber (numberText n ++ rest)) = some (n, rest)

mutual

/-- A document whose numbers are read back, without repeated keys and in which containers nest at
most `depth` deep. -/
def Readable (depth : Nat) : Json → Prop
  | .null | .bool _ | .string _ => True
  | .number n => Rereads n
  | .array items => 0 < depth ∧ ReadableItems (depth - 1) items
  | .object members => 0 < depth ∧ (members.map (·.1)).Nodup ∧ ReadableMembers (depth - 1) members

def ReadableItems (depth : Nat) : List Json → Prop
  | [] => True
  | v :: rest => Readable depth v ∧ ReadableItems depth rest

def ReadableMembers (depth : Nat) : List (String × Json) → Prop
  | [] => True
  | m :: rest => Readable depth m.2 ∧ ReadableMembers depth rest

end

/-- The number is read from its text for the other one. -/
structure RereadsAs (n m : Number.Value) : Prop where
  start : ∃ c cs, numberText n = c :: cs ∧ startsNumber c = true
  read : ∀ rest, endsNumber rest = true →
    forget (readNumber (numberText n ++ rest)) = some (m, rest)

theorem Rereads.rereadsAs {n : Number.Value} (h : Rereads n) : RereadsAs n n :=
  ⟨h.start, h.read⟩

/-- A value starts with what is neither blank nor a closing bracket. -/
theorem prettyAt_eq_cons (indent : Nat) (v : Json) :
    ∃ c cs, prettyAt indent v = c :: cs ∧ isJsonBlank c = false ∧ c ≠ ']' := by
  cases v with
  | null => exact ⟨_, _, rfl, rfl, by decide⟩
  | bool b => cases b <;> exact ⟨_, _, rfl, rfl, by decide⟩
  | number n =>
    obtain ⟨c, cs, text⟩ := List.exists_cons_of_ne_nil (numberText_ne_nil n)
    have numeral : isNumeral c = true := isNumeral_of_mem_numberText (text ▸ List.mem_cons_self)
    refine ⟨c, cs, text, ?_, ?_⟩
    · cases blank : isJsonBlank c with
      | false => rfl
      | true =>
        simp only [isJsonBlank, Bool.or_eq_true, beq_iff_eq] at blank
        rcases blank with ((rfl | rfl) | rfl) | rfl <;> cases numeral
    · rintro rfl
      cases numeral
  | string s => exact ⟨_, _, rfl, rfl, by decide⟩
  | array items => cases items <;> exact ⟨_, _, rfl, rfl, by decide⟩
  | object members => cases members <;> exact ⟨_, _, rfl, rfl, by decide⟩

/-- The text of a value is read for the other one, whatever blanks stand before it. -/
def Reads (value : (cs : List Char) → Option (Json × Rest cs)) (indent : Nat) (v w : Json) : Prop :=
  ∀ lead rest, Blank lead → endsNumber rest = true →
    forget (value (lead ++ (prettyAt indent v ++ rest))) = some (w, rest)

theorem stringText_append (s : String) (tail : List Char) :
    stringText s ++ tail = '"' :: (s.toList.flatMap escapeChar ++ '"' :: tail) := by
  simp [stringText]

theorem prettyItems_cons_append (indent : Nat) (v w : Json) (items : List Json)
    (tail : List Char) :
    prettyItems indent (v :: w :: items) ++ tail =
      prettyAt indent v ++ ',' :: (lineBreak indent ++
        (prettyItems indent (w :: items) ++ tail)) := by
  simp [prettyItems]

theorem prettyMembers_singleton_append (indent : Nat) (k : String) (v : Json)
    (tail : List Char) :
    prettyMembers indent [(k, v)] ++ tail =
      stringText k ++ ':' :: ' ' :: (prettyAt indent v ++ tail) := by
  simp [prettyMembers]

theorem prettyMembers_cons_append (indent : Nat) (k : String) (v : Json) (w : String × Json)
    (members : List (String × Json)) (tail : List Char) :
    prettyMembers indent ((k, v) :: w :: members) ++ tail =
      stringText k ++ ':' :: ' ' :: (prettyAt indent v ++ ',' :: (lineBreak indent ++
        (prettyMembers indent (w :: members) ++ tail))) := by
  simp [prettyMembers]

theorem prettyAt_array_append (indent : Nat) (v : Json) (items : List Json) (rest : List Char) :
    prettyAt indent (.array (v :: items)) ++ rest =
      '[' :: (lineBreak (indent + 1) ++ (prettyItems (indent + 1) (v :: items) ++
        (lineBreak indent ++ ']' :: rest))) := by
  simp [prettyAt]

theorem prettyAt_object_append (indent : Nat) (m : String × Json)
    (members : List (String × Json)) (rest : List Char) :
    prettyAt indent (.object (m :: members)) ++ rest =
      '\x7b' :: (lineBreak (indent + 1) ++ (prettyMembers (indent + 1) (m :: members) ++
        (lineBreak indent ++ '\x7d' :: rest))) := by
  simp [prettyAt]

theorem prettyItems_eq_append (indent : Nat) (v : Json) (items : List Json) :
    ∃ tail, prettyItems indent (v :: items) = prettyAt indent v ++ tail := by
  cases items with
  | nil => exact ⟨[], (List.append_nil _).symm⟩
  | cons w items => exact ⟨_, List.append_assoc ..⟩

theorem prettyMembers_eq_cons (indent : Nat) (m : String × Json)
    (members : List (String × Json)) :
    ∃ tail, prettyMembers indent (m :: members) = '"' :: tail := by
  cases members <;> exact ⟨_, rfl⟩

section Containers

variable {value : (cs : List Char) → Option (Json × Rest cs)} {indent d : Nat} {g : Json → Json}

theorem readSeparated_prettyItems {v : Json} {items : List Json}
    (h : ∀ w ∈ v :: items, Reads value indent w (g w)) {lead : List Char} (blank : Blank lead)
    (rest : List Char) :
    forget (readSeparated ']' value (lead ++ (prettyItems indent (v :: items) ++
      (lineBreak d ++ ']' :: rest)))) = some ((v :: items).map g, rest) := by
  induction items generalizing v lead with
  | nil =>
    refine readSeparated_last (h v List.mem_cons_self lead _ blank rfl) ?_
    rw [skipBlanks_append (blank_lineBreak d)]
    rfl
  | cons w items ih =>
    have tail := ih (fun u hu => h u (List.mem_cons_of_mem _ hu)) (blank_lineBreak indent)
    rw [prettyItems_cons_append]
    exact readSeparated_comma (h v List.mem_cons_self lead (',' :: _) blank rfl) rfl (by decide)
      tail

theorem readMember_pretty {k : String} {v w : Json} (h : Reads value indent v w)
    {lead : List Char} (blank : Blank lead) (rest : List Char) (ends : endsNumber rest = true) :
    forget (readMember value (lead ++
      (stringText k ++ ':' :: ' ' :: (prettyAt indent v ++ rest)))) = some ((k, w), rest) := by
  have space : Blank [' '] := by
    intro c hc
    rw [List.mem_singleton.1 hc]
    rfl
  have quote := skipBlanks_append blank
    (stringText k ++ ':' :: ' ' :: (prettyAt indent v ++ rest))
  rw [stringText_append] at quote ⊢
  exact readMember_eq quote (readBody_flatMap_escapeChar k.toList _) rfl (h [' '] rest space ends)

theorem readSeparated_prettyMembers {k : String} {v : Json} {members : List (String × Json)}
    (h : ∀ w ∈ (k, v) :: members, Reads value indent w.2 (g w.2)) {lead : List Char}
    (blank : Blank lead) (rest : List Char) :
    forget (readSeparated '\x7d' (readMember value) (lead ++
      (prettyMembers indent ((k, v) :: members) ++ (lineBreak d ++ '\x7d' :: rest)))) =
        some (((k, v) :: members).map fun m => (m.1, g m.2), rest) := by
  have head : Reads value indent v (g v) := h (k, v) List.mem_cons_self
  induction members generalizing k v lead with
  | nil =>
    rw [prettyMembers_singleton_append]
    refine readSeparated_last (readMember_pretty head blank _ rfl) ?_
    rw [skipBlanks_append (blank_lineBreak d)]
    rfl
  | cons w members ih =>
    have tail := ih (fun u hu => h u (List.mem_cons_of_mem _ hu)) (blank_lineBreak indent)
      (h w (List.mem_cons_of_mem _ List.mem_cons_self))
    rw [prettyMembers_cons_append]
    refine readSeparated_comma (readMember_pretty head blank (',' :: _) rfl) ?_ (by decide)
      tail
    exact skipBlanks_cons rfl _

end Containers

/-! ### Values -/

/-- The reader of values inside of containers. -/
def inner : Nat → Option ((cs : List Char) → Option (Json × Rest cs))
  | 0 => none
  | depth + 1 => some (readValue depth)

theorem forget_readValue (depth : Nat) (cs : List Char) :
    forget (readValue depth cs) = forget (readStart (inner depth) (skipBlanks cs)) := by
  cases depth <;> simp only [readValue, forget, Option.map_map] <;> rfl

section Values

variable {depth indent : Nat} {v w : Json}

theorem reads_of_readStart
    (h : ∀ rest, endsNumber rest = true →
      forget (readStart (inner depth) (prettyAt indent v ++ rest)) = some (w, rest)) :
    Reads (readValue depth) indent v w := by
  intro lead rest blank ends
  obtain ⟨c, cs, text, notBlank, -⟩ := prettyAt_eq_cons indent v
  have skipped : skipBlanks (prettyAt indent v ++ rest) = prettyAt indent v ++ rest := by
    rw [text, List.cons_append, skipBlanks_cons notBlank]
  rw [forget_readValue, skipBlanks_append blank, skipped]
  exact h rest ends

theorem reads_null : Reads (readValue depth) indent .null .null :=
  reads_of_readStart fun _ _ => readStart_null

theorem reads_bool (b : Bool) : Reads (readValue depth) indent (.bool b) (.bool b) :=
  reads_of_readStart fun _ _ => readStart_bool b

theorem reads_number {n m : Number.Value} (h : RereadsAs n m) :
    Reads (readValue depth) indent (.number n) (.number m) := by
  refine reads_of_readStart fun rest ends => ?_
  obtain ⟨c, cs, text, start⟩ := h.start
  have read := h.read rest ends
  rw [text, List.cons_append] at read
  rw [prettyAt, text, List.cons_append, readStart_number start read]

theorem reads_string (s : String) : Reads (readValue depth) indent (.string s) (.string s) := by
  refine reads_of_readStart fun rest _ => ?_
  rw [prettyAt, stringText_append]
  exact readStart_string (readBody_flatMap_escapeChar s.toList rest)

theorem reads_array {items : List Json} {g : Json → Json}
    (h : ∀ v ∈ items, Reads (readValue depth) (indent + 1) v (g v)) :
    Reads (readValue (depth + 1)) indent (.array items) (.array (items.map g)) := by
  refine reads_of_readStart fun rest _ => ?_
  cases items with
  | nil => exact readStart_array (readItems_empty (skipBlanks_cons rfl rest))
  | cons v items =>
    have read := readSeparated_prettyItems (d := indent) h (blank_lineBreak (indent + 1)) rest
    obtain ⟨c, cs, start, notBlank, notClose⟩ := prettyAt_eq_cons (indent + 1) v
    obtain ⟨tail, items_eq⟩ := prettyItems_eq_append (indent + 1) v items
    have next : skipBlanks (lineBreak (indent + 1) ++ (prettyItems (indent + 1) (v :: items) ++
        (lineBreak indent ++ ']' :: rest))) = c :: (cs ++ tail ++
          (lineBreak indent ++ ']' :: rest)) := by
      rw [skipBlanks_append (blank_lineBreak _), items_eq, start]
      exact skipBlanks_cons notBlank _
    rw [prettyAt_array_append]
    refine readStart_array ?_
    rwa [readItems_cons next notClose]

theorem reads_object {members : List (String × Json)} {g : Json → Json}
    (distinct : (members.map (·.1)).Nodup)
    (h : ∀ m ∈ members, Reads (readValue depth) (indent + 1) m.2 (g m.2)) :
    Reads (readValue (depth + 1)) indent (.object members)
      (.object (members.map fun m => (m.1, g m.2))) := by
  have keys : ((members.map fun m => (m.1, g m.2)).map (·.1)).Nodup := by
    rw [List.map_map]
    exact distinct
  refine reads_of_readStart fun rest _ => ?_
  cases members with
  | nil => exact readStart_object (readItems_empty (skipBlanks_cons rfl rest)) List.nodup_nil
  | cons m members =>
    obtain ⟨k, v⟩ := m
    have read := readSeparated_prettyMembers (d := indent) h (blank_lineBreak (indent + 1)) rest
    obtain ⟨tail, members_eq⟩ := prettyMembers_eq_cons (indent + 1) (k, v) members
    have next : skipBlanks (lineBreak (indent + 1) ++
        (prettyMembers (indent + 1) ((k, v) :: members) ++
          (lineBreak indent ++ '\x7d' :: rest))) =
        '"' :: (tail ++ (lineBreak indent ++ '\x7d' :: rest)) := by
      rw [skipBlanks_append (blank_lineBreak _), members_eq]
      rfl
    rw [prettyAt_object_append]
    refine readStart_object ?_ keys
    rwa [readItems_cons next (by decide)]

end Values

theorem readableItems_iff {depth : Nat} {items : List Json} :
    ReadableItems depth items ↔ ∀ v ∈ items, Readable depth v := by
  induction items with
  | nil => simp [ReadableItems]
  | cons v items ih => simp [ReadableItems, ih]

theorem readableMembers_iff {depth : Nat} {members : List (String × Json)} :
    ReadableMembers depth members ↔ ∀ m ∈ members, Readable depth m.2 := by
  induction members with
  | nil => simp [ReadableMembers]
  | cons m members ih => simp only [ReadableMembers, ih, List.forall_mem_cons]

theorem reads_pretty {depth : Nat} {v : Json} (h : Readable depth v) (indent : Nat) :
    Reads (readValue depth) indent v v := by
  -- Only containers use up depth, so the induction is on it and not on the document.
  induction depth using Nat.strongRecOn generalizing v indent with
  | _ depth ih =>
    cases v with
    | null => exact reads_null
    | bool b => exact reads_bool b
    | number n => exact reads_number (Rereads.rereadsAs h)
    | string s => exact reads_string s
    | array items =>
      obtain ⟨below, rfl⟩ := Nat.exists_eq_succ_of_ne_zero h.1.ne'
      have read : Reads (readValue (below + 1)) indent (.array items) (.array (items.map id)) :=
        reads_array fun v hv =>
          ih below (Nat.lt_succ_self _) (readableItems_iff.1 h.2 v hv) (indent + 1)
      rwa [List.map_id] at read
    | object members =>
      obtain ⟨below, rfl⟩ := Nat.exists_eq_succ_of_ne_zero h.1.ne'
      have read : Reads (readValue (below + 1)) indent (.object members)
          (.object (members.map id)) :=
        reads_object (g := id) h.2.1 fun m hm =>
          ih below (Nat.lt_succ_self _) (readableMembers_iff.1 h.2.2 m hm) (indent + 1)
      rwa [List.map_id] at read

theorem read?_of_readValue {text : String} {v : Json} {tail : List Char}
    (read : forget (readValue maxDepth text.toList) = some (v, tail)) (blank : Blank tail) :
    read? text = some v := by
  obtain ⟨r, found, rfl⟩ := forget_eq_some read
  have skipped : skipBlanks r.1 = [] := by
    have all := skipBlanks_append blank []
    rwa [List.append_nil] at all
  simp only [read?, found, skipped, List.isEmpty_nil, if_true]

/-- Blanks behind the indented text of a document do not matter. -/
theorem read?_of_reads {v w : Json} (h : Reads (readValue maxDepth) 0 v w) {tail : List Char}
    (blank : Blank tail) : read? (String.ofList (prettyAt 0 v ++ tail)) = some w := by
  have ends : endsNumber tail = true := by
    cases tail with
    | nil => rfl
    | cons c tail =>
      have hc := blank c List.mem_cons_self
      simp only [isJsonBlank, Bool.or_eq_true, beq_iff_eq] at hc
      rcases hc with ((rfl | rfl) | rfl) | rfl <;> rfl
  refine read?_of_readValue ?_ blank
  rw [String.toList_ofList]
  exact h [] tail (fun _ h => nomatch h) ends

/-- A readable document is read back from its indented text. -/
theorem read?_pretty {v : Json} (h : Readable maxDepth v) {tail : List Char} (blank : Blank tail) :
    read? (String.ofList (prettyAt 0 v ++ tail)) = some v :=
  read?_of_reads (reads_pretty h 0) blank

end OpenApiModels.Json
