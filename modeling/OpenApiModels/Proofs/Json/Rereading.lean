import OpenApiModels.Proofs.Json.RoundTrip

/-!
# Documents that were read

What the reader yields nests no deeper than it allows and repeats no key. With its numbers read
back, such a document is `Readable`.
-/

namespace OpenApiModels.Json

mutual

/-- The numbers of a document. -/
def numbers : Json → List Number.Value
  | .number n => [n]
  | .array items => numbersItems items
  | .object members => numbersMembers members
  | _ => []

def numbersItems : List Json → List Number.Value
  | [] => []
  | v :: rest => numbers v ++ numbersItems rest

def numbersMembers : List (String × Json) → List Number.Value
  | [] => []
  | m :: rest => numbers m.2 ++ numbersMembers rest

end

/-- The numbers of a document are read back. -/
def NumbersReread (v : Json) : Prop :=
  ∀ n ∈ v.numbers, Rereads n

theorem mem_numbers_array {n : Number.Value} {items : List Json} :
    n ∈ (Json.array items).numbers ↔ ∃ v ∈ items, n ∈ v.numbers := by
  change n ∈ numbersItems items ↔ _
  induction items with
  | nil => simp [numbersItems]
  | cons v items ih => simp [numbersItems, ih]

theorem mem_numbers_object {n : Number.Value} {members : List (String × Json)} :
    n ∈ (Json.object members).numbers ↔ ∃ m ∈ members, n ∈ m.2.numbers := by
  change n ∈ numbersMembers members ↔ _
  induction members with
  | nil => simp [numbersMembers]
  | cons m members ih => simp [numbersMembers, ih, -Prod.exists]

/-! ### Where items come from -/

section Items

variable {α : Type} {close : Char} {item : (cs : List Char) → Option (α × Rest cs)}

/-- The reader of items can yield the item. -/
def Yields (item : (cs : List Char) → Option (α × Rest cs)) (v : α) : Prop :=
  ∃ cs rest, item cs = some (v, rest)

theorem yields_of_readSeparated {cs : List Char} {vs : List α} {rest : Rest cs}
    (h : readSeparated close item cs = some (vs, rest)) : ∀ v ∈ vs, Yields item v := by
  induction hn : cs.length using Nat.strongRecOn generalizing cs vs with
  | _ n ih =>
    rw [readSeparated] at h
    split at h
    · cases h
    · rename_i v r first
      have found : Yields item v := ⟨cs, r, first⟩
      split at h
      · cases h
      · rename_i c r' next
        split at h
        · obtain rfl := (Prod.mk.inj (Option.some.inj h)).1
          intro w hw
          rw [List.mem_singleton.1 hw]
          exact found
        split at h
        · split at h
          · cases h
          · rename_i ws rest' more
            obtain rfl := (Prod.mk.inj (Option.some.inj h)).1
            have shorter : r'.length < n := by
              have skipped := length_skipBlanks_le r.1
              have left := r.2
              rw [next, List.length_cons] at skipped
              omega
            intro w hw
            rcases List.mem_cons.1 hw with rfl | hw
            · exact found
            · exact ih _ shorter more rfl w hw
        · cases h

theorem yields_of_readItems {cs : List Char} {vs : List α} {rest : Rest cs}
    (h : readItems close item cs = some (vs, rest)) : ∀ v ∈ vs, Yields item v := by
  unfold readItems at h
  split at h
  · cases h
  · split at h
    · obtain rfl := (Prod.mk.inj (Option.some.inj h)).1
      exact fun v hv => absurd hv List.not_mem_nil
    · exact yields_of_readSeparated h

theorem yields_of_readMember {value : (cs : List Char) → Option (Json × Rest cs)}
    {m : String × Json} (h : Yields (readMember value) m) : Yields value m.2 := by
  obtain ⟨cs, rest, h⟩ := h
  unfold readMember at h
  split at h
  · split at h
    · cases h
    split at h
    · split at h
      · cases h
      · rename_i read
        obtain rfl := (Prod.mk.inj (Option.some.inj h)).1
        exact ⟨_, _, read⟩
    · cases h
  · cases h

end Items

theorem mem_mergeRepeated {entries : List (String × Json)} {m : String × Json}
    (h : m ∈ Keyed.mergeRepeated entries) : ∃ e ∈ entries, e.2 = m.2 := by
  suffices ∀ acc : List (String × Json),
      m ∈ entries.foldl (fun acc e => Keyed.put e.1 e.2 acc) acc →
        m ∈ acc ∨ ∃ e ∈ entries, e.2 = m.2 from
    (this [] h).resolve_left List.not_mem_nil
  clear h
  induction entries with
  | nil => exact fun acc h => .inl h
  | cons e entries ih =>
    intro acc h
    rw [List.foldl_cons] at h
    rcases ih _ h with h | ⟨e', he', same⟩
    · rcases Keyed.mem_put h with same | old
      · exact .inr ⟨e, List.mem_cons_self, same.symm⟩
      · exact .inl old
    · exact .inr ⟨e', List.mem_cons_of_mem _ he', same⟩

/-! ### Cases -/

theorem eq_of_readWord {word : List Char} {hword : word ≠ []} {v v' : Json} {cs : List Char}
    {rest : Rest cs} (h : readWord word hword v cs = some (v', rest)) : v' = v := by
  unfold readWord at h
  split at h
  · exact (Prod.mk.inj (Option.some.inj h)).1.symm
  · cases h

theorem readable_of_scalar {depth : Nat} {v : Json}
    (scalar : (∀ items, v ≠ .array items) ∧ ∀ members, v ≠ .object members)
    (numbers : v.NumbersReread) : Readable depth v := by
  cases v with
  | null | bool | string => trivial
  | number n => exact numbers n List.mem_cons_self
  | array items => exact absurd rfl (scalar.1 items)
  | object members => exact absurd rfl (scalar.2 members)

/-- What was read is a scalar, or a container of what the reader of values yields. -/
theorem cases_of_readStart {container : Option ((cs : List Char) → Option (Json × Rest cs))}
    {cs : List Char} {v : Json} {rest : Rest cs} (h : readStart container cs = some (v, rest)) :
    ((∀ items, v ≠ .array items) ∧ ∀ members, v ≠ .object members) ∨
      ∃ value ∈ container, (∃ items, v = .array items ∧ ∀ w ∈ items, Yields value w) ∨
        ∃ entries, v = .object (Keyed.mergeRepeated entries) ∧ ∀ e ∈ entries, Yields value e.2 := by
  cases cs with
  | nil => cases h
  | cons c cs =>
    simp only [readStart] at h
    split at h
    · simp only [Option.map_eq_some_iff, Prod.mk.injEq] at h
      obtain ⟨_, _, rfl, _⟩ := h
      exact .inl ⟨fun _ => Json.noConfusion, fun _ => Json.noConfusion⟩
    split at h
    · simp only [Option.bind_eq_some_iff, Option.map_eq_some_iff, Prod.mk.injEq] at h
      obtain ⟨value, hvalue, items, read, rfl, -⟩ := h
      exact .inr ⟨value, hvalue, .inl ⟨_, rfl, yields_of_readItems read⟩⟩
    split at h
    · simp only [Option.bind_eq_some_iff, Option.map_eq_some_iff, Prod.mk.injEq] at h
      obtain ⟨value, hvalue, entries, read, rfl, -⟩ := h
      exact .inr ⟨value, hvalue,
        .inr ⟨_, rfl, fun e he => yields_of_readMember (yields_of_readItems read e he)⟩⟩
    refine .inl ?_
    split at h
    · rw [eq_of_readWord h]
      exact ⟨fun _ => Json.noConfusion, fun _ => Json.noConfusion⟩
    split at h
    · rw [eq_of_readWord h]
      exact ⟨fun _ => Json.noConfusion, fun _ => Json.noConfusion⟩
    split at h
    · rw [eq_of_readWord h]
      exact ⟨fun _ => Json.noConfusion, fun _ => Json.noConfusion⟩
    simp only [Option.map_eq_some_iff, Prod.mk.injEq] at h
    obtain ⟨n, -, rfl, -⟩ := h
    exact ⟨fun _ => Json.noConfusion, fun _ => Json.noConfusion⟩

/-- What `cases_of_readStart` says of values in which containers may nest `depth` deep. -/
theorem cases_of_readValue {depth : Nat} {v : Json} (h : Yields (readValue depth) v) :
    ((∀ items, v ≠ .array items) ∧ ∀ members, v ≠ .object members) ∨
      ∃ inner, depth = inner + 1 ∧
        ((∃ items, v = .array items ∧ ∀ w ∈ items, Yields (readValue inner) w) ∨
          ∃ entries, v = .object (Keyed.mergeRepeated entries) ∧
            ∀ e ∈ entries, Yields (readValue inner) e.2) := by
  obtain ⟨cs, rest, h⟩ := h
  cases depth with
  | zero =>
    simp only [readValue, Option.map_eq_some_iff] at h
    obtain ⟨⟨w, start⟩, read, eq⟩ := h
    obtain rfl := (Prod.mk.inj eq).1
    rcases cases_of_readStart read with scalar | ⟨value, hvalue, -⟩
    · exact .inl scalar
    · cases hvalue
  | succ inner =>
    simp only [readValue, Option.map_eq_some_iff] at h
    obtain ⟨⟨w, start⟩, read, eq⟩ := h
    obtain rfl := (Prod.mk.inj eq).1
    rcases cases_of_readStart read with scalar | ⟨value, hvalue, container⟩
    · exact .inl scalar
    · obtain rfl := Option.some.inj hvalue
      exact .inr ⟨inner, rfl, container⟩

theorem yields_of_read? {text : String} {v : Json} (h : read? text = some v) :
    Yields (readValue maxDepth) v := by
  simp only [read?] at h
  split at h
  · cases h
  · rename_i w rest read
    split at h
    · obtain rfl := Option.some.inj h
      exact ⟨_, _, read⟩
    · cases h

/-! ### What is read -/

theorem nodup_keys_of_read? {text : String} {ms : List (String × Json)}
    (h : read? text = some (.object ms)) : (ms.map (·.1)).Nodup := by
  rcases cases_of_readValue (yields_of_read? h) with
    ⟨-, scalar⟩ | ⟨_, -, ⟨_, isArray, _⟩ | ⟨entries, isObject, -⟩⟩
  · exact absurd rfl (scalar ms)
  · cases isArray
  · rw [Json.object.inj isObject]
    exact Keyed.nodup_keys_mergeRepeated entries

theorem readable_of_readValue {depth : Nat} {v : Json} (h : Yields (readValue depth) v)
    (numbers : v.NumbersReread) : Readable depth v := by
  induction depth generalizing v with
  | zero =>
    rcases cases_of_readValue h with scalar | ⟨_, deep, -⟩
    · exact readable_of_scalar scalar numbers
    · cases deep
  | succ depth ih =>
    rcases cases_of_readValue h with
      scalar | ⟨inner, deep, ⟨items, rfl, each⟩ | ⟨entries, rfl, each⟩⟩
    · exact readable_of_scalar scalar numbers
    · obtain rfl := Nat.succ.inj deep
      refine ⟨Nat.succ_pos _, readableItems_iff.2 fun w hw => ih (each w hw) ?_⟩
      exact fun n hn => numbers n (mem_numbers_array.2 ⟨_, hw, hn⟩)
    · obtain rfl := Nat.succ.inj deep
      have distinct := Keyed.nodup_keys_mergeRepeated entries
      refine ⟨Nat.succ_pos _, distinct, readableMembers_iff.2 fun m hm => ?_⟩
      obtain ⟨e, he, same⟩ := mem_mergeRepeated hm
      rw [← same]
      refine ih (each e he) ?_
      rw [same]
      exact fun n hn => numbers n (mem_numbers_object.2 ⟨_, hm, hn⟩)

/-- A document that was read can be read back from its text if its numbers can. -/
theorem readable_of_read? {text : String} {v : Json} (h : read? text = some v)
    (numbers : v.NumbersReread) : Readable maxDepth v :=
  readable_of_readValue (yields_of_read? h) numbers

end OpenApiModels.Json
