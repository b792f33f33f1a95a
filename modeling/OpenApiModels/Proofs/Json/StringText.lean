import OpenApiModels.Json.Printer
import OpenApiModels.Json.Reader

/-!
# String literals of JSON texts

The reader takes the text of a string for the string and stops behind it, so a text that starts
with a string literal tells which string it is. Members are told apart by their keys in the same
way.
-/

namespace OpenApiModels.Json

/-! ### Reading what was escaped -/

/-- The characters up to the closing quote, and what follows it. -/
def readBody (cs : List Char) : Option (List Char × List Char) :=
  (readStringBody cs).map fun r => (r.1, r.2.1)

theorem readBody_quote (rest : List Char) : readBody ('"' :: rest) = some ([], rest) := by
  rw [readBody, readStringBody]
  rfl

theorem readBody_escape {cs rest : List Char} {c : Char} (h : readEscape cs = some (c, rest)) :
    readBody ('\\' :: cs) = (readBody rest).map fun r => (c :: r.1, r.2) := by
  have ne : ('\\' : Char) ≠ '"' := by decide
  rw [readBody, readStringBody, if_neg ne, if_pos rfl]
  split
  · rename_i none
    rw [h] at none
    cases none
  · rename_i e rest' found
    obtain ⟨rfl, rfl⟩ := Prod.mk.inj (Option.some.inj (found.symm.trans h))
    rw [readBody]
    cases readStringBody rest' <;> rfl

theorem readBody_plain {c : Char} (notQuote : c ≠ '"') (notEscape : c ≠ '\\')
    (notControl : ¬ c.toNat < 0x20) (rest : List Char) :
    readBody (c :: rest) = (readBody rest).map fun r => (c :: r.1, r.2) := by
  rw [readBody, readStringBody, if_neg notQuote, if_neg notEscape, if_neg notControl, readBody]
  cases readStringBody rest <;> rfl

theorem unit?_controlHex {c : Char} (h : c.toNat < 0x20) :
    unit? '0' '0' (Nat.digitChar (c.toNat / 16)) (Nat.digitChar (c.toNat % 16)) =
      some c.toNat := by
  have all : ∀ n, n < 0x20 →
      unit? '0' '0' (Nat.digitChar (n / 16)) (Nat.digitChar (n % 16)) = some n := by decide
  exact all c.toNat h

theorem readEscape_control {c : Char} (h : c.toNat < 0x20) (rest : List Char) :
    readEscape (['u', '0', '0'] ++ controlHex c ++ rest) = some (c, rest) := by
  have high : ¬ (0xD800 ≤ c.toNat ∧ c.toNat < 0xDC00) := by omega
  have low : ¬ (0xDC00 ≤ c.toNat ∧ c.toNat < 0xE000) := by omega
  simp only [controlHex, List.cons_append, List.nil_append, readEscape, unit?_controlHex h, high,
    low, if_false, Char.ofNat_toNat]

theorem readBody_escapeChar (c : Char) (rest : List Char) :
    readBody (escapeChar c ++ rest) = (readBody rest).map fun r => (c :: r.1, r.2) := by
  unfold escapeChar
  split
  case h_8 notQuote notEscape _ _ _ _ _ =>
    split
    · rename_i control
      exact readBody_escape (readEscape_control control rest)
    · rename_i control
      exact readBody_plain notQuote notEscape control rest
  all_goals exact readBody_escape rfl

theorem readBody_flatMap_escapeChar (s rest : List Char) :
    readBody (s.flatMap escapeChar ++ '"' :: rest) = some (s, rest) := by
  induction s with
  | nil => exact readBody_quote rest
  | cons c s ih => rw [List.flatMap_cons, List.append_assoc, readBody_escapeChar, ih]; rfl

/-- A string literal ends where it says. -/
theorem stringText_append_inj {a b : String} {rest rest' : List Char}
    (h : stringText a ++ rest = stringText b ++ rest') : a = b ∧ rest = rest' := by
  simp only [stringText, List.cons_append, List.append_assoc, List.cons.injEq, true_and,
    List.nil_append] at h
  have read := readBody_flatMap_escapeChar a.toList rest
  rw [h, readBody_flatMap_escapeChar] at read
  obtain ⟨text, rfl⟩ := Prod.mk.inj (Option.some.inj read)
  exact ⟨(String.toList_injective text).symm, rfl⟩

theorem le_toNat_of_mem_escapeChar {c d : Char} (h : d ∈ escapeChar c) : 0x20 ≤ d.toNat := by
  have hex : ∀ n < 16, 0x20 ≤ (Nat.digitChar n).toNat := by decide
  have listed {cs : List Char} (all : cs.all (fun d => 0x20 ≤ d.toNat) = true) (hd : d ∈ cs) :
      0x20 ≤ d.toNat := of_decide_eq_true (List.all_eq_true.1 all d hd)
  unfold escapeChar at h
  split at h
  case h_8 =>
    split at h
    · rename_i control
      rcases List.mem_append.1 h with start | digits
      · exact listed (by decide) start
      · rw [controlHex, List.mem_cons, List.mem_singleton] at digits
        rcases digits with rfl | rfl
        · exact hex _ (by omega)
        · exact hex _ (Nat.mod_lt _ (by decide))
    · rename_i printable
      rw [List.mem_singleton.1 h]
      omega
  all_goals exact listed (by decide) h

/-- A string literal holds no control characters. -/
theorem le_toNat_of_mem_stringText {s : String} {c : Char} (h : c ∈ stringText s) :
    0x20 ≤ c.toNat := by
  rw [stringText, List.mem_append, List.mem_cons, List.mem_flatMap, List.mem_singleton] at h
  rcases h with (rfl | ⟨d, -, inside⟩) | rfl
  · decide
  · exact le_toNat_of_mem_escapeChar inside
  · decide

/-! ### Members in another order -/

theorem prettyMembers_cons_append_inj {depth : Nat} {k k' : String} {v v' : Json}
    {ms ms' : List (String × Json)} {rest rest' : List Char}
    (h : prettyMembers depth ((k, v) :: ms) ++ rest =
      prettyMembers depth ((k', v') :: ms') ++ rest') : k = k' := by
  cases ms <;> cases ms' <;>
    simp only [prettyMembers, List.append_assoc] at h <;> exact (stringText_append_inj h).1

/-- Members whose values the keys tell are told apart by their text. -/
theorem prettyMembers_inj {depth : Nat} {ms ms' : List (String × Json)}
    (length : ms.length = ms'.length)
    (values : ∀ m ∈ ms, ∀ m' ∈ ms', m.1 = m'.1 → m = m') {rest rest' : List Char}
    (h : prettyMembers depth ms ++ rest = prettyMembers depth ms' ++ rest') : ms = ms' := by
  induction ms generalizing ms' with
  | nil => exact (List.length_eq_zero_iff.1 length.symm).symm
  | cons m ms ih =>
    cases ms' with
    | nil => cases length
    | cons m' ms' =>
      obtain rfl : m = m' := values m List.mem_cons_self m' List.mem_cons_self
        (prettyMembers_cons_append_inj h)
      have length : ms.length = ms'.length := Nat.succ.inj length
      refine congrArg (m :: ·) ?_
      cases ms with
      | nil => exact (List.length_eq_zero_iff.1 length.symm).symm
      | cons n ms =>
        cases ms' with
        | nil => cases length
        | cons n' ms' =>
          simp only [prettyMembers, List.append_assoc, List.append_cancel_left_eq,
            List.cons_append, List.cons.injEq, true_and] at h
          exact ih length (fun a ha b hb => values a (List.mem_cons_of_mem _ ha) b
            (List.mem_cons_of_mem _ hb)) h

theorem pretty_object_inj {ms ms' : List (String × Json)} (length : ms.length = ms'.length)
    (values : ∀ m ∈ ms, ∀ m' ∈ ms', m.1 = m'.1 → m = m')
    (h : pretty (.object ms) = pretty (.object ms')) : ms = ms' := by
  have h := String.ofList_injective h
  cases ms with
  | nil => exact (List.length_eq_zero_iff.1 length.symm).symm
  | cons m ms =>
    cases ms' with
    | nil => cases length
    | cons m' ms' =>
      simp only [prettyAt, List.append_assoc, List.cons_append, List.cons.injEq, true_and,
        List.append_cancel_left_eq] at h
      exact prettyMembers_inj length values h

end OpenApiModels.Json
