import Mathlib.Data.Bool.AllAny
import Mathlib.Data.List.Forall2
import OpenApiModels.Proofs.Spec.Extensions
import OpenApiModels.Spec.Checksum

/-!
# Lines with checksum members

Members are dropped line by line, so the line of a checksum member vanishes wherever it stands and
whatever it stores. `rawChecksum_congr` says that the checksum of a document's text does not tell
what is stored at checksum keys.
-/

namespace OpenApiModels

namespace Digest

/-- Characters that a quoted text can hold as they are. -/
def Plain (cs : List Char) : Prop :=
  ∀ c ∈ cs, c ≠ '"' ∧ c ≠ '\\' ∧ c ≠ '\n' ∧ 0x20 ≤ c.toNat

theorem plain_digitChar {n : Nat} (h : n < 16) : Plain [Nat.digitChar n] := by
  have all : ∀ n < 16, Nat.digitChar n ≠ '"' ∧ Nat.digitChar n ≠ '\\' ∧
      Nat.digitChar n ≠ '\n' ∧ 0x20 ≤ (Nat.digitChar n).toNat := by decide
  intro c hc
  rw [List.mem_singleton.1 hc]
  exact all n h

theorem plain_hex (s : State) : Plain s.hex.toList := by
  rw [State.hex, String.toList_ofList]
  intro c hc
  obtain ⟨w, -, hc⟩ := List.mem_flatMap.1 hc
  obtain ⟨shift, -, rfl⟩ := List.mem_map.1 hc
  exact plain_digitChar (Nat.mod_lt _ (by decide)) _ List.mem_cons_self

theorem plain_ofText (s : String) : Plain (ofText s).toList :=
  plain_hex _

end Digest

namespace Spec

open Text Digest

/-! ### Within a line -/

section Line

variable (post : List Char)

theorem skipLineBlanks_append (cs : List Char) :
    skipLineBlanks (cs ++ '\n' :: post) = skipLineBlanks cs ++ '\n' :: post := by
  induction cs with
  | nil => rfl
  | cons c cs ih =>
    by_cases blank : isLineBlank c = true
    · simpa [skipLineBlanks, blank] using ih
    · simp [skipLineBlanks, blank]

theorem skipChar_append {c : Char} (h : c ≠ '\n') (cs : List Char) :
    skipChar c (cs ++ '\n' :: post) = skipChar c cs ++ '\n' :: post := by
  cases cs with
  | nil => simp [skipChar, h.symm]
  | cons d ds =>
    by_cases same : d = c
    · simp [skipChar, same]
    · simp [skipChar, same]

theorem stripStart?_append {key : List Char} (h : '\n' ∉ key) (cs : List Char) :
    stripStart? key (cs ++ '\n' :: post) = (stripStart? key cs).map (· ++ '\n' :: post) := by
  induction key generalizing cs with
  | nil => rfl
  | cons k key ih =>
    have kept : '\n' ∉ key := fun inside => h (List.mem_cons_of_mem _ inside)
    cases cs with
    | nil =>
      have differ : k ≠ '\n' := fun same => h (same ▸ List.mem_cons_self)
      simp [stripStart?, differ]
    | cons c cs =>
      by_cases same : k = c
      · simp [stripStart?, same, ih kept]
      · simp [stripStart?, same]

theorem afterChecksumKey?_append (cs : List Char) :
    afterChecksumKey? (cs ++ '\n' :: post) = (afterChecksumKey? cs).map (· ++ '\n' :: post) := by
  have inline : ∀ key ∈ checksumKeys, '\n' ∉ '"' :: key.toList ++ ['"'] := by decide
  simp only [afterChecksumKey?]
  generalize checksumKeys = keys at inline
  induction keys with
  | nil => rfl
  | cons key keys ih =>
    have step := ih fun key hkey => inline key (List.mem_cons_of_mem _ hkey)
    rw [List.findSome?_cons, List.findSome?_cons,
      stripStart?_append post (inline key List.mem_cons_self), step]
    cases stripStart? ('"' :: key.toList ++ ['"']) cs <;> rfl

theorem afterPlainString?_append (cs : List Char) :
    afterPlainString? (cs ++ '\n' :: post) =
      (afterPlainString? cs).map (· ++ '\n' :: post) := by
  cases cs with
  | nil => simp [afterPlainString?]
  | cons c cs =>
    by_cases quote : c = '"'
    · subst quote
      have body : (cs ++ '\n' :: post).dropWhile (fun c => c != '"' && c != '\n') =
          cs.dropWhile (fun c => c != '"' && c != '\n') ++ '\n' :: post := by
        induction cs with
        | nil => rfl
        | cons d ds ih =>
          by_cases inside : (d != '"' && d != '\n') = true
          · simpa only [List.cons_append, List.dropWhile_cons, inside, if_true] using ih
          · simp only [List.cons_append, List.dropWhile_cons, inside, if_false,
              Bool.false_eq_true]
      simp only [List.cons_append, afterPlainString?, body]
      cases cs.dropWhile (fun c => c != '"' && c != '\n') with
      | nil => simp
      | cons d ds =>
        by_cases closing : d = '"'
        · simp [closing]
        · simp [closing]
    · simp [afterPlainString?, quote]

theorem afterChecksumMember?_append (cs : List Char) :
    afterChecksumMember? (cs ++ '\n' :: post) =
      (afterChecksumMember? cs).map (· ++ '\n' :: post) := by
  have colon : '\n' ∉ [':'] := by decide
  simp only [afterChecksumMember?, skipLineBlanks_append, afterChecksumKey?_append,
    Option.bind_eq_bind, Option.pure_def]
  cases afterChecksumKey? (skipLineBlanks cs) with
  | none => rfl
  | some cs₁ =>
    simp only [Option.map_some, Option.bind_some, skipLineBlanks_append,
      stripStart?_append post colon]
    cases stripStart? [':'] (skipLineBlanks cs₁) with
    | none => rfl
    | some cs₂ =>
      simp only [Option.map_some, Option.bind_some, skipLineBlanks_append,
        afterPlainString?_append]
      cases afterPlainString? (skipLineBlanks cs₂) with
      | none => rfl
      | some cs₃ =>
        have comma : ',' ≠ '\n' := by decide
        have return_ : '\r' ≠ '\n' := by decide
        simp only [Option.map_some, Option.bind_some, skipLineBlanks_append,
          skipChar_append post comma, skipChar_append post return_]

end Line

/-! ### Line by line -/

theorem dropChecksumMembers_nil (lineStart : Bool) : dropChecksumMembers lineStart [] = [] := by
  rw [dropChecksumMembers]

theorem dropChecksumMembers_kept {lineStart : Bool} {c : Char} {cs : List Char}
    (h : lineStart = false ∨ afterChecksumMember? (c :: cs) = none) :
    dropChecksumMembers lineStart (c :: cs) = c :: dropChecksumMembers (c == '\n') cs := by
  rw [dropChecksumMembers]
  cases lineStart with
  | false => rfl
  | true =>
    rw [if_pos rfl]
    split
    · rename_i found
      rw [h.resolve_left Bool.noConfusion] at found
      cases found
    · rfl

theorem dropChecksumMembers_member {cs rest : List Char}
    (h : afterChecksumMember? cs = some rest) :
    dropChecksumMembers true cs =
      dropChecksumMembers (skipLineBreak rest).1 (skipLineBreak rest).2 := by
  cases cs with
  | nil => cases h
  | cons c cs =>
    rw [dropChecksumMembers, if_pos rfl]
    split
    · rename_i rest' found
      obtain rfl := Option.some.inj (h.symm.trans found)
      rfl
    · rename_i absent
      rw [h] at absent
      cases absent

theorem dropChecksumMembers_lineBreak (lineStart : Bool) (post : List Char) :
    dropChecksumMembers lineStart ('\n' :: post) = '\n' :: dropChecksumMembers true post :=
  dropChecksumMembers_kept (.inr (afterChecksumMember?_append post []))

/-- What follows a line break is dropped from as if nothing stood before it. -/
theorem dropChecksumMembers_append (lineStart : Bool) (cs post : List Char) :
    dropChecksumMembers lineStart (cs ++ '\n' :: post) =
      dropChecksumMembers lineStart (cs ++ ['\n']) ++ dropChecksumMembers true post := by
  induction hn : cs.length using Nat.strongRecOn generalizing lineStart cs with
  | _ n ih =>
    cases cs with
    | nil =>
      rw [List.nil_append, List.nil_append, dropChecksumMembers_lineBreak,
        dropChecksumMembers_lineBreak, dropChecksumMembers_nil]
      rfl
    | cons c cs =>
      rw [List.length_cons] at hn
      have member (post : List Char) := afterChecksumMember?_append post (c :: cs)
      have next := ih cs.length (by omega) (c == '\n') cs rfl
      by_cases kept : lineStart = false ∨ afterChecksumMember? (c :: cs) = none
      · have stays (post : List Char) :
            lineStart = false ∨ afterChecksumMember? (c :: (cs ++ '\n' :: post)) = none :=
          kept.imp_right fun none => (member post).trans (congrArg _ none)
        rw [List.cons_append, List.cons_append, dropChecksumMembers_kept (stays post),
          dropChecksumMembers_kept (stays []), next]
        rfl
      · obtain ⟨starts, found⟩ := not_or.1 kept
        obtain rfl : lineStart = true := by simpa using starts
        obtain ⟨rest, found⟩ := Option.ne_none_iff_exists'.1 found
        have shorter := length_lt_of_afterChecksumMember? found
        simp only [found, Option.map_some] at member
        rw [dropChecksumMembers_member (member post), dropChecksumMembers_member (member [])]
        cases rest with
        | nil =>
          simp only [List.nil_append, skipLineBreak, if_pos]
          rw [dropChecksumMembers_nil, List.nil_append]
        | cons d ds =>
          simp only [List.length_cons] at shorter
          by_cases breaks : d = '\n'
          · simp only [List.cons_append, skipLineBreak, breaks, if_pos]
            exact ih ds.length (by omega) true ds rfl
          · simp only [List.cons_append, skipLineBreak, breaks, if_false]
            exact ih (ds.length + 1) (by omega) false (d :: ds) rfl

/-- The line of a checksum member vanishes. -/
theorem dropChecksumMembers_line {line : List Char} (h : afterChecksumMember? line = some [])
    (post : List Char) :
    dropChecksumMembers true (line ++ '\n' :: post) = dropChecksumMembers true post := by
  have member := afterChecksumMember?_append post line
  rw [h, Option.map_some, List.nil_append] at member
  exact dropChecksumMembers_member member

/-! ### Lines of a document -/

theorem stringText_of_plain {s : String} (h : Plain s.toList) :
    Json.stringText s = '"' :: (s.toList ++ ['"']) := by
  have same : s.toList.flatMap Json.escapeChar = s.toList := by
    generalize s.toList = cs at h
    induction cs with
    | nil => rfl
    | cons c cs ih =>
      obtain ⟨quote, backslash, -, printable⟩ := h c List.mem_cons_self
      have kept : Json.escapeChar c = [c] := by
        unfold Json.escapeChar
        split
        case h_8 => rw [if_neg (by omega)]
        all_goals contradiction
      rw [List.flatMap_cons, kept, ih fun d hd => h d (List.mem_cons_of_mem _ hd)]
      rfl
  rw [Json.stringText, same]
  rfl

/-- The line of a root member, up to its comma. -/
def memberLine (m : String × Json) : List Char :=
  ' ' :: ' ' :: (Json.stringText m.1 ++ ':' :: ' ' :: Json.prettyAt 1 m.2)

def rootLines : List (String × Json) → List Char
  | [] => []
  | [m] => memberLine m ++ ['\n']
  | m :: n :: rest => (memberLine m ++ [',']) ++ '\n' :: rootLines (n :: rest)

theorem lineBreak_prettyMembers (m : String × Json) (ms : List (String × Json))
    (post : List Char) :
    Json.lineBreak 1 ++ (Json.prettyMembers 1 (m :: ms) ++ '\n' :: post) =
      '\n' :: (rootLines (m :: ms) ++ post) := by
  induction ms generalizing m with
  | nil => simp [Json.prettyMembers, Json.lineBreak, rootLines, memberLine, List.replicate]
  | cons n ms ih =>
    simp only [Json.prettyMembers, List.append_assoc, List.cons_append, ih, rootLines]
    simp [Json.lineBreak, memberLine, List.replicate]

/-- The text of a document has a line for each member and one for each of its braces. -/
theorem text_eq_rootLines (m : String × Json) (ms : List (String × Json)) :
    (Document.text ⟨m :: ms⟩).toList =
      ['\x7b'] ++ '\n' :: (rootLines (m :: ms) ++ ['\x7d', '\n']) := by
  have lines := lineBreak_prettyMembers m ms ['\x7d', '\n']
  rw [Document.text, String.toList_ofList, Document.toJson, Json.prettyAt]
  simp only [Json.lineBreak, List.replicate, List.append_assoc, List.cons_append,
    List.nil_append] at lines ⊢
  rw [lines]

/-! ### Storing another checksum -/

/-- A checksum member that stores a plain text. -/
def StoresPlain (m : String × Json) : Prop :=
  m.1 ∈ checksumKeys ∧ ∃ s, m.2 = .string s ∧ Plain s.toList

theorem afterChecksumMember?_memberLine {m : String × Json} (h : StoresPlain m) :
    afterChecksumMember? (memberLine m) = some [] ∧
      afterChecksumMember? (memberLine m ++ [',']) = some [] := by
  obtain ⟨key, value⟩ := m
  obtain ⟨hkey, s, same, plain⟩ := h
  dsimp only at hkey same
  subst same
  have quoted : Json.stringText key = '"' :: (key.toList ++ ['"']) := by
    refine stringText_of_plain ?_
    have all : ∀ key ∈ checksumKeys, (key.toList.all fun c =>
        c ≠ '"' ∧ c ≠ '\\' ∧ c ≠ '\n' ∧ 0x20 ≤ c.toNat) = true := by decide
    exact List.all_iff_forall_prop.1 (all key hkey)
  have found (rest : List Char) :
      afterChecksumKey? ('"' :: (key.toList ++ '"' :: rest)) = some rest := by
    simp only [checksumKeys, List.mem_cons, List.not_mem_nil, or_false] at hkey
    rcases hkey with rfl | rfl | rfl <;> rfl
  have value (rest : List Char) :
      afterPlainString? ('"' :: (s.toList ++ '"' :: rest)) = some rest := by
    have body : (s.toList ++ '"' :: rest).dropWhile (fun c => c != '"' && c != '\n') =
        '"' :: rest := by
      rw [List.dropWhile_append_of_pos]
      · rfl
      · intro c hc
        simp [(plain c hc).1, (plain c hc).2.2.1]
    simp only [afterPlainString?, body]
  have start (rest : List Char) : afterChecksumMember? (memberLine (key, .string s) ++ rest) =
      some (skipChar '\r' (skipLineBlanks (skipChar ',' (skipLineBlanks rest)))) := by
    simp only [memberLine, quoted, Json.prettyAt, stringText_of_plain plain, List.cons_append,
      List.append_assoc, List.nil_append]
    have first (tail : List Char) : afterChecksumKey? (skipLineBlanks
        (' ' :: ' ' :: '"' :: (key.toList ++ '"' :: tail))) = some tail := found tail
    have second (tail : List Char) :
        stripStart? [':'] (skipLineBlanks (':' :: tail)) = some tail := rfl
    have third : afterPlainString? (skipLineBlanks
        (' ' :: '"' :: (s.toList ++ '"' :: rest))) = some rest := value rest
    simp only [afterChecksumMember?, first, second, third, Option.bind_eq_bind, Option.bind_some,
      Option.pure_def]
  constructor
  · have line := start []
    rwa [List.append_nil] at line
  · exact start [',']

/-- Equal members, or two that store plain texts at one checksum key. -/
def Restores (m m' : String × Json) : Prop :=
  m = m' ∨ m.1 = m'.1 ∧ StoresPlain m ∧ StoresPlain m'

theorem dropChecksumMembers_rootLines {ms ms' : List (String × Json)}
    (h : List.Forall₂ Restores ms ms') (post : List Char) :
    dropChecksumMembers true (rootLines ms ++ post) =
      dropChecksumMembers true (rootLines ms' ++ post) := by
  induction h with
  | nil => rfl
  | @cons m m' rest rest' first more ih =>
    -- The last member stands without a comma, so the tails are looked at first.
    have step (comma tail tail' : List Char)
        (stored : ∀ m, StoresPlain m → afterChecksumMember? (memberLine m ++ comma) = some [])
        (same : dropChecksumMembers true tail = dropChecksumMembers true tail') :
        dropChecksumMembers true (memberLine m ++ comma ++ '\n' :: tail) =
          dropChecksumMembers true (memberLine m' ++ comma ++ '\n' :: tail') := by
      rcases first with rfl | ⟨-, stores, stores'⟩
      · rw [dropChecksumMembers_append, same, ← dropChecksumMembers_append]
      · rw [dropChecksumMembers_line (stored m stores),
          dropChecksumMembers_line (stored m' stores'), same]
    cases more with
    | nil =>
      have line := step [] post post
        (fun m hm => by rw [List.append_nil]; exact (afterChecksumMember?_memberLine hm).1) rfl
      simpa [rootLines] using line
    | cons _ _ =>
      have line := step [','] _ _ (fun m hm => (afterChecksumMember?_memberLine hm).2) ih
      simpa [rootLines] using line

/-- The checksum of a document's text does not tell what checksum members store. -/
theorem rawChecksum_congr {doc doc' : Document}
    (h : List.Forall₂ Restores doc.members doc'.members) :
    rawChecksum doc.text = rawChecksum doc'.text := by
  obtain ⟨ms⟩ := doc
  obtain ⟨ms'⟩ := doc'
  cases h with
  | nil => rfl
  | cons first more =>
    have lines := dropChecksumMembers_rootLines (.cons first more) ['\x7d', '\n']
    rw [rawChecksum, rawChecksum, text_eq_rootLines, text_eq_rootLines,
      dropChecksumMembers_append, lines, ← dropChecksumMembers_append]

theorem forall₂_put {key old new : String} {ms : List (String × Json)}
    (hkey : key ∈ checksumKeys) (stored : ms.lookup key = some (.string old))
    (plain : Plain old.toList) (plain' : Plain new.toList) :
    List.Forall₂ Restores ms (Keyed.put key (.string new) ms) := by
  induction ms with
  | nil => cases stored
  | cons m ms ih =>
    obtain ⟨k, v⟩ := m
    by_cases same : k = key
    · subst same
      rw [List.lookup_cons, beq_self_eq_true] at stored
      obtain rfl := Option.some.inj stored
      rw [Keyed.put, if_pos (beq_self_eq_true k)]
      refine .cons (.inr ⟨rfl, ⟨hkey, old, rfl, plain⟩, ⟨hkey, new, rfl, plain'⟩⟩) ?_
      exact List.forall₂_same.2 fun m _ => .inl rfl
    · have differ : (key == k) = false := beq_eq_false_iff_ne.2 (Ne.symm same)
      rw [List.lookup_cons, differ] at stored
      rw [Keyed.put, if_neg (by simpa using same)]
      exact .cons (.inl rfl) (ih stored)

/-- Storing another plain text at a checksum key keeps the checksum of the text. -/
theorem rawChecksum_setExtensions {key old new : String} {doc : Document}
    (hkey : key ∈ checksumKeys) (stored : doc.members.lookup key = some (.string old))
    (plain : Plain old.toList) (plain' : Plain new.toList) :
    rawChecksum (doc.setExtensions [(key, new)]).text = rawChecksum doc.text := by
  refine (rawChecksum_congr ?_).symm
  rw [Document.members_setExtensions_of_hasKey]
  · exact forall₂_put hkey stored plain plain'
  · intro e he
    rw [List.mem_singleton.1 he]
    exact Keyed.hasKey_of_lookup stored

end Spec

end OpenApiModels
