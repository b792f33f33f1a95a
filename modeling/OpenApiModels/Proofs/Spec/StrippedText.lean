import OpenApiModels.Proofs.Spec.CanonicalContent
import OpenApiModels.Proofs.Spec.StrippedRows

/-!
# What a stripped text tells

Stripping looks at lines and not at where in the document they stand, so it drops the texts that
are stored at checksum keys in every object. Nothing else is lost: the stripped text tells the
document without them (`content_of_strippedText`), even where a quote in a stored text lets a part
of its line stay. So documents that store checksums at their root only are told apart but for
their checksum members.
-/

namespace OpenApiModels.Spec

open Json Text

/-- The text that the raw checksum is the checksum of. -/
def strippedText (text : String) : String :=
  String.ofList (dropChecksumMembers true text.toList)

/-! ### Documents without stored texts -/

mutual

/-- The value without the texts that its objects store at checksum keys. -/
def unstored : Json → Json
  | .array items => .array (unstoredItems items)
  | .object members => .object (unstoredMembers members)
  | .null => .null
  | .bool b => .bool b
  | .number n => .number n
  | .string s => .string s

def unstoredItems : List Json → List Json
  | [] => []
  | v :: rest => unstored v :: unstoredItems rest

def unstoredMembers : List (String × Json) → List (String × Json)
  | [] => []
  | (k, v) :: rest =>
    if storesText (k, v) then unstoredMembers rest else (k, unstored v) :: unstoredMembers rest

end

/-- What is left of a member. -/
def unstoredMember? (m : String × Json) : Option (String × Json) :=
  if storesText m then none else some (m.1, unstored m.2)

theorem unstored_array (items : List Json) :
    unstored (.array items) = .array (items.map unstored) := by
  have each : unstoredItems items = items.map unstored := by
    induction items with
    | nil => rfl
    | cons v rest ih => rw [unstoredItems, ih, List.map_cons]
  rw [unstored, each]

theorem unstored_object (members : List (String × Json)) :
    unstored (.object members) = .object (members.filterMap unstoredMember?) := by
  have each : unstoredMembers members = members.filterMap unstoredMember? := by
    induction members with
    | nil => rfl
    | cons m rest ih =>
      obtain ⟨k, v⟩ := m
      rw [unstoredMembers, ih, List.filterMap_cons, unstoredMember?]
      cases storesText (k, v) <;> rfl
  rw [unstored, each]

/-! ### Rows told apart -/

/-- If each row that is there is told apart together with what follows it, and from what closes the
rows, so are all rows. -/
theorem rows_inj {α β : Type} {row : α → List Char} {f : α → Option β} {close close' : List Char}
    {xs ys : List α}
    (told : ∀ x ∈ xs, ∀ y ∈ ys, row x ≠ [] → row y ≠ [] → ∀ more more',
      row x ++ more = row y ++ more' → f x = f y ∧ more = more')
    (vanished : ∀ x, (x ∈ xs ∨ x ∈ ys) → row x = [] → f x = none)
    (apart : ∀ x ∈ xs, row x ≠ [] → ∀ more, row x ++ more ≠ close')
    (apart' : ∀ y ∈ ys, row y ≠ [] → ∀ more, row y ++ more ≠ close)
    (h : xs.flatMap row ++ close = ys.flatMap row ++ close') :
    xs.filterMap f = ys.filterMap f ∧ close = close' := by
  -- The rows that vanished say nothing, so they are skipped on either side.
  induction xs generalizing ys with
  | nil =>
    induction ys with
    | nil => exact ⟨rfl, h⟩
    | cons y ys ih =>
      by_cases empty : row y = []
      · rw [List.flatMap_cons, empty, List.nil_append] at h
        rw [List.filterMap_cons_none (vanished y (.inr List.mem_cons_self) empty)]
        exact ih (fun x hx => absurd hx List.not_mem_nil)
          (fun x hx => vanished x (hx.imp_right (List.mem_cons_of_mem _)))
          (fun z hz => apart' z (List.mem_cons_of_mem _ hz)) h
      · rw [List.flatMap_cons, List.append_assoc] at h
        exact absurd h.symm (apart' y List.mem_cons_self empty _)
  | cons x xs ih =>
    by_cases empty : row x = []
    · rw [List.flatMap_cons, empty, List.nil_append] at h
      rw [List.filterMap_cons_none (vanished x (.inl List.mem_cons_self) empty)]
      exact ih (fun z hz => told z (List.mem_cons_of_mem _ hz))
        (fun z hz => vanished z (hz.imp_left (List.mem_cons_of_mem _)))
        (fun z hz => apart z (List.mem_cons_of_mem _ hz)) apart' h
    · induction ys with
      | nil =>
        rw [List.flatMap_cons, List.append_assoc] at h
        exact absurd h (apart x List.mem_cons_self empty _)
      | cons y ys inner =>
        by_cases empty' : row y = []
        · have skip : (y :: ys).flatMap row = ys.flatMap row := by
            rw [List.flatMap_cons, empty', List.nil_append]
          rw [skip] at h
          rw [List.filterMap_cons_none (vanished y (.inr List.mem_cons_self) empty')]
          exact inner (fun z hz w hw => told z hz w (List.mem_cons_of_mem _ hw))
            (fun z hz => vanished z (hz.imp_right (List.mem_cons_of_mem _)))
            (fun z hz => apart' z (List.mem_cons_of_mem _ hz)) h
        · rw [List.flatMap_cons, List.flatMap_cons, List.append_assoc, List.append_assoc] at h
          obtain ⟨same, more⟩ :=
            told x List.mem_cons_self y List.mem_cons_self empty empty' _ _ h
          obtain ⟨others, close⟩ := ih
            (fun z hz w hw => told z (List.mem_cons_of_mem _ hz) w (List.mem_cons_of_mem _ hw))
            (fun z hz => vanished z (hz.imp (List.mem_cons_of_mem _) (List.mem_cons_of_mem _)))
            (fun z hz => apart z (List.mem_cons_of_mem _ hz))
            (fun z hz => apart' z (List.mem_cons_of_mem _ hz)) more
          refine ⟨?_, close⟩
          rw [List.filterMap_cons, List.filterMap_cons, same, others]

theorem append_lineBreak_inj {a b x y : List Char} (ha : '\n' ∉ a) (hb : '\n' ∉ b)
    (h : a ++ '\n' :: x = b ++ '\n' :: y) : a = b ∧ x = y := by
  have line {a : List Char} (ha : '\n' ∉ a) (x : List Char) :
      (a ++ '\n' :: x).takeWhile (· != '\n') = a := by
    rw [List.takeWhile_append_of_pos fun c hc => by
      rw [bne_iff_ne]
      rintro rfl
      exact ha hc]
    simp
  have same : a = b := by rw [← line ha x, h, line hb]
  rw [same] at h
  exact ⟨same, (List.cons.inj (List.append_cancel_left h)).2⟩

/-- The line ends behind a comma at most. -/
def EndsLine (rest : List Char) : Prop :=
  ∃ comma more, IsComma comma ∧ rest = comma ++ '\n' :: more

theorem EndsLine.stops {rest : List Char} (h : EndsLine rest) : Stops rest := by
  obtain ⟨comma, more, rfl | rfl, rfl⟩ := h
  · exact stops_cons (by decide) _
  · exact stops_cons (by decide) _

theorem indent_succ (depth : Nat) : indent (depth + 1) = indent depth ++ [' ', ' '] := by
  rw [indent, indent, Nat.mul_add, List.replicate_add]
  rfl

section Bracketed

variable {α β : Type} {piece : α → List Char} {depth : Nat}

theorem row_append (piece : α → List Char) (x : α × List Char) (more : List Char) :
    row depth piece x ++ more = indent depth ++ (piece x.1 ++ (x.2 ++ '\n' :: more)) := by
  simp [row]

theorem row_ne_closing {opening closing : Char} (brackets : AreBrackets opening closing)
    (x : α × List Char) (more rest : List Char) :
    row (depth + 1) piece x ++ more ≠ indent depth ++ closing :: rest := by
  intro same
  rw [row_append, indent_succ, List.append_assoc] at same
  have blank := brackets.blank
  rw [← (List.cons.inj (List.append_cancel_left same)).1] at blank
  exact absurd blank (by decide)

/-- If pieces are told apart together with what follows them on their lines, so are their rows. -/
theorem row_inj {γ : Type} {f : α → γ} {x y : α × List Char} (hx : IsComma x.2)
    (hy : IsComma y.2)
    (told : ∀ rest rest', EndsLine rest → EndsLine rest' →
      piece x.1 ++ rest = piece y.1 ++ rest' → f x.1 = f y.1 ∧ rest = rest')
    {more more' : List Char} (h : row depth piece x ++ more = row depth piece y ++ more') :
    f x.1 = f y.1 ∧ more = more' := by
  rw [row_append, row_append] at h
  obtain ⟨same, behind⟩ :=
    told _ _ ⟨_, _, hx, rfl⟩ ⟨_, _, hy, rfl⟩ (List.append_cancel_left h)
  exact ⟨same, (append_lineBreak_inj hx.inline hy.inline behind).2⟩

/-- If rows that are left between brackets are told apart together with what follows them, and from
the line of the closing bracket, so are the brackets together with what follows them. -/
theorem stripped_bracketed_inj {opening closing : Char} (brackets : AreBrackets opening closing)
    {f : α → Option β} {as bs : List α}
    (told : ∀ a ∈ as, ∀ b ∈ bs, ∀ comma comma', IsComma comma → IsComma comma' →
      dropChecksumMembers true (row (depth + 1) piece (a, comma)) ≠ [] →
      dropChecksumMembers true (row (depth + 1) piece (b, comma')) ≠ [] → ∀ more more',
      dropChecksumMembers true (row (depth + 1) piece (a, comma)) ++ more =
        dropChecksumMembers true (row (depth + 1) piece (b, comma')) ++ more' →
      f a = f b ∧ more = more')
    (vanished : ∀ a comma, IsComma comma →
      dropChecksumMembers true (row (depth + 1) piece (a, comma)) = [] → f a = none)
    (apart : ∀ a comma, IsComma comma →
      dropChecksumMembers true (row (depth + 1) piece (a, comma)) ≠ [] → ∀ more rest,
      EndsLine rest → dropChecksumMembers true (row (depth + 1) piece (a, comma)) ++ more ≠
        indent depth ++ closing :: rest)
    {rest rest' : List Char} (ends : EndsLine rest) (ends' : EndsLine rest')
    (h : dropChecksumMembers false (bracketed opening closing depth (as.map piece)) ++ rest =
      dropChecksumMembers false (bracketed opening closing depth (bs.map piece)) ++ rest') :
    as.filterMap f = bs.filterMap f ∧ rest = rest' := by
  have none :
      dropChecksumMembers false (bracketed opening closing depth (([] : List α).map piece)) =
        [opening, closing] := by
    have inline : '\n' ∉ [opening, closing] := by
      simp [brackets.opens.symm, brackets.inline.symm]
    have alone := dropChecksumMembers_of_inline inline []
    rwa [List.append_nil, dropChecksumMembers_nil, List.append_nil] at alone
  have some {as : List α} (h : as ≠ []) :
      dropChecksumMembers false (bracketed opening closing depth (as.map piece)) =
        opening :: '\n' :: ((withCommas as).flatMap
          (fun x => dropChecksumMembers true (row (depth + 1) piece x)) ++
            (indent depth ++ [closing])) := by
    have alone := dropChecksumMembers_bracketed brackets depth piece h []
    rwa [List.append_nil, dropChecksumMembers_nil] at alone
  by_cases empty : as = [] <;> by_cases empty' : bs = []
  · subst empty empty'
    exact ⟨rfl, List.append_cancel_left h⟩
  · rw [empty, none, some empty'] at h
    exact absurd (List.cons.inj (List.cons.inj h).2).1 brackets.inline
  · rw [empty', none, some empty] at h
    exact absurd (List.cons.inj (List.cons.inj h).2).1.symm brackets.inline
  · rw [some empty, some empty'] at h
    simp only [List.cons_append, List.append_assoc, List.nil_append, List.cons.injEq,
      true_and] at h
    have comma {x : α × List Char} (hx : x ∈ withCommas as ∨ x ∈ withCommas bs) : IsComma x.2 :=
      hx.elim isComma_of_mem isComma_of_mem
    obtain ⟨same, close⟩ := rows_inj (f := fun x => f x.1)
      (fun x hx y hy => told x.1 (mem_of_mem_withCommas hx) y.1 (mem_of_mem_withCommas hy) x.2 y.2
        (isComma_of_mem hx) (isComma_of_mem hy))
      (fun x hx => vanished x.1 x.2 (comma hx))
      (fun x hx some more => apart x.1 x.2 (isComma_of_mem hx) some more rest' ends')
      (fun y hy some more => apart y.1 y.2 (isComma_of_mem hy) some more rest ends) h
    have values (as : List α) : (withCommas as).filterMap (fun x => f x.1) = as.filterMap f := by
      conv_rhs => rw [← map_fst_withCommas as, List.filterMap_map]
      rfl
    rw [values, values] at same
    exact ⟨same, (List.cons.inj (List.append_cancel_left close)).2⟩

end Bracketed

/-! ### Values told apart -/

/-- What is left of the value tells it, without stored texts, and what follows it. -/
def ToldStripped (v : Json) : Prop :=
  ∀ w depth rest rest', EndsLine rest → EndsLine rest' →
    stripped depth v ++ rest = stripped depth w ++ rest' → unstored v = unstored w ∧ rest = rest'

theorem startMark_eq_of_stripped {v w : Json} {depth : Nat} {rest rest' : List Char}
    (h : stripped depth v ++ rest = stripped depth w ++ rest') : v.startMark = w.startMark := by
  obtain ⟨c, cs, text, mark⟩ := exists_start depth v
  obtain ⟨c', cs', text', mark'⟩ := exists_start depth w
  rw [stripped, stripped, text, text', dropChecksumMembers_kept (.inl rfl),
    dropChecksumMembers_kept (.inl rfl), List.cons_append, List.cons_append] at h
  rw [← mark, ← mark', (List.cons.inj h).1]

theorem toldStripped_scalar {v : Json} (scalar : isScalar v = true) : ToldStripped v := by
  intro w depth rest rest' ends ends' text
  have mark := startMark_eq_of_stripped text
  have scalar' : isScalar w = true := by
    cases w with
    | array | object =>
      cases v with
      | bool b => cases b <;> cases mark
      | null | number | string => cases mark
      | array | object => cases scalar
    | null | bool | number | string => rfl
  rw [stripped_of_scalar scalar, stripped_of_scalar scalar'] at text
  obtain ⟨rfl, behind⟩ := told v w depth rest rest' (numbersTold v w) ends.stops ends'.stops text
  exact ⟨rfl, behind⟩

theorem toldStripped_array {items : List Json} (h : ∀ v ∈ items, ToldStripped v) :
    ToldStripped (.array items) := by
  intro w depth rest rest' ends ends' text
  have mark := startMark_eq_of_stripped text
  cases w with
  | array items' =>
    rw [stripped, stripped, prettyAt_array, prettyAt_array] at text
    obtain ⟨same, behind⟩ := stripped_bracketed_inj areBrackets_array
      (f := fun v => some (unstored v))
      (fun v hv w _ comma comma' hc hc' _ _ more more' same => by
        rw [dropChecksumMembers_item _ _ hc, dropChecksumMembers_item _ _ hc'] at same
        exact (row_inj (f := unstored) hc hc' (h v hv w (depth + 1)) same).imp_left
          (congrArg some))
      (fun v comma hc empty => by
        rw [dropChecksumMembers_item _ _ hc] at empty
        simp [row] at empty)
      (fun v comma hc _ more rest _ => by
        rw [dropChecksumMembers_item _ _ hc]
        exact row_ne_closing areBrackets_array _ _ _)
      ends ends' text
    have values (items : List Json) :
        items.filterMap (fun v => some (unstored v)) = items.map unstored :=
      congrFun (List.filterMap_eq_map (f := unstored)) items
    rw [values, values] at same
    exact ⟨by rw [unstored_array, unstored_array, same], behind⟩
  | bool b => cases b <;> cases mark
  | null | number | string | object => cases mark

/-- What is left of the line of a stored text is no other line. -/
theorem row_ne_remainder {α : Type} {depth : Nat} {piece : α → List Char} {x : α × List Char}
    {r : List Char} (h : IsRemainder r) (more more' : List Char) :
    row (depth + 1) piece x ++ more ≠ r ++ ['\n'] ++ more' := by
  obtain ⟨c, cs, text, start⟩ := h.start
  intro same
  have space : indent (depth + 1) = ' ' :: List.replicate (2 * depth + 1) ' ' := by
    rw [indent, ← List.replicate_succ]
    rfl
  rw [row_append, space, text] at same
  rw [← (List.cons.inj same).1] at start
  exact absurd start (by decide)

theorem remainder_ne_closing {r : List Char} (h : IsRemainder r) {closing : Char}
    (quote : closing ≠ '"') (inline : closing ≠ '\n') (depth : Nat) {more rest : List Char}
    (ends : EndsLine rest) : r ++ ['\n'] ++ more ≠ indent depth ++ closing :: rest := by
  obtain ⟨comma, behind, hcomma, rfl⟩ := ends
  intro same
  have line : r ++ '\n' :: more = (indent depth ++ closing :: comma) ++ '\n' :: behind := by
    simpa using same
  have inside : '\n' ∉ indent depth ++ closing :: comma := by
    simp [indent, hcomma.inline, inline.symm]
  have quotes := h.quote
  rw [(append_lineBreak_inj h.inline inside line).1] at quotes
  rcases hcomma with rfl | rfl <;> simp [indent, quote.symm] at quotes

theorem unstoredMember?_eq_none {m : String × Json} (h : storesText m = true) :
    unstoredMember? m = none :=
  if_pos h

/-- Rows of members are told apart, where they did not vanish. -/
theorem memberRow_inj {depth : Nat} {m m' : String × Json} (h : ToldStripped m.2)
    {comma comma' more more' : List Char} (hc : IsComma comma) (hc' : IsComma comma')
    (some : dropChecksumMembers true (row (depth + 1) (memberText (depth + 1)) (m, comma)) ≠ [])
    (some' : dropChecksumMembers true (row (depth + 1) (memberText (depth + 1)) (m', comma')) ≠ [])
    (same : dropChecksumMembers true (row (depth + 1) (memberText (depth + 1)) (m, comma)) ++ more =
      dropChecksumMembers true (row (depth + 1) (memberText (depth + 1)) (m', comma')) ++ more') :
    unstoredMember? m = unstoredMember? m' ∧ more = more' := by
  have remainder {m : String × Json} {comma : List Char} (hc : IsComma comma)
      (stores : storesText m = true)
      (some : dropChecksumMembers true (row (depth + 1) (memberText (depth + 1)) (m, comma)) ≠ []) :
      ∃ r, dropChecksumMembers true (row (depth + 1) (memberText (depth + 1)) (m, comma)) =
        r ++ ['\n'] ∧ IsRemainder r :=
    (dropChecksumMembers_stored (depth + 1) hc stores).resolve_left some
  cases stores : storesText m <;> cases stores' : storesText m'
  · rw [dropChecksumMembers_other _ hc stores, dropChecksumMembers_other _ hc' stores'] at same
    refine row_inj (f := unstoredMember?) hc hc' (fun rest rest' ends ends' text => ?_) same
    simp only [strippedMember, List.append_assoc, List.cons_append] at text
    obtain ⟨keys, values⟩ := stringText_append_inj text
    obtain ⟨value, behind⟩ := h m'.2 (depth + 1) rest rest' ends ends'
      (List.cons.inj (List.cons.inj values).2).2
    refine ⟨?_, behind⟩
    simp only [unstoredMember?, stores, stores', keys, value]
  · obtain ⟨r, left, remains⟩ := remainder hc' stores' some'
    rw [dropChecksumMembers_other _ hc stores, left] at same
    exact absurd same (row_ne_remainder remains _ _)
  · obtain ⟨r, left, remains⟩ := remainder hc stores some
    rw [dropChecksumMembers_other _ hc' stores', left] at same
    exact absurd same.symm (row_ne_remainder remains _ _)
  · obtain ⟨r, left, remains⟩ := remainder hc stores some
    obtain ⟨r', left', remains'⟩ := remainder hc' stores' some'
    rw [left, left', List.append_assoc, List.append_assoc] at same
    refine ⟨by rw [unstoredMember?_eq_none stores, unstoredMember?_eq_none stores'], ?_⟩
    exact (append_lineBreak_inj remains.inline remains'.inline same).2

theorem toldStripped_object {members : List (String × Json)}
    (h : ∀ m ∈ members, ToldStripped m.2) : ToldStripped (.object members) := by
  intro w depth rest rest' ends ends' text
  have mark := startMark_eq_of_stripped text
  cases w with
  | object members' =>
    rw [stripped, stripped, prettyAt_object, prettyAt_object] at text
    obtain ⟨same, behind⟩ := stripped_bracketed_inj areBrackets_object (f := unstoredMember?)
      (fun m hm m' _ comma comma' hc hc' some some' more more' same =>
        memberRow_inj (h m hm) hc hc' some some' same)
      (fun m comma hc empty => by
        cases stores : storesText m with
        | false =>
          rw [dropChecksumMembers_other _ hc stores] at empty
          simp [row] at empty
        | true => exact unstoredMember?_eq_none stores)
      (fun m comma hc some more rest ends => by
        cases stores : storesText m with
        | false =>
          rw [dropChecksumMembers_other _ hc stores]
          exact row_ne_closing areBrackets_object _ _ _
        | true =>
          obtain ⟨r, left, remains⟩ :=
            (dropChecksumMembers_stored (depth + 1) hc stores).resolve_left some
          rw [left]
          exact remainder_ne_closing remains (by decide) (by decide) depth ends)
      ends ends' text
    exact ⟨by rw [unstored_object, unstored_object, same], behind⟩
  | bool b => cases b <;> cases mark
  | null | number | string | array => cases mark

theorem toldStripped (v : Json) : ToldStripped v := by
  induction v using Json.induct with
  | null | bool | number | string => exact toldStripped_scalar rfl
  | array items h => exact toldStripped_array h
  | object members h => exact toldStripped_object h

/-! ### Documents told apart -/

theorem toList_strippedText_text (doc : Document) :
    (strippedText doc.text).toList = stripped 0 doc.toJson ++ ['\n'] := by
  have start : ∃ cs, prettyAt 0 doc.toJson ++ ['\n'] = '\x7b' :: cs := by
    obtain ⟨members⟩ := doc
    cases members <;> exact ⟨_, rfl⟩
  obtain ⟨cs, text⟩ := start
  have none : afterChecksumMember? ('\x7b' :: cs) = none :=
    afterChecksumMember?_of_ne (by decide) (by decide) cs
  have same :
      dropChecksumMembers true ('\x7b' :: cs) = dropChecksumMembers false ('\x7b' :: cs) := by
    rw [dropChecksumMembers_kept (.inr none), dropChecksumMembers_kept (.inl rfl)]
  rw [strippedText, Document.text, String.toList_ofList, String.toList_ofList, text, same, ← text,
    dropChecksumMembers_prettyAt, dropChecksumMembers_lineBreak, dropChecksumMembers_nil]

namespace Document

/-- No object below the root stores a text at a checksum key. -/
def StoresAtRoot (doc : Document) : Prop :=
  ∀ m ∈ doc.members, unstored m.2 = m.2

theorem withoutChecksums_eq_of_unstored {a b : Document} (ha : a.StoresAtRoot)
    (hb : b.StoresAtRoot) (h : unstored a.toJson = unstored b.toJson) :
    a.withoutChecksums = b.withoutChecksums := by
  have content {doc : Document} (h : doc.StoresAtRoot) :
      (doc.members.filterMap unstoredMember?).filter (fun m => isContent m.1) =
        doc.members.filter fun m => isContent m.1 := by
    obtain ⟨members⟩ := doc
    change ∀ m ∈ members, _ at h
    induction members with
    | nil => rfl
    | cons m members ih =>
      obtain ⟨here, others⟩ := List.forall_mem_cons.1 h
      have rest := ih others
      dsimp only at rest ⊢
      cases stores : storesText m with
      | false =>
        rw [List.filterMap_cons_some (b := m) (by simp [unstoredMember?, stores, here]),
          List.filter_cons, List.filter_cons, rest]
      | true =>
        have key : isContent m.1 = false := by
          obtain ⟨key, v⟩ := m
          cases v with
          | string s =>
            rw [storesText] at stores
            rw [isContent, stores]
            rfl
          | null | bool | number | array | object => cases stores
        rw [List.filterMap_cons_none (by simp [unstoredMember?, stores]), rest,
          List.filter_cons_of_neg (by simp [key])]
  rw [toJson, toJson, unstored_object, unstored_object, Json.object.injEq] at h
  rw [withoutChecksums, withoutChecksums, ← content ha, ← content hb, h]

end Document

/-- Documents whose texts become equal once they are stripped are equal but for the texts that
objects store at checksum keys. Where no object below the root stores any, they are equal but for
the checksum members of their roots. -/
theorem content_of_strippedText {a b : Document}
    (same : strippedText a.text = strippedText b.text) :
    unstored a.toJson = unstored b.toJson ∧
      (a.StoresAtRoot → b.StoresAtRoot → a.withoutChecksums = b.withoutChecksums) := by
  have texts : stripped 0 a.toJson ++ ['\n'] = stripped 0 b.toJson ++ ['\n'] := by
    rw [← toList_strippedText_text, ← toList_strippedText_text, same]
  have ends : EndsLine ['\n'] := ⟨[], [], .inl rfl, rfl⟩
  have told := (toldStripped a.toJson b.toJson 0 _ _ ends ends texts).1
  exact ⟨told, fun ha hb => Document.withoutChecksums_eq_of_unstored ha hb told⟩

/-! ### Documents with the same stripped text -/

/-- What is left of an object hangs on what is left of its first member. -/
theorem stripped_object_congr (depth : Nat) {m m' : String × Json} (rest : List (String × Json))
    (h : ∀ comma, IsComma comma →
      dropChecksumMembers true (row (depth + 1) (memberText (depth + 1)) (m, comma)) =
        dropChecksumMembers true (row (depth + 1) (memberText (depth + 1)) (m', comma))) :
    stripped depth (.object (m :: rest)) = stripped depth (.object (m' :: rest)) := by
  have text (m : String × Json) :=
    dropChecksumMembers_bracketed areBrackets_object depth (memberText (depth + 1))
      (List.cons_ne_nil m rest) []
  simp only [List.append_nil] at text
  rw [stripped, stripped, prettyAt_object, prettyAt_object, text, text]
  cases rest with
  | nil => simp only [withCommas, List.flatMap_cons, h [] (.inl rfl)]
  | cons n rest => simp only [withCommas, List.flatMap_cons, h [','] (.inr rfl)]

theorem dropChecksumMembers_congr {cs cs' r : List Char} (h : afterChecksumMember? cs = some r)
    (h' : afterChecksumMember? cs' = some r) :
    dropChecksumMembers true cs = dropChecksumMembers true cs' := by
  rw [dropChecksumMembers_member h, dropChecksumMembers_member h']

theorem strippedText_congr {a b : Document} (h : stripped 0 a.toJson = stripped 0 b.toJson) :
    strippedText a.text = strippedText b.text :=
  String.toList_injective (by rw [toList_strippedText_text, toList_strippedText_text, h])

/-- A spec that stores a checksum at its root. -/
def titled (key checksum title : String) : Document :=
  ⟨[(key, .string checksum), ("openapi", .string "3.0.3"),
    ("info", .object [("title", .string title), ("version", .number (.integer 1))])]⟩

/-- What stays of the line of a checksum with a quote in it tells neither its key nor all of its
text, but the title is told. -/
theorem content_of_strippedText_titled :
    strippedText (titled contentKey "a\"c" "T").text =
        strippedText (titled processedKey "b\"c" "T").text ∧
      (titled contentKey "a\"c" "T").withoutChecksums =
        (titled processedKey "b\"c" "T").withoutChecksums ∧
      strippedText (titled contentKey "a\"c" "T").text ≠
        strippedText (titled contentKey "a\"c" "U").text := by
  have root (key checksum title : String) : (titled key checksum title).StoresAtRoot := by
    simp only [Document.StoresAtRoot, titled, List.forall_mem_cons]
    exact ⟨rfl, rfl, rfl, fun m hm => absurd hm List.not_mem_nil⟩
  have same : strippedText (titled contentKey "a\"c" "T").text =
      strippedText (titled processedKey "b\"c" "T").text := by
    refine strippedText_congr (stripped_object_congr 0 _ fun comma h => ?_)
    rcases h with rfl | rfl
    · exact dropChecksumMembers_congr (r := "c\"\n".toList) (by decide) (by decide)
    · exact dropChecksumMembers_congr (r := "c\",\n".toList) (by decide) (by decide)
  refine ⟨same, (content_of_strippedText same).2 (root _ _ _) (root _ _ _), fun same => ?_⟩
  have told := (content_of_strippedText same).2 (root _ _ _) (root _ _ _)
  have titles (title : String) : (titled contentKey "a\"c" title).withoutChecksums.members =
      (titled contentKey "a\"c" title).members.drop 1 := rfl
  have members := congrArg Document.members told
  rw [titles, titles] at members
  simp [titled] at members

/-- A spec that stores a checksum in an object below its root. -/
def nestedStored (checksum : String) : Document :=
  ⟨[("info", .object [(checksumKey, .string checksum)])]⟩

theorem strippedText_nestedStored :
    strippedText (nestedStored "1").text = strippedText (nestedStored "2").text := by
  have inner : stripped 1 (.object [(checksumKey, .string "1")]) =
      stripped 1 (.object [(checksumKey, .string "2")]) := by
    refine stripped_object_congr 1 [] fun comma h => ?_
    rcases h with rfl | rfl <;>
      exact dropChecksumMembers_congr (r := ['\n']) (by decide) (by decide)
  refine strippedText_congr (stripped_object_congr 0 [] fun comma h => ?_)
  rw [dropChecksumMembers_other 0 h rfl, dropChecksumMembers_other 0 h rfl, row, row,
    strippedMember, strippedMember, inner]

/-- Below the root, a text at a checksum key is content, but it is dropped. -/
theorem nested_text_dropped :
    ¬ ∀ a b : Document, strippedText a.text = strippedText b.text →
      SameContent a.withoutChecksums.toJson b.withoutChecksums.toJson := by
  intro told
  have string {s t : String} (h : SameContent (.string s) (.string t)) : s = t := by
    cases h
    rfl
  cases told _ _ strippedText_nestedStored with
  | object _ values =>
    have info := values _ List.mem_cons_self _ List.mem_cons_self rfl
    cases info with
    | object _ values =>
      have stored := values _ List.mem_cons_self _ List.mem_cons_self rfl
      exact absurd (string stored) (by decide)

end OpenApiModels.Spec
