import OpenApiModels.Proofs.Text.Finding
import OpenApiModels.Proofs.TypeScript.TypeLexemes
import OpenApiModels.TypeScript.Type

/-!
# What the texts of types say

The text of a type says what the texts of its parts say, put together: parentheses stand where a
part would be split by what is written around it. They are missing in one place, where a union that
starts with a brace is part of an intersection (`SplitsInside`).
-/

namespace OpenApiModels.TypeScript

open Text

namespace TypeTree

/-- A word for a type that admits null. -/
def admitsNull : TypeTree → Bool
  | .atom text => text == "unknown".toList || text == "null".toList
  | _ => false

/-- The type with null as an alternative, unless it admits null already. -/
def orNull (t : TypeTree) : TypeTree :=
  if t.admitsNull then t else combine .union [t, .atom "null".toList]

theorem admitsNull_iff {t : TypeTree} :
    t.admitsNull = true ↔ t = .atom "unknown".toList ∨ t = .atom "null".toList := by
  cases t <;> simp [admitsNull]

end TypeTree

/-! ### Legible texts -/

/-- The text says the type, and what is around it can tell by the signs in it how tightly it holds
together. Words are written as they are. -/
structure Legible (text : List Char) (t : TypeTree) : Prop where
  reads : Says (.operator .union) text t
  factor (plain : ¬ [' ', '|', ' '] <:+: text) : Says (.operator .intersection) text t
  operand (noUnion : '|' ∉ text) (noIntersection : '&' ∉ text) : Says .operand text t
  word {w : List Char} (chars : w.all isAtomChar = true) (isWord : t = .atom w) : text = w

/-- The text says a union, and it starts like the text of a type in braces. -/
def SplitsInside (text : List Char) : Prop :=
  text.head? = some '\x7b' ∧ ∃ ts, ReadsAsType text (.combined .union ts)

theorem mem_of_sign (op : Operator) {text : List Char} (h : [' ', op.sign, ' '] <:+: text) :
    op.sign ∈ text :=
  h.subset (List.mem_cons_of_mem _ List.mem_cons_self)

theorem sign_mem_intercalate (op : Operator) {α : Type} (write : α → List Char) (p q : α)
    (rest : List α) : [' ', op.sign, ' '] <:+:
      List.intercalate [' ', op.sign, ' '] ((p :: q :: rest).map write) :=
  ⟨write p, List.intercalate [' ', op.sign, ' '] ((q :: rest).map write), by
    simp only [List.map_cons, List.intercalate_cons_cons]⟩

theorem isInside_intercalate {sep part : List Char} {parts : List (List Char)}
    (h : part ∈ parts) : part <:+: List.intercalate sep parts := by
  induction parts with
  | nil => exact absurd h List.not_mem_nil
  | cons first rest ih =>
    cases rest with
    | nil =>
      obtain rfl := List.mem_singleton.1 h
      exact ⟨[], [], by simp⟩
    | cons second rest =>
      rw [List.intercalate_cons_cons]
      rcases List.mem_cons.1 h with rfl | h
      · exact ⟨[], _, by rw [List.nil_append, List.append_assoc]⟩
      · exact (ih h).trans (List.suffix_append _ _).isInfix

namespace Legible

variable {text : List Char} {t : TypeTree}

theorem of_operand (h : Says .operand text t) (noWord : ∀ w, t ≠ .atom w) : Legible text t where
  reads := h.to_union
  factor _ := h.loosen .intersection
  operand _ _ := h
  word _ isWord := absurd isWord (noWord _)

theorem atom (h : IsAtom text) : Legible text (.atom text) where
  reads := (Says.atom h).to_union
  factor _ := (Says.atom h).loosen .intersection
  operand _ _ := Says.atom h
  word _ isWord := TypeTree.atom.inj isWord

theorem array (h : Legible text t) : Legible (TypeExpr.arrayText text) (.array t) := by
  refine of_operand ?_ nofun
  unfold TypeExpr.arrayText
  split
  · simpa using h.reads.parentheses.array
  · rename_i signs
    simp only [Bool.or_eq_true, List.contains_iff_mem, not_or] at signs
    exact (h.operand signs.1 signs.2).array

theorem record (h : Legible text t) :
    Legible ("Record<string, ".toList ++ text ++ ['>'])
      (.apply "Record".toList [.atom "string".toList, t]) :=
  of_operand h.reads.record nofun

theorem parenthesizeUnion (h : Legible text t) :
    Legible (TypeExpr.parenthesizeUnion text) t := by
  unfold TypeExpr.parenthesizeUnion
  split
  · rename_i union
    rw [Bool.and_eq_true, containsText_iff] at union
    refine ⟨h.reads.parentheses.to_union, fun _ => h.reads.parentheses.loosen .intersection,
      fun _ _ => h.reads.parentheses, fun chars isWord => ?_⟩
    have same := h.word chars isWord
    have mem : ' ' ∈ text := union.1.subset List.mem_cons_self
    have blank := List.all_eq_true.1 chars ' ' (same ▸ mem)
    cases blank
  · exact h

theorem of_union {ts : List TypeTree} (h : Says (.operator .union) text (.combined .union ts))
    (sign : [' ', '|', ' '] <:+: text) : Legible text (.combined .union ts) where
  reads := h
  factor plain := absurd sign plain
  operand noUnion _ := absurd (mem_of_sign .union sign) noUnion
  word _ isWord := nomatch isWord

theorem text_eq_iff (h : Legible text t) {w : List Char} (nonempty : w ≠ [])
    (chars : w.all isAtomChar = true) : text = w ↔ t = .atom w := by
  constructor
  · rintro rfl
    have atom : Says .operand text (.atom text) := .atom (.word nonempty chars)
    exact atom.readsAsType_iff.1 (h.reads.readsAsType_iff.2 rfl)
  · exact h.word chars

theorem orNull (h : Legible text t) : Legible (TypeExpr.orNullText text) t.orNull := by
  have null : Says .operand "null".toList (.atom "null".toList) :=
    .atom (.word (by decide) (by decide))
  have admits : t.admitsNull = true ↔ text = "unknown".toList ∨ text = "null".toList := by
    rw [TypeTree.admitsNull_iff, h.text_eq_iff (w := "unknown".toList) (by decide) (by decide),
      h.text_eq_iff (w := "null".toList) (by decide) (by decide)]
  rw [TypeExpr.orNullText, TypeTree.orNull]
  by_cases admitsNull : t.admitsNull = true
  · rwa [if_pos admitsNull, if_pos (admits.1 admitsNull)]
  · have whole := h.parenthesizeUnion.reads.combine (null.loosen .union)
    rw [if_neg admitsNull, if_neg (mt admits.2 admitsNull)]
    exact of_union whole ⟨TypeExpr.parenthesizeUnion text, "null".toList, by simp⟩

theorem readsAsType_iff (h : Legible text t) {u : TypeTree} : ReadsAsType text u ↔ u = t :=
  h.reads.readsAsType_iff

theorem reads_factor (h : Legible text t) (whole : ¬ SplitsInside text) :
    Says (.operator .intersection) (TypeExpr.parenthesizeUnion text) t := by
  unfold TypeExpr.parenthesizeUnion
  split
  · exact h.reads.parentheses.loosen .intersection
  · rename_i bare
    by_cases sign : [' ', '|', ' '] <:+: text
    · rw [containsText_iff.2 sign, Bool.true_and, bne_iff_ne, Classical.not_not] at bare
      obtain ⟨ts, spans, rfl⟩ := h.reads.exists_spans
      match ts with
      | [] => exact absurd rfl spans.ne_nil
      | [t] => exact spans.single
      | _ :: _ :: _ => exact absurd ⟨bare, _, h.readsAsType_iff.2 rfl⟩ whole
    · exact h.factor sign

theorem sign_of_splits (h : Legible text t) (splits : SplitsInside text) :
    [' ', '|', ' '] <:+: text := by
  obtain ⟨brace, ts, reads⟩ := splits
  refine Classical.byContradiction fun plain => ?_
  exact (h.factor plain).not_union brace ts (h.readsAsType_iff.1 reads).symm

theorem exists_spans (h : Legible text t) :
    ∃ ts, Spans (TypeExpr.parenthesizeUnion text) ts ∧ (SplitsInside text → 2 ≤ ts.length) := by
  obtain ⟨ts, spans, rfl⟩ := h.parenthesizeUnion.reads.exists_spans
  refine ⟨ts, spans, fun ⟨brace, us, reads⟩ => ?_⟩
  have bare : TypeExpr.parenthesizeUnion text = text := by
    simp [TypeExpr.parenthesizeUnion, brace]
  rw [bare] at spans
  exact spans.two_le_of_union brace (h.readsAsType_iff.1 reads).symm

section Parts

variable {α : Type} {parts : List α} {write : α → List Char} {read : α → TypeTree}

theorem union (nonempty : parts ≠ []) (each : ∀ p ∈ parts, Legible (write p) (read p)) :
    Legible (List.intercalate [' ', '|', ' '] (parts.map write))
      (.combine .union (parts.map read)) := by
  match parts with
  | [] => exact absurd rfl nonempty
  | [p] => simpa using each p List.mem_cons_self
  | p :: q :: rest =>
    have whole := Says.join .union write read nonempty fun r hr => (each r hr).reads
    exact of_union whole (sign_mem_intercalate .union write p q rest)

/-- Where no union is split, an intersection is that of its parts. -/
theorem intersection (nonempty : parts ≠ []) (each : ∀ p ∈ parts, Legible (write p) (read p))
    (grouped : parts.length ≤ 1 ∨ ∀ p ∈ parts, ¬ SplitsInside (write p)) :
    Legible (List.intercalate [' ', '&', ' ']
      (parts.map fun p => TypeExpr.parenthesizeUnion (write p)))
      (.combine .intersection (parts.map read)) := by
  match parts with
  | [] => exact absurd rfl nonempty
  | [p] => simpa using (each p List.mem_cons_self).parenthesizeUnion
  | p :: q :: rest =>
    have whole := grouped.resolve_left (by simp)
    have reads := Says.join .intersection (fun r => TypeExpr.parenthesizeUnion (write r))
      read nonempty fun r hr => (each r hr).reads_factor (whole r hr)
    have sign := mem_of_sign .intersection (sign_mem_intercalate .intersection
      (fun r => TypeExpr.parenthesizeUnion (write r)) p q rest)
    exact ⟨reads.to_union, fun _ => reads, fun _ noSign => absurd sign noSign,
      fun _ isWord => nomatch isWord⟩

/-- Where a union is split, what is written is a union. -/
theorem exists_split {p : α} (mem : p ∈ parts)
    (each : ∀ p ∈ parts, Legible (write p) (read p)) (splits : SplitsInside (write p)) :
    ∃ ts, Legible (List.intercalate [' ', '&', ' ']
      (parts.map fun p => TypeExpr.parenthesizeUnion (write p))) (.combined .union ts) := by
  obtain ⟨vs, spans, long⟩ := Spans.meet_all
    (fun r => TypeExpr.parenthesizeUnion (write r)) (fun r => SplitsInside (write r))
    (List.ne_nil_of_mem mem) fun r hr => (each r hr).exists_spans
  have reads := spans.reads
  rw [TypeTree.combine_of_two_le (long p mem splits)] at reads
  have bare : TypeExpr.parenthesizeUnion (write p) = write p := by
    simp [TypeExpr.parenthesizeUnion, splits.1]
  have sign := bare ▸ (each p mem).sign_of_splits splits
  exact ⟨_, of_union reads (sign.trans (isInside_intercalate (List.mem_map_of_mem mem)))⟩

/-- The properties of an object with their keys. -/
theorem object (key : α → List Char) (required : α → Bool) (keys : ∀ p ∈ parts, IsAtom (key p))
    (each : ∀ p ∈ parts, Legible (write p) (read p)) :
    Legible ('\x7b' :: ' ' :: List.intercalate [';', ' '] (parts.map fun p =>
        key p ++ (if required p then [] else ['?']) ++ ':' :: ' ' :: write p) ++ [' ', '\x7d'])
      (.object (parts.map fun p => (key p, required p, read p))) :=
  of_operand (Says.object key required write read keys fun p hp => (each p hp).reads) nofun

end Parts

end Legible

end OpenApiModels.TypeScript
