import OpenApiModels.Proofs.Retyping.LeftDeclarations
import OpenApiModels.Proofs.Retyping.Postprocessing
import OpenApiModels.Proofs.Retyping.Tracing
import OpenApiModels.Proofs.TypeScript.InterfaceKeys

/-!
# Interfaces behind a run

Where a file starts with an interface and exported enums with the suffix stand behind it, the
default transforms keep the interface and its fields. Only names in it are followed
(`exists_interface_after`).
-/

namespace OpenApiModels.Retyping

open Text TypeScript

/-- Tokens that end with the first interface, which has these fields. -/
structure EndsInterface (front : List Token) (groups : List (List Token)) : Prop where
  fields : ∀ behind, HasInterface (front ++ behind) groups
  enums : TypeScript.Followed "enum" Token.Continues front
  closed : front.getLast? = some (.mark [] '\x7d')

/-- The tokens of an exported enum with a name and a body. -/
def exportedEnum (row : String × List Token) : List Token :=
  .word [] "export" :: .word [] "enum" :: .word [] row.1 :: .mark [] '\x7b' ::
    (row.2 ++ [.mark [] '\x7d'])

/-- The file starts with an interface, behind which stand only exported enums with the suffix. -/
structure DeclaresInterface (cs : List Char) (front : List Token) (groups : List (List Token))
    (rows : List (String × List Token)) : Prop where
  reads : bareTokens cs = some (front ++ rows.flatMap exportedEnum)
  ends : EndsInterface front groups
  balanced : ∀ row ∈ rows, braces 0 row.2 = some 0
  suffixed : ∀ row ∈ rows, baseName row.1 ≠ row.1

variable {cs : List Char} {front : List Token} {groups : List (List Token)}
  {rows : List (String × List Token)} {file : FileContext}

/-! ### Scanning -/

/-- Before tokens that start nothing a scan finds nothing. -/
theorem enumDecls_append {us : List Token} (h : TypeScript.Followed "enum" Token.Continues us)
    (before ts : List Token) :
    enumDecls before (us ++ ts) = enumDecls (us.reverse ++ before) ts := by
  induction us generalizing before with
  | nil => rfl
  | cons t us ih =>
    obtain ⟨first, others⟩ := followed_cons.1 h
    rw [List.cons_append, enumDecls_token, ih others, List.reverse_cons, List.append_assoc]
    · rfl
    · cases isEnum : t.isWord "enum" with
      | false => exact not_startsDecl isEnum _
      | true =>
        obtain ⟨u, b, rfl, mark⟩ := first isEnum
        cases more : b ++ ts with
        | nil => exact fun starts => by rw [List.cons_append, more] at starts; exact starts
        | cons v more' =>
          rw [List.cons_append, more]
          rintro ⟨-, -, word, -⟩
          rw [mark.1] at word
          cases word

/-- The scan finds the exported enums. -/
theorem exists_enumDecls {ts : List Token} (same : ts.map Token.bare = rows.flatMap exportedEnum)
    (balanced : ∀ row ∈ rows, braces 0 row.2 = some 0) (before : List Token) :
    ∃ decls, enumDecls before ts = .ok decls ∧
      ∀ d ∈ decls, d.exported = true ∧ ∃ row ∈ rows, d.name = row.1 := by
  induction rows generalizing ts before with
  | nil =>
    obtain rfl := List.map_eq_nil_iff.1 same
    exact ⟨[], enumDecls_short (by simp), fun d hd => absurd hd List.not_mem_nil⟩
  | cons row rows ih =>
    obtain ⟨first, others⟩ := List.forall_mem_cons.1 balanced
    obtain ⟨name, body⟩ := row
    simp only [List.flatMap_cons, exportedEnum, List.cons_append, List.append_assoc] at same
    obtain ⟨t, _, rfl, isExport, behindExport⟩ := List.map_eq_cons_iff.1 same
    obtain ⟨keyword, _, rfl, isEnum, behindKeyword⟩ := List.map_eq_cons_iff.1 behindExport
    obtain ⟨ident, _, rfl, isName, behindName⟩ := List.map_eq_cons_iff.1 behindKeyword
    obtain ⟨brace, _, rfl, isBrace, behindBrace⟩ := List.map_eq_cons_iff.1 behindName
    obtain ⟨inner, _, rfl, rfl, behindBody⟩ := List.map_eq_append_iff.1 behindBrace
    obtain ⟨close, rest, rfl, isClose, more⟩ := List.map_eq_cons_iff.1 behindBody
    obtain ⟨decls, scanned, found⟩ := ih more others [close]
    have exports : t.isWord "export" = true := congrArg (·.isWord "export") isExport
    have notPoint : t.isMark '.' = false := congrArg (·.isMark '.') isExport
    have modifier : t.isModifier = true := congrArg Token.isModifier isExport
    have starts : StartsDecl ((t :: before).head?.any (·.isMark '.'))
        (keyword :: ident :: brace :: (inner ++ close :: rest)) :=
      ⟨congrArg (·.isWord "enum") isEnum, notPoint, congrArg Token.kind isName,
        congrArg (·.isMark '\x7b') isBrace⟩
    have closed : braces 0 inner = some 0 := by
      rw [braces, List.foldlM_map] at first
      exact first
    have scan := enumDecls_enum starts closed (congrArg (·.isMark '\x7d') isClose) scanned
    refine ⟨_, (enumDecls_token (not_startsDecl ?_ _)).trans scan,
      List.forall_mem_cons.2 ⟨⟨?_, ?_⟩, ?_⟩⟩
    · exact congrArg (·.isWord "enum") isExport
    · change List.any (List.reverse _) _ = true
      rw [List.any_reverse, List.takeWhile_cons_of_pos modifier, List.any_cons, exports,
        Bool.true_or]
    · refine ⟨_, List.mem_cons_self, ?_⟩
      exact (congrArg Token.name isName).trans String.ofList_toList
    · intro d hd
      obtain ⟨exported, row, hrow, name⟩ := found d hd
      exact ⟨exported, row, List.mem_cons_of_mem _ hrow, name⟩

theorem DeclaresInterface.exists_scans (h : DeclaresInterface cs front groups rows) :
    ∃ s decls, Scans cs s decls ∧ ∀ d ∈ decls, d.exported = true ∧ baseName d.name ≠ d.name := by
  obtain ⟨reads, ends, balanced, suffixed⟩ := h
  obtain ⟨s, read, tokens⟩ := Option.map_eq_some_iff.1 reads
  obtain ⟨us, ts, split, isFront, rest⟩ := List.map_eq_append_iff.1 tokens
  have enums : TypeScript.Followed "enum" Token.Continues us :=
    TypeScript.Followed.bare (fun _ => id) (isFront ▸ ends.enums)
  obtain ⟨decls, scanned, found⟩ := exists_enumDecls rest balanced us.reverse
  refine ⟨s, decls, ⟨mem_toOption.1 read, ?_⟩, fun d hd => ?_⟩
  · rw [split, enumDecls_append enums, List.append_nil, scanned]
  · obtain ⟨exported, row, hrow, name⟩ := found d hd
    exact ⟨exported, name ▸ suffixed row hrow⟩

/-! ### The union transform -/

/-- Tokens in front of all declarations stay where a transform brands nothing, apart from the names
that are followed. -/
theorem exists_behind_of_apply {transform : Transform} {r : Retyped} {behind : List Token}
    (reads : bareTokens cs = some (front ++ behind)) (ends : EndsInterface front groups)
    (apply : (transform.apply file cs).value = .ok (some r)) (unbranded : r.support = []) :
    ∃ behind', bareTokens r.text =
      some (renameTokens (transform.renamesIn file cs) false (front ++ behind')) := by
  obtain ⟨cut⟩ := exists_cut apply
  obtain rfl := eq_retyped_of_apply cut apply
  obtain ⟨s, read, tokens⟩ := Option.map_eq_some_iff.1 reads
  obtain rfl := Except.ok.inj (cut.read.symm.trans (mem_toOption.1 read))
  obtain ⟨us, ts, split, rfl, -⟩ := List.map_eq_append_iff.1 tokens
  have enums : TypeScript.Followed "enum" (fun t => t.kind ≠ .word) us :=
    (TypeScript.Followed.bare (fun _ => id) ends.enums).mono fun t mark word => by
      rw [mark.1] at word
      cases word
  have last : ∀ t, us.getLast? = some t → t.isModifier = false := by
    intro t isLast
    have closed := ends.closed
    rw [List.getLast?_map, isLast] at closed
    exact congrArg Token.isModifier (Option.some.inj closed)
  obtain ⟨pieces, rest, -, -, retyped⟩ :=
    exists_behind_front (cut.tokens_eq.symm.trans split) enums last
  have sound : (transform.choose cut.source.words file).Sound := transform.sound_choose
  refine ⟨(pieces.retyped (transform.choose cut.source.words file) ++ rest).map Token.bare, ?_⟩
  rw [text_of_unbranded unbranded, Cut.afterText, bareTokens_of_stable (cut.stable_after sound),
    Cut.after, retyped, map_bare_renameTokens, List.map_append, cut.renamesIn_eq]

/-- All renames of exported enums are followed in other files. -/
theorem renames_of_exported {cut : Cut cs} {choose : Choice} {path : String}
    (exported : ∀ p ∈ cut.pieces, p.2.decl.exported = true) :
    (cut.retyped choose path).renames = cut.renames choose := by
  have all : (cut.ordered choose).filter (·.exported) = cut.ordered choose := by
    refine List.filter_eq_self.2 fun c hc => ?_
    obtain ⟨p, hp, planned⟩ := List.mem_filterMap.1 (List.mem_reverse.1 hc)
    obtain ⟨⟨name, type⟩, -, rfl⟩ := Option.map_eq_some_iff.1 planned
    exact exported p hp
  rw [Cut.renames, ← all]
  rfl

/-! ### The run -/

variable {files : List TreeFile} {done later : List (String × List Char)} {path : String}
  {limit : Nat} {mode : EnumMode}

theorem exists_fileAfter (split : decoded files = done ++ (path, cs) :: later)
    (transforms : List Transform) :
    ∃ f, (filesAfter transforms files)[done.length]? = some f := by
  have place : ((filesAfter transforms files).map fun f => (f.path, f.stored))[done.length]? =
      some (path, cs) := by
    rw [map_filesAfter, split, List.getElem?_append_right (Nat.le_refl _), Nat.sub_self]
    rfl
  rw [List.getElem?_map] at place
  obtain ⟨f, result, -⟩ := Option.map_eq_some_iff.1 place
  exact ⟨f, result⟩

/-- Behind the transforms of its file, the interface is left with the names followed that the file
declares. -/
theorem DeclaresInterface.exists_behind_visit (h : DeclaresInterface cs front groups rows)
    {f : FileState} {renames : List Rename}
    (visit : Visit (defaultTransforms limit mode) file cs f renames) : f.failed = false ∧
      ∃ own behind, own ⊆ renames ∧ (∀ r ∈ own, DropsSuffix r) ∧
        bareTokens f.current = some (renameTokens own false (front ++ behind)) := by
  obtain ⟨s, decls, scans, found⟩ := h.exists_scans
  obtain ⟨notFailed, same | ⟨r, apply, text, followed⟩⟩ :=
    visit.of_default scans fun d hd => (found d hd).2
  · refine ⟨notFailed, [], rows.flatMap exportedEnum, List.nil_subset _,
      fun r hr => absurd hr List.not_mem_nil, ?_⟩
    rw [same, renameTokens_nil]
    exact h.reads
  · obtain ⟨behind, reads⟩ :=
      exists_behind_of_apply h.reads h.ends apply (support_of_union apply)
    refine ⟨notFailed, Transform.union.renamesIn file cs, behind, ?_, fun rename hr => ?_, ?_⟩
    · obtain ⟨cut⟩ := scans.exists_cut
      obtain ⟨-, rfl⟩ := scans.unique ⟨cut.read, cut.scanned⟩
      obtain rfl := eq_retyped_of_apply cut apply
      rw [renames_of_exported fun p hp => (found _ (List.mem_map_of_mem hp)).1] at followed
      rw [cut.renamesIn_eq]
      exact followed
    · exact (Transform.planned_renamesIn scans.read hr).1
    · rw [text, reads]

/-- A run keeps the interface and its fields, apart from the names that it follows. -/
theorem DeclaresInterface.exists_interface_after (h : DeclaresInterface cs front groups rows)
    (split : decoded files = done ++ (path, cs) :: later) : ∃ f own ts,
      (filesAfter (defaultTransforms limit mode) files)[done.length]? = some f ∧
      f.failed = false ∧
      own ⊆ (transformAll (defaultTransforms limit mode) files).value.renames ∧
      bareTokens f.current = some ts ∧ HasInterface ts
        ((groups.map (renameTokens own false)).map (renameTokens
          (transformAll (defaultTransforms limit mode) files).value.renames false)) := by
  obtain ⟨f, result⟩ := exists_fileAfter split (defaultTransforms limit mode)
  obtain ⟨f₀, renames, visit, subset, followed⟩ := exists_visit_at split result
  obtain ⟨notFailed, own, behind, ownSubset, drops, reads⟩ := h.exists_behind_visit visit
  obtain ⟨s, read, tokens⟩ := Option.map_eq_some_iff.1 reads
  have all : ∀ r ∈ (transformAll (defaultTransforms limit mode) files).value.renames,
      DropsSuffix r := fun r hr => ((transformAll_visits _ files).safe r hr).toDropsSuffix
  have failed : f.failed = false := by
    cases followed with
    | same => exact notFailed
    | renamed found => exact found
  obtain ⟨s', read', tokens'⟩ := followed.ofText? failed all (mem_toOption.1 read)
  refine ⟨f, own, s'.tokens.map Token.bare, result, failed, List.Subset.trans ownSubset subset, ?_,
    ?_⟩
  · rw [bareTokens, read']
    rfl
  · rw [tokens', map_bare_renameTokens, tokens]
    exact ((h.ends.fields behind).rename drops).rename all

end OpenApiModels.Retyping
