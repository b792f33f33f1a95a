import OpenApiModels.Proofs.ModelFile.CalmFiles
import OpenApiModels.Proofs.Retyping.BrandedSupport

/-!
# The import of `Branded` in the files of a spec

Where an enum of a model file becomes a branded string, one import of `Branded` comes behind the
other imports, as long as nothing else in the file passes for an import (`imports_branded`). The
line breaks of a description stay in its comment, though, so that one of its lines can pass for the
last import (`description_takes_import`).
-/

namespace OpenApiModels.ModelFile

open Retyping TypeScript Workspace

/-- Nothing in the file besides its imports passes for an import, and none for one of `Branded`. -/
structure HoldsNoImport (o : LayoutOptions) (f : ModelFile) : Prop where
  oneLine : IsOneLine o
  words : f.HasWords
  unbranded : ∀ n ∈ f.imports, StaysUnbranded n
  quiet : ∀ d ∈ f.descriptions, IsQuietComment o d

variable {dialect : Dialect} {m : Model} {f : ModelFile} {o : LayoutOptions} {rel : Location}
  {treeNames : List String} {limit : Nat} {mode : EnumMode} {cs : List Char}

/-- In a model file that gets branded strings, before or behind the union transform, the import of
`Branded` is the only change beside those of the declarations and names. It stands between the other
imports and the first declaration, and leads to the support file. -/
theorem imports_branded (hf : f ∈ ofModel dialect m) (plain : HoldsNoImport o f)
    (named : rel.Named) (below : rel ≠ []) {unions : List Transform}
    (areUnions : ∀ t ∈ unions, t = .union) {renames : List Rename}
    (passes : Passes ⟨Location.path rel, treeNames⟩ unions (f.text o) cs renames)
    (brands : Brands (.bySize limit mode) ⟨Location.path rel, treeNames⟩ cs) :
    ∃ r after,
      ((Transform.bySize limit mode).apply ⟨Location.path rel, treeNames⟩ cs).value =
        .ok (some r) ∧
      (Transform.bySize limit mode).RetypesTo ⟨Location.path rel, treeNames⟩ cs after ∧
      ImportsBrandedOnce (Location.path rel) after r.text ∧
      ∀ (w : Workspace) (place : Location),
        (∀ a b, rel = a ++ b → b ≠ [] → w.isDirectoryAt (place ++ a) = true) →
        w.resolve? (place ++ rel) (importPath (Location.path rel)) = some (supportPlace place) := by
  -- the file is arranged as it is generated, and the union transform keeps it so
  obtain ⟨text, arranged⟩ :=
    isArranged_of_mem_ofModel hf plain.words plain.unbranded plain.oneLine plain.quiet
  rw [text] at passes
  obtain ⟨imports, statements, rfl, arranged⟩ := arranged.passes areUnions passes
  -- a planned replacement is carried out
  obtain ⟨s, decls, read, scanned, d, mem, c, planned, isBranded⟩ := brands
  obtain ⟨cut, -, apply⟩ := exists_retyped_of_plan read scanned mem planned
  have supported := (Retyped.support_ne_nil_iff apply).2
    ⟨s, decls, read, scanned, d, mem, c, planned, isBranded⟩
  obtain ⟨after, retypes, once⟩ := arranged.apply_imports apply supported
  exact ⟨_, after, apply, retypes, once, fun w place directories =>
    resolve?_importPath named below directories⟩

/-- Whether a transform brands enums of the text, and the modules that the new text imports
`Branded` from. -/
def brandedSources (transform : Transform) (path : String) (cs : List Char) :
    Option (Bool × Option (List (List Char))) :=
  match (transform.apply ⟨path, []⟩ cs).value with
  | .ok (some r) => some (r.support != [], (bareTokens r.text).map (importSources "Branded"))
  | _ => none

theorem exists_of_brandedSources {transform : Transform} {path : String}
    {sources : Option (List (List Char))}
    (h : brandedSources transform path cs = some (true, sources)) :
    Brands transform ⟨path, []⟩ cs ∧ ∃ r, (transform.apply ⟨path, []⟩ cs).value = .ok (some r) ∧
      (bareTokens r.text).map (importSources "Branded") = sources := by
  unfold brandedSources at h
  split at h
  · rename_i r apply
    obtain ⟨supported, same⟩ := Prod.mk.inj (Option.some.inj h)
    exact ⟨(Retyped.support_ne_nil_iff apply).1 (bne_iff_ne.1 supported), r, apply, same⟩
  · cases h

/-! ### An import behind another one -/

/-- A spec with listed values in a property of an object that refers to a pet. -/
def orderOfPet : Model where
  info := {}
  components := [("order", .inline { types := [.object], description := some "May import pets." }
    [("kind", .inline { types := [.string], enumValues := [.string "a"] } [] none none [] [] []),
      ("pet", .ref "#/components/schemas/pet")] none none [] [] [])]
  definitions := []

def titled : LayoutOptions :=
  ⟨"T", "1", true⟩

theorem holdsNoImport_orderOfPet : ∀ f ∈ ofModel .openapi30 orderOfPet, HoldsNoImport titled f := by
  intro f hf
  have names : f.declared ++ f.references = ["Order", "OrderKindEnum", "Pet"] := by
    revert f
    decide +kernel
  have imports : f.imports = ["Pet"] := by
    revert f
    decide +kernel
  have descriptions : f.descriptions = [some "May import pets.", none, none, none] := by
    revert f
    decide +kernel
  refine ⟨by decide, ?_, ?_, ?_⟩
  · rw [HasWords, names]
    simp only [List.forall_mem_cons]
    exact ⟨Token.isName_of_chars rfl (by decide), Token.isName_of_chars rfl (by decide),
      Token.isName_of_chars rfl (by decide), fun _ none => nomatch none⟩
  · rw [imports, List.forall_mem_singleton]
    intro n
    have same : baseName^[n] "Pet" = "Pet" := Function.iterate_fixed (by decide) n
    rw [same]
    decide
  · rw [descriptions]
    unfold IsQuietComment
    decide +kernel

theorem imports_branded_orderOfPet : ∃ f ∈ ofModel .openapi30 orderOfPet, HoldsNoImport titled f ∧
    Location.Named ["models", "Order.ts"] ∧ ["models", "Order.ts"] ≠ [] ∧
    Passes ⟨Location.path ["models", "Order.ts"], []⟩ [] (f.text titled) (f.text titled) [] ∧
    Brands (.bySize 1 .branded) ⟨Location.path ["models", "Order.ts"], []⟩ (f.text titled) ∧
    ∃ r after,
      ((Transform.bySize 1 .branded).apply ⟨Location.path ["models", "Order.ts"], []⟩
        (f.text titled)).value = .ok (some r) ∧
      (Transform.bySize 1 .branded).RetypesTo ⟨Location.path ["models", "Order.ts"], []⟩
        (f.text titled) after ∧
      ImportsBrandedOnce (Location.path ["models", "Order.ts"]) after r.text ∧
      ∀ (w : Workspace) (place : Location),
        (∀ a b, ["models", "Order.ts"] = a ++ b → b ≠ [] → w.isDirectoryAt (place ++ a) = true) →
        w.resolve? (place ++ ["models", "Order.ts"])
          (importPath (Location.path ["models", "Order.ts"])) = some (supportPlace place) := by
  have brands : ∀ f ∈ ofModel .openapi30 orderOfPet, brandedSources (.bySize 1 .branded)
      (Location.path ["models", "Order.ts"]) (f.text titled) =
        some (true, some ["\"../branded\"".toList]) := by decide +kernel
  obtain ⟨f, hf⟩ : ∃ f, f ∈ ofModel .openapi30 orderOfPet := ⟨_, List.mem_cons_self⟩
  have plain := holdsNoImport_orderOfPet f hf
  have branded := (exists_of_brandedSources (brands f hf)).1
  have named : Location.Named ["models", "Order.ts"] := by decide
  have below : ["models", "Order.ts"] ≠ [] := by decide
  exact ⟨f, hf, plain, named, below, .nil _, branded,
    imports_branded hf plain named below (fun _ none => absurd none List.not_mem_nil) (.nil _)
      branded⟩

/-! ### Imports in descriptions -/

/-- A spec of listed values with a description. -/
def kindOf (description : String) : Model where
  info := {}
  components := [("Kind", .inline
    { types := [.string], description := some description, enumValues := [.string "a"] }
    [] none none [] [] [])]
  definitions := []

/-- A line of the description passes for the last import, so the import is put behind it, into the
comment. -/
theorem description_takes_import :
    ∃ f ∈ ofModel .openapi30 (kindOf "The kinds of\nimport; see the manual."),
      Brands (.bySize 1 .branded) ⟨"models/Kind.ts", []⟩ (f.text titled) ∧
      ∃ r, ((Transform.bySize 1 .branded).apply ⟨"models/Kind.ts", []⟩ (f.text titled)).value =
          .ok (some r) ∧
        ∀ after, ¬ ImportsBrandedOnce "models/Kind.ts" after r.text := by
  have sources : ∀ f ∈ ofModel .openapi30 (kindOf "The kinds of\nimport; see the manual."),
      brandedSources (.bySize 1 .branded) "models/Kind.ts" (f.text titled) =
        some (true, some []) := by decide +kernel
  obtain ⟨f, hf⟩ : ∃ f, f ∈ ofModel .openapi30 (kindOf "The kinds of\nimport; see the manual.") :=
    ⟨_, List.mem_cons_self⟩
  obtain ⟨branded, r, apply, none⟩ := exists_of_brandedSources (sources f hf)
  refine ⟨f, hf, branded, r, apply, ?_⟩
  rintro after ⟨imports, t, ts, -, -, reads, once⟩
  rw [reads, Option.map_some, once] at none
  cases none

end OpenApiModels.ModelFile
