import Mathlib.Data.List.Induction
import OpenApiModels.Adapter

/-!
# Selecting an adapter

At most one adapter supports a version, so that the order of a registry does not matter.
`select_ofList` says what is selected from the adapters that were registered.
-/

namespace OpenApiModels

/-! ### Ranges -/

namespace Adapter

theorem supports_iff {adapter : Adapter} {text : String} :
    adapter.supports text = true ↔ ∃ x, Version.decimal? text = some (.finite x) ∧
      adapter.range.1 ≤ x.magnitude ∧ x.magnitude < adapter.range.2 := by
  unfold supports
  split
  · rename_i x read
    simp [read]
  · rename_i unread
    exact ⟨fun no => Bool.noConfusion no, fun ⟨x, read, _⟩ => absurd read (unread x)⟩

/-- No version is supported by two adapters. -/
theorem eq_of_supports {a b : Adapter} {text : String} (ha : a.supports text = true)
    (hb : b.supports text = true) : a = b := by
  obtain ⟨x, read, least, below⟩ := supports_iff.1 ha
  obtain ⟨y, again, least', below'⟩ := supports_iff.1 hb
  obtain rfl : x = y := by simpa [read] using again
  have meets : (range openapi30).2 = (range openapi31).1 := rfl
  cases a <;> cases b <;> first | rfl | omega

end Adapter

/-! ### Registries -/

namespace Registry

variable {r s : Registry} {text : String} {a : Adapter}

/-- A registry holds what was registered, in whatever order and however often. -/
theorem mem_ofList {adapters : List Adapter} :
    a ∈ (ofList adapters).adapters ↔ a ∈ adapters := by
  induction adapters using List.reverseRecOn with
  | nil => exact Iff.rfl
  | append_singleton adapters last ih =>
    have step : ofList (adapters ++ [last]) = (ofList adapters).register last := by
      simp only [ofList, List.foldl_append, List.foldl_cons, List.foldl_nil]
    rw [step, mem_register, ih, List.mem_append, List.mem_singleton]

theorem supports_of_findSupporting (found : r.findSupporting text = some a) :
    a.supports text = true :=
  List.find?_some (p := fun adapter : Adapter => adapter.supports text) found

theorem findSupporting_eq_some_iff :
    r.findSupporting text = some a ↔ a ∈ r.adapters ∧ a.supports text = true := by
  constructor
  · intro found
    exact ⟨List.mem_of_find?_eq_some found, supports_of_findSupporting found⟩
  · rintro ⟨listed, supported⟩
    cases found : r.findSupporting text with
    | none => exact absurd supported (List.find?_eq_none.1 found a listed)
    | some b =>
      rw [Adapter.eq_of_supports (supports_of_findSupporting found) supported]

theorem findSupporting_eq_none_iff :
    r.findSupporting text = none ↔ ∀ a ∈ r.adapters, ¬ a.supports text = true := by
  rw [findSupporting, List.find?_eq_none]

theorem findSupporting_congr (same : ∀ a, a ∈ r.adapters ↔ a ∈ s.adapters) (text : String) :
    r.findSupporting text = s.findSupporting text := by
  ext a
  rw [findSupporting_eq_some_iff, findSupporting_eq_some_iff, same a]

end Registry

/-! ### Decisions -/

open Registry

variable {r : Registry} {version : Version}

theorem select_of_supports {a : Adapter} (listed : a ∈ r.adapters)
    (supported : a.supports version.text = true) (mode : FallbackMode) :
    select r mode version = .ok ⟨⟨version, a, true, none, []⟩, []⟩ := by
  rw [select, findSupporting_eq_some_iff.2 ⟨listed, supported⟩]
  rfl

theorem select_of_unsupported (unsupported : ∀ a ∈ r.adapters, ¬ a.supports version.text = true)
    (mode : FallbackMode) :
    select r mode version = (resolveFallback version mode).map fun fallback =>
      ⟨⟨version, fallback.value.adapter, false, some mode, fallback.value.warning.toList⟩,
        fallback.warnings⟩ := by
  rw [select, findSupporting_eq_none_iff.2 unsupported]

/-- A decision is explicit, whatever the mode, just if an adapter supports the version. -/
theorem isExplicit_select_iff (r : Registry) (mode : FallbackMode) (version : Version) :
    (∃ d, select r mode version = .ok d ∧ d.value.isExplicit = true) ↔
      ∃ a ∈ r.adapters, a.supports version.text = true := by
  constructor
  · rintro ⟨d, selected, explicit⟩
    by_contra unsupported
    rw [select_of_unsupported fun a listed supported => unsupported ⟨a, listed, supported⟩]
      at selected
    cases mode <;> cases selected <;> cases explicit
  · rintro ⟨a, listed, supported⟩
    exact ⟨_, select_of_supports listed supported mode, rfl⟩

/-- What is selected depends on which adapters were registered only. The decision is explicit just
if one of them supports the version; otherwise mode `strict` fails, and the others select the same
adapter, of which `warn` gives a warning. -/
theorem select_ofList (version : Version) {first second : List Adapter}
    (same : ∀ a, a ∈ first ↔ a ∈ second) :
    (∀ mode, select (ofList first) mode version = select (ofList second) mode version) ∧
      (∀ mode, (∃ d, select (ofList first) mode version = .ok d ∧ d.value.isExplicit = true) ↔
        ∃ a ∈ first, a.supports version.text = true) ∧
      ((¬ ∃ a ∈ first, a.supports version.text = true) →
        select (ofList first) .strict version = .error ⟨version.text⟩ ∧
        ∃ decision : Decision, ∃ warning,
          select (ofList first) .warn version = .ok ⟨{ decision with
            appliedFallback := some .warn, warnings := [warning] }, [warning]⟩ ∧
          select (ofList first) .auto version = .ok ⟨{ decision with
            appliedFallback := some .auto, warnings := [] }, []⟩) := by
  refine ⟨fun mode => ?_, fun mode => ?_, fun unsupported => ?_⟩
  · have listed : ∀ a, a ∈ (ofList first).adapters ↔ a ∈ (ofList second).adapters := fun a => by
      rw [mem_ofList, mem_ofList, same a]
    rw [select, select, findSupporting_congr listed]
  · simp only [isExplicit_select_iff, mem_ofList]
  · have unlisted : ∀ a ∈ (ofList first).adapters, ¬ a.supports version.text = true :=
      fun a listed supported => unsupported ⟨a, mem_ofList.1 listed, supported⟩
    simp only [select_of_unsupported unlisted]
    exact ⟨rfl, ⟨version, closestAdapter, false, none, []⟩, fallbackWarning version, rfl, rfl⟩

theorem select_ofList_swapped :
    (∀ a, a ∈ [Adapter.openapi31, .openapi30, .openapi31] ↔
        a ∈ [Adapter.openapi30, .openapi31]) ∧
      ∀ mode, select (ofList [.openapi31, .openapi30, .openapi31]) mode (.ofText "3.0.3" "") =
        select (ofList [.openapi30, .openapi31]) mode (.ofText "3.0.3" "") := by
  have same (a : Adapter) : a ∈ [Adapter.openapi31, .openapi30, .openapi31] ↔
      a ∈ [Adapter.openapi30, .openapi31] := by
    cases a <;> decide
  exact ⟨same, (select_ofList _ same).1⟩

end OpenApiModels
