import OpenApiModels.Settings.Mode
import OpenApiModels.Version

/-!
# Adapters

An adapter generates models for the versions it supports. The first adapter of a registry that
supports a version is taken; if there is none, the fallback mode decides.
-/

namespace OpenApiModels

inductive Adapter where
  | openapi30
  | openapi31
deriving DecidableEq, Repr

namespace Adapter

def name : Adapter → String
  | openapi30 => "openapi-3.0"
  | openapi31 => "openapi-3.1"

def ofName? (s : String) : Option Adapter :=
  [openapi30, openapi31].find? fun adapter => adapter.name == s

theorem ofName?_name (adapter : Adapter) : ofName? adapter.name = some adapter := by
  cases adapter <;> decide

/-- The doubles nearest to the first supported and the first unsupported version number. -/
def range : Adapter → Nat × Nat
  | openapi30 => (Number.Binary64.nearestMagnitude 3 1, Number.Binary64.nearestMagnitude 31 10)
  | openapi31 => (Number.Binary64.nearestMagnitude 31 10, Number.Binary64.nearestMagnitude 32 10)

/-- Whether the version, read as a decimal number, lies in the adapter's range. -/
def supports (adapter : Adapter) (version : String) : Bool :=
  match Version.decimal? version with
  | some (.finite x) =>
    decide (adapter.range.1 ≤ x.magnitude) && decide (x.magnitude < adapter.range.2)
  | _ => false

end Adapter

/-! ### Registries -/

/-- Adapters in the order in which they are asked. -/
structure Registry where
  adapters : List Adapter
  nodup : adapters.Nodup := by decide

namespace Registry

def empty : Registry := { adapters := [] }

/-- The registry of both adapters, the older first. -/
def standard : Registry := { adapters := [.openapi30, .openapi31] }

/-- Adds an adapter at the end, unless it is there. -/
def register (r : Registry) (adapter : Adapter) : Registry :=
  if h : adapter ∈ r.adapters then r
  else
    { adapters := r.adapters ++ [adapter]
      nodup := by
        rw [List.nodup_append]
        refine ⟨r.nodup, by simp, ?_⟩
        intro a ha b hb hab
        simp only [List.mem_singleton] at hb
        exact h (hb ▸ hab ▸ ha) }

theorem mem_register {r : Registry} {a b : Adapter} :
    b ∈ (r.register a).adapters ↔ b ∈ r.adapters ∨ b = a := by
  unfold register
  split
  · constructor
    · exact .inl
    · rintro (h | rfl) <;> assumption
  · simp

def ofList (adapters : List Adapter) : Registry :=
  adapters.foldl register empty

/-- The first adapter that supports a version. -/
def findSupporting (r : Registry) (version : String) : Option Adapter :=
  r.adapters.find? fun adapter => adapter.supports version

end Registry

/-! ### Fallback -/

/-- No adapter supports the version and the mode forbids falling back. -/
structure UnsupportedVersion where
  version : String
deriving DecidableEq, Repr

def UnsupportedVersion.message (e : UnsupportedVersion) : String :=
  let v := e.version
  s!"no adapter supports OpenAPI version {v} (fallback mode: strict)\n" ++
  "To continue, either:\n" ++
  "  1. set OPENAPI_ADAPTER_FALLBACK=warn or auto to use the closest adapter,\n" ++
  s!"  2. add an adapter that supports {v}, or\n" ++
  "  3. downgrade the spec to a supported version (3.0.x or 3.1.x)"

/-- The adapter for versions that none supports. -/
def closestAdapter : Adapter := .openapi30

/-- What an operator should know about falling back from a version. -/
def fallbackWarning (version : Version) : String :=
  let v := version.text
  let adapter := closestAdapter.name
  if version.major = 3 then
    s!"OpenAPI {v} is not explicitly supported; falling back to the {adapter} adapter. " ++
      "Newer 3.x features may be ignored."
  else if version.major = 4 then
    s!"OpenAPI {v} is a major version ahead of every installed adapter; falling back to " ++
      s!"the {adapter} adapter. Generated code is likely incomplete, review it carefully."
  else
    let v := Text.quoted v
    s!"Could not match OpenAPI version {v} to an adapter; falling back to the {adapter} " ++
      "adapter. Verify your spec declares a valid `openapi` version."

/-- The adapter that stands in, with a warning in mode `warn` only. -/
structure Fallback where
  adapter : Adapter
  warning : Option String
deriving DecidableEq, Repr

def resolveFallback (version : Version) :
    FallbackMode → Except UnsupportedVersion (Logged Fallback)
  | .strict => .error ⟨version.text⟩
  | .warn => .ok ⟨⟨closestAdapter, some (fallbackWarning version)⟩, [fallbackWarning version]⟩
  | .auto => .ok ⟨⟨closestAdapter, none⟩, []⟩

/-! ### Decisions -/

/-- The adapter that runs, and why. -/
structure Decision where
  version : Version
  adapter : Adapter
  isExplicit : Bool
  appliedFallback : Option FallbackMode
  warnings : List String
deriving DecidableEq, Repr

/-- Picks an adapter for a version. -/
def select (registry : Registry) (mode : FallbackMode) (version : Version) :
    Except UnsupportedVersion (Logged Decision) :=
  match registry.findSupporting version.text with
  | some adapter =>
    .ok (pure { version, adapter, isExplicit := true, appliedFallback := none, warnings := [] })
  | none =>
    (resolveFallback version mode).map fun fallback =>
      ⟨{ version, adapter := fallback.value.adapter, isExplicit := false,
         appliedFallback := some mode, warnings := fallback.value.warning.toList },
        fallback.warnings⟩

end OpenApiModels
