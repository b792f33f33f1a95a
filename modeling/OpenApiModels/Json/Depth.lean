import OpenApiModels.Json.Basic

/-!
# Nesting depth

The number of containers around the innermost value, counting a scalar as one.
-/

namespace OpenApiModels.Json

mutual

def depth : Json → Nat
  | .null | .bool _ | .number _ | .string _ => 1
  | .array items => depthItems items + 1
  | .object members => depthMembers members + 1

/-- The greatest depth of the items. -/
def depthItems : List Json → Nat
  | [] => 0
  | v :: rest => max (depth v) (depthItems rest)

/-- The greatest depth of the values. -/
def depthMembers : List (String × Json) → Nat
  | [] => 0
  | (_, v) :: rest => max (depth v) (depthMembers rest)

end

end OpenApiModels.Json
