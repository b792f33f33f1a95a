import OpenApiModels.Json.Printer

/-!
# Sorted documents

`sorted` puts the members of every object into ascending order of their keys and keeps
everything else.
-/

namespace OpenApiModels.Json

/-- Orders members by key, in code point order, which is the order of the UTF-8 bytes. -/
def keyLe {α : Type} (a b : String × α) : Bool :=
  decide (a.1 ≤ b.1)

mutual

def sorted : Json → Json
  | .null => .null
  | .bool b => .bool b
  | .number n => .number n
  | .string s => .string s
  | .array items => .array (sortedItems items)
  | .object members => .object ((sortedMembers members).mergeSort keyLe)

def sortedItems : List Json → List Json
  | [] => []
  | v :: rest => sorted v :: sortedItems rest

def sortedMembers : List (String × Json) → List (String × Json)
  | [] => []
  | (k, v) :: rest => (k, sorted v) :: sortedMembers rest

end

theorem keys_sortedMembers (members : List (String × Json)) :
    (sortedMembers members).map (·.1) = members.map (·.1) := by
  induction members with
  | nil => rfl
  | cons m rest ih => simp [sortedMembers, ih]

end OpenApiModels.Json
