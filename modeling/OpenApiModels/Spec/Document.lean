import OpenApiModels.Json.Reader
import OpenApiModels.Json.Printer

/-!
# Spec documents

A spec is a JSON text whose root is an object. Its extension members hold the checksums of the
spec; they are strings at the root.
-/

namespace OpenApiModels.Spec

/-! ### Extension members -/

/-- The stored checksum of the text. -/
def contentKey : String := "x-spec-content-sha"

/-- A checksum of the text from before; it counts where no other is stored. -/
def checksumKey : String := "x-spec-checksum"

/-- The stored checksum of the canonical form. -/
def processedKey : String := "x-spec-processed-checksum"

/-- The members in which a spec stores checksums of itself. -/
def checksumKeys : List String := [contentKey, checksumKey, processedKey]

/-! ### Documents -/

/-- The members of the root object. -/
structure Document where
  members : List (String × Json)

/-- Why a spec cannot be used. -/
inductive Error where
  | unreadable (path cause : String)
  | unwritable (path cause : String)
  | malformed (path : String)
  | notAnObject (path : String)
deriving DecidableEq, Repr

/-- The text of an error. What the reader of JSON texts found wrong is not kept, so the cause of a
malformed text is always the same. -/
def Error.message : Error → String
  | .unreadable path cause => s!"failed to read {path}: {cause}"
  | .unwritable path cause => s!"failed to write {path}: {cause}"
  | .malformed path => s!"failed to parse JSON in {path}: not a JSON text"
  | .notAnObject path => s!"spec root in {path} is not a JSON object"

namespace Document

def toJson (doc : Document) : Json :=
  .object doc.members

/-- The string that an extension member holds. -/
def extension? (key : String) (doc : Document) : Option String :=
  doc.toJson.string? key

/-- Reads the text of the file at `path`, which only messages mention. -/
def parse (path text : String) : Except Error Document :=
  match Json.read? text with
  | none => .error (.malformed path)
  | some (.object members) => .ok ⟨members⟩
  | some _ => .error (.notAnObject path)

/-- The text of the file: indented, with a line break at its end. -/
def text (doc : Document) : String :=
  String.ofList (Json.prettyAt 0 doc.toJson ++ ['\n'])

/-- Sets string members. Those that are there keep their places; the others come first, in the
order given. -/
def setExtensions (entries : List (String × String)) (doc : Document) : Document :=
  let (present, missing) := entries.partition fun e => Keyed.hasKey e.1 doc.members
  let updated := present.foldl (fun ms e => Keyed.put e.1 (.string e.2) ms) doc.members
  ⟨missing.map (fun e => (e.1, .string e.2)) ++ updated⟩

end Document

end OpenApiModels.Spec
