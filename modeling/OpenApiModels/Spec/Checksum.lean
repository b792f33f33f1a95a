import OpenApiModels.Digest.Sha256
import OpenApiModels.Json.Canonical
import OpenApiModels.Spec.Document

/-!
# Checksums of specs

The raw checksum is that of the text without the lines that hold checksum members, the processed
checksum that of the canonical form. Stamping stores both in the document.
-/

namespace OpenApiModels.Spec

open Text

/-! ### Canonical form -/

namespace Document

/-- The members in canonical order, without those that store checksums. Erasing one lets the last
member take its place. -/
def canonicalMembers (doc : Document) : List (String × Json) :=
  checksumKeys.foldl (fun ms key => Keyed.swapErase key ms)
    ((Json.sortedMembers doc.members).mergeSort Json.keyLe)

/-- The canonical text of a document. -/
def canonical (doc : Document) : String :=
  Json.pretty (.object doc.canonicalMembers)

/-- The checksum of the canonical form. -/
def processedChecksum (doc : Document) : String :=
  Digest.ofText doc.canonical

end Document

/-! ### Checksum lines -/

def isLineBlank (c : Char) : Bool :=
  c == ' ' || c == '\t'

def skipLineBlanks (cs : List Char) : List Char :=
  cs.dropWhile isLineBlank

/-- What follows the quoted key of a checksum member. -/
def afterChecksumKey? (cs : List Char) : Option (List Char) :=
  checksumKeys.findSome? fun key => stripStart? ('"' :: key.toList ++ ['"']) cs

/-- What follows a string literal without a line break or an escaped quote. -/
def afterPlainString? : List Char → Option (List Char)
  | '"' :: cs =>
    match cs.dropWhile fun c => c != '"' && c != '\n' with
    | '"' :: rest => some rest
    | _ => none
  | _ => none

def skipChar (c : Char) : List Char → List Char
  | [] => []
  | d :: ds => if d = c then ds else d :: ds

/-- What follows a checksum member with a string value at the start of a line: its value, a comma,
blanks and the line break belong to it. -/
def afterChecksumMember? (cs : List Char) : Option (List Char) := do
  let cs ← afterChecksumKey? (skipLineBlanks cs)
  let cs ← stripStart? [':'] (skipLineBlanks cs)
  let cs ← afterPlainString? (skipLineBlanks cs)
  pure (skipChar '\r' (skipLineBlanks (skipChar ',' (skipLineBlanks cs))))

theorem length_skipLineBlanks_le (cs : List Char) : (skipLineBlanks cs).length ≤ cs.length :=
  Json.length_dropWhile_le _ _

theorem length_skipChar_le (c : Char) (cs : List Char) : (skipChar c cs).length ≤ cs.length := by
  cases cs with
  | nil => simp [skipChar]
  | cons d ds => simp only [skipChar]; split <;> simp

theorem length_lt_of_afterChecksumKey? {cs rest : List Char}
    (h : afterChecksumKey? cs = some rest) : rest.length < cs.length := by
  obtain ⟨key, -, hkey⟩ := List.exists_of_findSome?_eq_some h
  exact length_lt_of_stripStart? hkey (by simp)

theorem length_le_of_afterPlainString? {cs rest : List Char}
    (h : afterPlainString? cs = some rest) : rest.length ≤ cs.length := by
  unfold afterPlainString? at h
  split at h
  · rename_i ds
    split at h
    · rename_i r hr
      cases h
      have := Json.length_dropWhile_le (fun c => c != '"' && c != '\n') ds
      rw [hr] at this
      simp only [List.length_cons] at this ⊢
      omega
    · cases h
  · cases h

theorem length_lt_of_afterChecksumMember? {cs rest : List Char}
    (h : afterChecksumMember? cs = some rest) : rest.length < cs.length := by
  simp only [afterChecksumMember?, Option.bind_eq_bind, Option.bind_eq_some_iff,
    Option.pure_def, Option.some.injEq] at h
  obtain ⟨a, ha, b, hb, c, hc, rfl⟩ := h
  have h1 := length_lt_of_afterChecksumKey? ha
  have h2 := length_lt_of_stripStart? hb (by simp)
  have h3 := length_le_of_afterPlainString? hc
  have k1 := length_skipLineBlanks_le cs
  have k2 := length_skipLineBlanks_le a
  have k3 := length_skipLineBlanks_le b
  have k4 := length_skipLineBlanks_le c
  have k5 := length_skipChar_le ',' (skipLineBlanks c)
  have k6 := length_skipLineBlanks_le (skipChar ',' (skipLineBlanks c))
  have k7 := length_skipChar_le '\r' (skipLineBlanks (skipChar ',' (skipLineBlanks c)))
  omega

/-- Skips a line break; the flag says whether there was one. -/
def skipLineBreak : List Char → Bool × List Char
  | [] => (false, [])
  | c :: cs => if c = '\n' then (true, cs) else (false, c :: cs)

theorem length_skipLineBreak_le (cs : List Char) : (skipLineBreak cs).2.length ≤ cs.length := by
  cases cs with
  | nil => simp [skipLineBreak]
  | cons c cs => simp only [skipLineBreak]; split <;> simp

/-- The text without its checksum members; `lineStart` says whether a line starts here. -/
def dropChecksumMembers (lineStart : Bool) (cs : List Char) : List Char :=
  match cs with
  | [] => []
  | c :: cs =>
    if lineStart then
      match h : afterChecksumMember? (c :: cs) with
      | some rest =>
        have := length_lt_of_afterChecksumMember? h
        have := length_skipLineBreak_le rest
        dropChecksumMembers (skipLineBreak rest).1 (skipLineBreak rest).2
      | none => c :: dropChecksumMembers (c == '\n') cs
    else c :: dropChecksumMembers (c == '\n') cs
termination_by cs.length
decreasing_by all_goals simp_all; try omega

/-- The checksum of a text without its checksum members. -/
def rawChecksum (text : String) : String :=
  Digest.ofText (String.ofList (dropChecksumMembers true text.toList))

/-! ### Storing checksums -/

structure ChecksumPair where
  raw : String
  processed : String
deriving DecidableEq, Repr

/-- Both checksums of a text that holds the document. -/
def checksumsOf (text : String) (doc : Document) : ChecksumPair :=
  ⟨rawChecksum text, doc.processedChecksum⟩

namespace Document

/-- Stores the processed checksum. -/
def process (doc : Document) : Document :=
  doc.setExtensions [(processedKey, doc.processedChecksum)]

/-- Stores both checksums. The raw one is that of the text that results, which does not depend on
the value stored for it. -/
def stamp (doc : Document) : ChecksumPair × Document :=
  let processed := doc.processedChecksum
  let prepared := doc.setExtensions [(contentKey, ""), (processedKey, processed)]
  let raw := rawChecksum prepared.text
  (⟨raw, processed⟩, prepared.setExtensions [(contentKey, raw)])

end Document

end OpenApiModels.Spec
