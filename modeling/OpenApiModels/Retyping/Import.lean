import OpenApiModels.Path
import OpenApiModels.Text.Blank
import OpenApiModels.Text.Letter
import OpenApiModels.Text.Search

/-!
# The import of branded types

Branded types need an import of `Branded`, which is put behind the last import statement, or
behind the comment lines at the top.
-/

namespace OpenApiModels.Retyping

open Text

/-- The support file that declares `Branded`, at the root of the output. -/
def brandedFile : String := "branded.ts"

/-- The contents of the support file. -/
def brandedSupport : String :=
  "// Generated by specgen. Do not edit.\n" ++
  "declare const brand: unique symbol;\n" ++
  "\n" ++
  "/** A `T` that is only assignable where the `Tag` brand is expected. */\n" ++
  "export type Branded<T, Tag extends string> = T & \x7b readonly [brand]: Tag \x7d;\n"

/-- The import statement for a file at `path` under the output root. -/
def brandedImport (path : String) : List Char :=
  let depth := Path.depth path
  let up := if depth = 0 then "./" else String.join (List.replicate depth "../")
  ("import type \x7b Branded \x7d from \"" ++ up ++ "branded\";").toList

/-! ### Import statements -/

/-- Whether a word that ends here is not continued. -/
def endsWord (rest : List Char) : Bool :=
  !rest.head?.any isWordChar

/-- What follows the import statement at the start of a line: the lines up to one with a
semicolon. -/
def afterImport? (cs : List Char) : Option (List Char) :=
  match stripStart? "import".toList cs with
  | none => none
  | some rest =>
    if endsWord rest then
      match rest.dropWhile (· != ';') with
      | [] => none
      | _ :: rest =>
        match rest.dropWhile (· != '\n') with
        | [] => some []
        | _ :: rest => some rest
    else none

theorem length_lt_of_afterImport? {cs rest : List Char} (h : afterImport? cs = some rest) :
    rest.length < cs.length := by
  unfold afterImport? at h
  split at h
  · cases h
  · rename_i r hr
    have h1 := length_lt_of_stripStart? hr (by decide)
    split at h
    · split at h
      · cases h
      · rename_i r₂ hd
        have h2 := (List.dropWhile_sublist (l := r) (· != ';')).length_le
        have h3 := (List.dropWhile_sublist (l := r₂) (· != '\n')).length_le
        simp only [hd, List.length_cons] at h2
        split at h
        · cases h
          simp only [List.length_nil]
          omega
        · rename_i hn
          cases h
          simp only [hn, List.length_cons] at h3
          omega
    · cases h

/-- What follows the last import statement; `lineStart` says whether a line starts here. -/
def afterLastImport? (lineStart : Bool) (cs : List Char) : Option (List Char) :=
  match cs with
  | [] => none
  | c :: cs =>
    if lineStart then
      match h : afterImport? (c :: cs) with
      | some rest =>
        have := length_lt_of_afterImport? h
        (afterLastImport? true rest).or (some rest)
      | none => afterLastImport? (c == '\n') cs
    else afterLastImport? (c == '\n') cs
termination_by cs.length
decreasing_by all_goals simp_all

/-- The comment lines at the top of a text. -/
def headerLines (cs : List Char) : List Char :=
  ((linesWithBreaks cs).takeWhile fun line =>
    (stripStart? ['/', '/'] (trimStart line)).isSome).flatten

/-- The text before the place for a further import, and the text behind it. -/
def splitAtImports (cs : List Char) : List Char × List Char :=
  let before :=
    match afterLastImport? true cs with
    | some rest => cs.length - rest.length
    | none => (headerLines cs).length
  cs.splitAt before

/-! ### Imports of `Branded` -/

/-- Whether `word` occurs as a whole word; `inWord` says whether a word goes on here. -/
def containsWord (word : List Char) (inWord : Bool) : List Char → Bool
  | [] => false
  | c :: cs =>
    (!inWord && (stripStart? word (c :: cs)).any endsWord) ||
      containsWord word (isWordChar c) cs

/-- Splits off one or more blanks. -/
def afterBlanks? (cs : List Char) : Option (List Char) :=
  if cs.head?.any isBlank then some (trimStart cs) else none

/-- Whether an import of `Branded` starts here, behind blanks. -/
def importsBrandedHere (cs : List Char) : Bool :=
  (do
    let cs ← stripStart? "import".toList (trimStart cs)
    let cs ← afterBlanks? cs
    let cs := ((stripStart? "type".toList cs).bind afterBlanks?).getD cs
    let cs ← stripStart? ['\x7b'] cs
    let rest ← stripStart? ['\x7d'] (cs.dropWhile (· != '\x7d'))
    let rest ← stripStart? "from".toList (trimStart rest)
    pure (containsWord "Branded".toList false (cs.takeWhile (· != '\x7d')) && endsWord rest))
  == some true

/-- Whether a text imports `Branded`; `lineStart` says whether a line starts here. -/
def importsBranded (lineStart : Bool) : List Char → Bool
  | [] => false
  | c :: cs =>
    (lineStart && importsBrandedHere (c :: cs)) || importsBranded (c == '\n') cs

/-- Adds the import of `Branded`, unless the text has one. -/
def addBrandedImport (path : String) (cs : List Char) : List Char :=
  if importsBranded true cs then cs
  else
    let (before, after) := splitAtImports cs
    before ++ brandedImport path ++ '\n' :: after

end OpenApiModels.Retyping
