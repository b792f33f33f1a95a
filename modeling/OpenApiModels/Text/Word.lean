import OpenApiModels.Text.Letter
import OpenApiModels.Text.Case

/-!
# Words of a name

A name is cut at characters that are neither letters nor digits, between a small letter and a
capital, and before the last capital of a run that a small letter follows. Digits cut nothing.
`pascalCase` and `capitalSnakeCase` put the words together again.
-/

namespace OpenApiModels.Text

/-- The maximal runs of letters and digits, in order. -/
def alphanumericRuns (cs : List Char) : List (List Char) :=
  (cs.splitBy fun a b => isAlphanumeric a == isAlphanumeric b).filter fun run =>
    run.head?.any isAlphanumeric

/-- The case of the last cased letter of the current word. -/
inductive LastCase where
  | none
  | small
  | capital
deriving DecidableEq, Repr

def LastCase.next (last : LastCase) (c : Char) : LastCase :=
  if isLowercase c then .small else if isUppercase c then .capital else last

/-- The words of one run of letters and digits; `word` holds the current word, reversed. -/
def splitRun (last : LastCase) (word : List Char) : List Char → List (List Char)
  | [] => []
  | [c] => [(c :: word).reverse]
  | c :: next :: rest =>
    if last.next c = .small && isUppercase next then
      (c :: word).reverse :: splitRun .none [] (next :: rest)
    else if last = .capital && isUppercase c && isLowercase next then
      word.reverse :: splitRun .none [c] (next :: rest)
    else splitRun (last.next c) (c :: word) (next :: rest)

def words (cs : List Char) : List (List Char) :=
  (alphanumericRuns cs).flatMap (splitRun .none [])

/-! ### Cases of words -/

/-- The word in small letters; a capital sigma at its end becomes a final sigma. -/
def smallWord : List Char → List Char
  | [] => []
  | [c] => if c == 'Σ' then ['ς'] else small c
  | c :: next :: rest => small c ++ smallWord (next :: rest)

def capitalWord (word : List Char) : List Char :=
  word.flatMap capital

/-- The word with its first letter as a capital and the others small. -/
def titleWord : List Char → List Char
  | [] => []
  | c :: rest => capital c ++ smallWord rest

/-- The words with initial capitals, without a separator. -/
def pascalCase (cs : List Char) : List Char :=
  (words cs).flatMap titleWord

/-- The words in capitals, joined by underscores. -/
def capitalSnakeCase (cs : List Char) : List Char :=
  List.intercalate ['_'] ((words cs).map capitalWord)

example : String.ofList (pascalCase "petStore-HTTPServer".toList) = "PetStoreHttpServer" := by
  decide

example : String.ofList (capitalSnakeCase "birdOf-prey2x".toList) = "BIRD_OF_PREY2X" := by
  decide

end OpenApiModels.Text
