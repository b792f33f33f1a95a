import OpenApiModels.Text.Search

/-!
# Paths

A path is a text with slashes. Its components leave out repeated slashes and the points that name
the directory they stand in, save one at the start.
-/

namespace OpenApiModels.Path

open Text

/-- The parts between slashes. -/
def parts (path : String) : List String :=
  (splitAtChar '/' path.toList).map String.ofList

def isAbsolute (path : String) : Bool :=
  path.toList.head? == some '/'

/-- The components of a path; the root counts as one. -/
def components (path : String) : List String :=
  let named := (parts path).filter fun p => p != "" && p != "."
  if isAbsolute path then "/" :: named
  else if (parts path).head? == some "." then "." :: named
  else named

/-- The number of components of the directory that a path lies in. -/
def depth (path : String) : Nat :=
  if components path = ["/"] then 0 else (components path).length - 1

/-- The path of `name` in the directory `base`. -/
def join (base name : String) : String :=
  if isAbsolute name || base == "" then name
  else if base.toList.getLast? == some '/' then base ++ name
  else base ++ "/" ++ name

/-- What follows the last point of the file name, unless the name starts with it. -/
def extension? (path : String) : Option String :=
  match (components path).getLast? with
  | none => none
  | some name =>
    let cs := name.toList
    let ext := afterLast '.' cs
    if name == ".." || name == "/" || cs.length ≤ ext.length + 1 then none
    else some (String.ofList ext)

example : components "./a//b/./c" = [".", "a", "b", "c"] := by decide
example : extension? "a/b.d.ts" = some "ts" := by decide
example : extension? "a/.ts" = none := by decide
example : join "out/" "x" = "out/x" := by decide

end OpenApiModels.Path
