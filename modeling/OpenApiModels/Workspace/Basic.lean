import OpenApiModels.Keyed
import OpenApiModels.Path

/-!
# Workspaces

A workspace is a tree of files, kept as a list of located entries. A location is the list of names
that lead to it from the root, which is itself a directory.
-/

namespace OpenApiModels

/-- What a file holds. Bytes that are UTF-8 are always given as a text. -/
inductive Content where
  | text (s : String)
  | bytes (bs : List UInt8)
deriving DecidableEq

def Content.text? : Content → Option String
  | text s => some s
  | bytes _ => none

structure File where
  content : Content
  executable : Bool := false
deriving DecidableEq

inductive Entry where
  | directory
  | file (f : File)
deriving DecidableEq

abbrev Location := List String

structure Workspace where
  entries : List (Location × Entry) := []

/-- Why a path cannot be read or written. -/
inductive FileError where
  | notFound
  | isDirectory
  | notText
deriving DecidableEq, Repr

def FileError.message : FileError → String
  | .notFound => "No such file or directory (os error 2)"
  | .isDirectory => "Is a directory (os error 21)"
  | .notText => "stream did not contain valid UTF-8"

namespace Workspace

-- Locations are ordered by the core library, whatever else is imported.
attribute [local instance (high)] List.instLE

def find? (w : Workspace) (loc : Location) : Option Entry :=
  if loc = [] then some .directory else w.entries.lookup loc

def isDirectoryAt (w : Workspace) (loc : Location) : Bool :=
  w.find? loc == some .directory

def fileAt? (w : Workspace) (loc : Location) : Option File :=
  match w.find? loc with
  | some (.file f) => some f
  | _ => none

def put (loc : Location) (e : Entry) (w : Workspace) : Workspace :=
  ⟨Keyed.put loc e w.entries⟩

theorem find?_put_self {loc : Location} (h : loc ≠ []) (e : Entry) (w : Workspace) :
    (w.put loc e).find? loc = some e := by
  simp [find?, put, h, Keyed.lookup_put_self]

theorem find?_put_of_ne {loc other : Location} (h : other ≠ loc) (e : Entry) (w : Workspace) :
    (w.put loc e).find? other = w.find? other := by
  simp [find?, put, Keyed.lookup_put_of_ne h]

/-! ### Paths -/

/-- The longest name in bytes. -/
def nameLimit : Nat := 255

/-- Goes from a location along the parts of a path. Only directories lead on. -/
def follow (w : Workspace) : Location → List String → Option Location
  | here, [] => some here
  | here, part :: parts =>
    if !w.isDirectoryAt here then none
    else if part == "" || part == "." then w.follow here parts
    else if part == ".." then if here = [] then none else w.follow here.dropLast parts
    else if nameLimit < part.utf8ByteSize then none
    else w.follow (here ++ [part]) parts

/-- The location that a path names from the root. Its last part need not exist. -/
def locate? (w : Workspace) (path : String) : Option Location :=
  if path == "" || Path.isAbsolute path || path.toList.contains '\x00' then none
  else w.follow [] (Path.parts path)

def lookup? (w : Workspace) (path : String) : Option Entry :=
  (w.locate? path).bind w.find?

def «exists» (w : Workspace) (path : String) : Bool :=
  (w.lookup? path).isSome

def isFile (w : Workspace) (path : String) : Bool :=
  match w.lookup? path with
  | some (.file _) => true
  | _ => false

def isDirectory (w : Workspace) (path : String) : Bool :=
  w.lookup? path == some .directory

/-! ### Reading and writing -/

def read (w : Workspace) (path : String) : Except FileError File :=
  match w.lookup? path with
  | none => .error .notFound
  | some .directory => .error .isDirectory
  | some (.file f) => .ok f

def readText (w : Workspace) (path : String) : Except FileError String := do
  match (← w.read path).content with
  | .text s => .ok s
  | .bytes _ => .error .notText

/-- Writes a file, which stays executable if it was. -/
def write (path : String) (content : Content) (w : Workspace) : Except FileError Workspace :=
  match w.locate? path with
  | none => .error .notFound
  | some loc =>
    match w.find? loc with
    | some .directory => .error .isDirectory
    | some (.file f) => .ok (w.put loc (.file { f with content }))
    | none => .ok (w.put loc (.file { content }))

def setExecutable (path : String) (w : Workspace) : Workspace :=
  match w.locate? path with
  | none => w
  | some loc =>
    match w.fileAt? loc with
    | some f => w.put loc (.file { f with executable := true })
    | none => w

/-- Makes the directories along the parts of a path, where they are not there. -/
def makeAlong (w : Workspace) : Location → List String → Except FileError Workspace
  | _, [] => .ok w
  | here, part :: parts =>
    if part == "" || part == "." then w.makeAlong here parts
    else if part == ".." then
      if here = [] then .error .notFound else w.makeAlong here.dropLast parts
    else if nameLimit < part.utf8ByteSize then .error .notFound
    else
      match w.find? (here ++ [part]) with
      | some .directory => w.makeAlong (here ++ [part]) parts
      | some (.file _) => .error .notFound
      | none => (w.put (here ++ [part]) .directory).makeAlong (here ++ [part]) parts

/-- Makes a directory and those that lead to it. The empty path stands for the root. -/
def makeDirectories (path : String) (w : Workspace) : Except FileError Workspace :=
  if Path.isAbsolute path || path.toList.contains '\x00' then .error .notFound
  else w.makeAlong [] (Path.parts path)

/-- Removes a file or an empty directory. -/
def remove (path : String) (w : Workspace) : Except FileError Workspace :=
  match w.locate? path with
  | none => .error .notFound
  | some loc =>
    match w.find? loc with
    | none => .error .notFound
    | some .directory =>
      if loc = [] || w.entries.any fun e => e.1.dropLast == loc then .error .isDirectory
      else .ok ⟨Keyed.erase loc w.entries⟩
    | some (.file _) => .ok ⟨Keyed.erase loc w.entries⟩

/-! ### Walks -/

/-- The names that lead from `root` to a location below or at it. -/
def below? : Location → Location → Option Location
  | [], loc => some loc
  | _ :: _, [] => none
  | r :: root, name :: loc => if r = name then below? root loc else none

/-- The files at or below a location, with the names that lead to them. Directories are gone
through in place, the names of each in ascending order. -/
def filesBelow (w : Workspace) (root : Location) : List (Location × File) :=
  (w.entries.filterMap fun e =>
    match below? root e.1, e.2 with
    | some rel, .file f => some (rel, f)
    | _, _ => none).mergeSort fun a b => decide (a.1 ≤ b.1)

/-- All files, in the order of a walk from the root. -/
def files (w : Workspace) : List (Location × File) :=
  w.filesBelow []

/-- The contents that files have in `after` but not in `before`, and nothing for those that are
gone. -/
def changes (before after : Workspace) : List (Location × Option Content) :=
  let written := after.files.filterMap fun (loc, f) =>
    if (before.fileAt? loc).map (·.content) = some f.content then none
    else some (loc, some f.content)
  let removed := before.files.filterMap fun (loc, _) =>
    if (after.fileAt? loc).isNone then some (loc, none) else none
  written ++ removed

end Workspace

/-- The text of a relative path with the given names. -/
def Location.path (loc : Location) : String :=
  "/".intercalate loc

end OpenApiModels
