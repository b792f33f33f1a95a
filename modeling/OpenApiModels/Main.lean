import OpenApiModels.CommandLine.Run

/-!
# The program

Runs a command on the current directory: its files are read into a workspace, and what the command
changed is written back.
-/

open OpenApiModels

namespace OpenApiModels.Program

/-- Directories that are no part of a project. -/
def skipped : List String := [".git", "node_modules"]

def contentOf (bytes : ByteArray) : Content :=
  match String.fromUTF8? bytes with
  | some s => .text s
  | none => .bytes bytes.toList

/-- The files and directories below a directory, with their locations. -/
partial def entriesBelow (loc : Location) (directory : IO.FS.DirEntry) :
    IO (List (Location × Entry)) := do
  let mut entries := []
  for child in ← directory.path.readDir do
    let here := loc ++ [child.fileName]
    if ← child.path.isDir then
      unless skipped.contains child.fileName do
        let below ← entriesBelow here child
        entries := entries ++ (here, Entry.directory) :: below
    else
      let bytes ← IO.FS.readBinFile child.path
      entries := entries ++ [(here, Entry.file { content := contentOf bytes })]
  return entries

/-- The workspace that the current directory holds. -/
def load : IO Workspace := do
  return ⟨← entriesBelow [] { root := ".", fileName := "." }⟩

/-- Writes the changes of a workspace to the current directory. -/
def store (before after : Workspace) : IO Unit := do
  for (loc, e) in after.entries do
    if e == .directory then IO.FS.createDirAll loc.path
  for (loc, content) in before.changes after do
    match content with
    | some (.text s) => IO.FS.writeFile loc.path s
    | some (.bytes bs) => IO.FS.writeBinFile loc.path (ByteArray.mk bs.toArray)
    | none => IO.FS.removeFile loc.path

/-- The variables of the environment that override settings. -/
def environment : IO Environment := do
  let names := [fallbackVariable, enumLimitVariable, enumUnionsVariable]
  let found ← names.mapM fun name => do
    return (← IO.getEnv name).map fun value => (name, value)
  return found.filterMap id

def usage : String :=
  "usage: specgen generate|detect|verify|process|validate-templates|postprocess|init [options]\n"

end OpenApiModels.Program

open OpenApiModels.Program in
def main (arguments : List String) : IO UInt32 := do
  match CommandLine.Command.ofArguments? arguments with
  | none =>
    (← IO.getStderr).putStr usage
    return CommandLine.unusable.toUInt32
  | some command =>
    let before ← load
    let around : CommandLine.Surroundings := ⟨← environment, { standard := true }⟩
    let ran := command.run around before
    store before ran.value.workspace
    for warning in ran.warnings do
      (← IO.getStderr).putStrLn warning
    (← IO.getStderr).putStr ran.value.report
    (← IO.getStdout).putStr ran.value.output
    return ran.value.code.toUInt32
