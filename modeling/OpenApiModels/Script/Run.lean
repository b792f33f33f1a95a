import OpenApiModels.Script.Basic
import OpenApiModels.Text.Blank
import OpenApiModels.Workspace.Basic

/-!
# Running scripts

Scripts run in a directory of a workspace. Their output is kept, and they can write files. What
they write about errors is dropped.
-/

namespace OpenApiModels.Script

/-- Which programs can be found. -/
structure Host where
  /-- Whether the programs that every system has are there. -/
  standard : Bool
  /-- The directories in which executable scripts are looked for. -/
  directories : List String := []
deriving DecidableEq, Repr

structure State where
  workspace : Workspace
  directory : String
  parameters : List String := []
  status : Nat := 0
  output : String := ""

namespace State

def resolve (s : State) (path : String) : String :=
  Path.join s.directory path

def finish (status : Nat) (s : State) : State :=
  { s with status }

/-! ### Expansion -/

/-- A text that belongs to the current word, or the end of it. -/
inductive Atom where
  | text (s : String)
  | stop

/-- A value without quotes: its words, with ends of words where there are blanks. -/
def splitAtoms (value : String) : List Atom :=
  (value.toList.splitBy fun a b => Text.isBlank a == Text.isBlank b).map fun run =>
    if run.head?.any Text.isBlank then .stop else .text (String.ofList run)

def atomsOf (s : State) : Fragment → List Atom
  | .text t _ => [.text t]
  | .parameter p quoted =>
    let one (value : String) := if quoted then [Atom.text value] else splitAtoms value
    match p with
    | .positional 0 => one "sh"
    | .positional (n + 1) => one (s.parameters.getD n "")
    | .all => if quoted then [.text (" ".intercalate s.parameters)]
      else (s.parameters.map splitAtoms).intersperse [.stop] |>.flatten
    | .each => ((s.parameters.map one).intersperse [.stop]).flatten
    | .count => one (toString s.parameters.length)
    | .status => one (toString s.status)

/-- The words that atoms make up; `current` is the one that is not ended. -/
def joinAtoms (current : Option String) : List Atom → List String
  | [] => current.toList
  | .stop :: rest => current.toList ++ joinAtoms none rest
  | .text t :: rest => joinAtoms (some (current.getD "" ++ t)) rest

/-- The words that a word stands for. -/
def expand (s : State) (w : Word) : List String :=
  if w == [.text "" true, .parameter .each true] && s.parameters.isEmpty then []
  else joinAtoms none (w.flatMap s.atomsOf)

/-! ### Output -/

inductive Destination where
  | kept
  | dropped
  | file (path : String)
deriving DecidableEq, Repr

/-- Where the two streams of a command go. -/
structure Destinations where
  output : Destination := .kept
  errors : Destination := .dropped

def Destinations.of (d : Destinations) : Stream → Destination
  | .output => d.output
  | .errors => d.errors

def Destinations.set (d : Destinations) (target : Destination) : Stream → Destinations
  | .output => { d with output := target }
  | .errors => { d with errors := target }

/-- A text at the end of what a file holds. -/
def appendTo (content : Content) (text : String) : Content :=
  match content with
  | .text s => .text (s ++ text)
  | .bytes bs => .bytes (bs ++ text.toUTF8.toList)

/-- Opens a file for writing. -/
def openFile (append : Bool) (path : String) (w : Workspace) : Option Workspace :=
  let content := match append, w.read path with
    | true, .ok f => f.content
    | _, _ => .text ""
  (w.write path content).toOption

/-- Opens the files of redirects, in order. -/
def redirect (d : Destinations) : List Redirect → State → Option (Destinations × State)
  | [], s => some (d, s)
  | .stream stream target :: rest, s => redirect (d.set (d.of target) stream) rest s
  | .file stream append target :: rest, s =>
    let path := " ".intercalate (s.expand target)
    if path == "/dev/null" then redirect (d.set .dropped stream) rest s
    else
      match openFile append (s.resolve path) s.workspace with
      | none => none
      | some w =>
        redirect (d.set (.file (s.resolve path)) stream) rest { s with workspace := w }

/-- Writes what a command prints. -/
def print (text : String) (d : Destination) (s : State) : State :=
  match d with
  | .kept => { s with output := s.output ++ text }
  | .dropped => s
  | .file path =>
    match s.workspace.read path with
    | .error _ => s
    | .ok f =>
      match s.workspace.write path (appendTo f.content text) with
      | .ok w => { s with workspace := w }
      | .error _ => s

/-! ### Commands of the language -/

/-- A text with its escapes replaced, up to one that ends the output. -/
def unescape : List Char → List Char × Bool
  | '\\' :: 'c' :: _ => ([], true)
  | '\\' :: c :: cs =>
    let (rest, ended) := unescape cs
    match c with
    | 'n' => ('\n' :: rest, ended)
    | 't' => ('\t' :: rest, ended)
    | 'r' => ('\r' :: rest, ended)
    | 'a' => ('\x07' :: rest, ended)
    | 'b' => ('\x08' :: rest, ended)
    | 'f' => ('\x0c' :: rest, ended)
    | 'v' => ('\x0b' :: rest, ended)
    | '\\' => ('\\' :: rest, ended)
    | c => ('\\' :: c :: rest, ended)
  | c :: cs =>
    let (rest, ended) := unescape cs
    (c :: rest, ended)
  | [] => ([], false)

def echoText (words : List String) : String :=
  let (breaks, words) := match words with
    | "-n" :: rest => (false, rest)
    | words => (true, words)
  let (text, ended) := unescape (" ".intercalate words).toList
  String.ofList (text ++ if breaks && !ended then ['\n'] else [])

/-- Fills the places for values in a format, each from the next argument. -/
def fillFormat : List Char → List String → List Char × List String
  | '%' :: '%' :: cs, args =>
    let (text, rest) := fillFormat cs args
    ('%' :: text, rest)
  | '%' :: c :: cs, args =>
    if c == 's' || c == 'd' then
      let (text, rest) := fillFormat cs args.tail
      ((args.headD (if c == 'd' then "0" else "")).toList ++ text, rest)
    else
      let (text, rest) := fillFormat cs args
      ('%' :: c :: text, rest)
  | c :: cs, args =>
    let (text, rest) := fillFormat cs args
    (c :: text, rest)
  | [], args => ([], args)

/-- Fills a format again and again until no arguments are left. -/
def formatText (format : List Char) (limit : Nat) (args : List String) : List Char :=
  let (text, rest) := fillFormat format args
  match limit with
  | 0 => text
  | limit + 1 =>
    if rest.isEmpty || rest.length == args.length then text
    else text ++ formatText format limit rest

/-- The value of a condition; nothing if it is malformed. -/
def condition? (s : State) : List String → Option Bool
  | [] => some false
  | [a] => some (a != "")
  | ["!", a] => some (a == "")
  | ["-n", a] => some (a != "")
  | ["-z", a] => some (a == "")
  | ["-e", path] => some (s.workspace.exists (s.resolve path))
  | ["-f", path] => some (s.workspace.isFile (s.resolve path))
  | ["-d", path] => some (s.workspace.isDirectory (s.resolve path))
  | "!" :: a :: b :: rest => (condition? s (a :: b :: rest)).map not
  | [a, "=", b] => some (a == b)
  | [a, "!=", b] => some (a != b)
  | [a, op, b] => do
    let x ← a.toInt?
    let y ← b.toInt?
    match op with
    | "-eq" => some (x == y)
    | "-ne" => some (x != y)
    | "-lt" => some (decide (x < y))
    | "-le" => some (decide (x ≤ y))
    | "-gt" => some (decide (y < x))
    | "-ge" => some (decide (y ≤ x))
    | _ => none
  | _ => none

def test (s : State) (args : List String) : State :=
  match s.condition? args with
  | some true => s.finish 0
  | some false => s.finish 1
  | none => s.finish 2

/-- Does something with each path. The status tells whether all went well. -/
def each (paths : List String) (s : State) (f : String → Workspace → Option Workspace) : State :=
  paths.foldl (fun s path =>
    match f (s.resolve path) s.workspace with
    | some w => { s with workspace := w }
    | none => s.finish 1) (s.finish 0)

/-- Runs a program that every system has. Nothing if there is no such program. -/
def runStandard (d : Destination) (s : State) : List String → Option State
  | "cat" :: paths =>
    some (paths.foldl (fun s path =>
      match s.workspace.readText (s.resolve path) with
      | .ok text => s.print text d
      | .error _ => s.finish 1) (s.finish 0))
  | "touch" :: paths =>
    some (s.each paths fun path w => if w.exists path then some w else openFile true path w)
  | "rm" :: "-f" :: paths =>
    some (s.each paths fun path w =>
      if w.isFile path then (w.remove path).toOption
      else if w.exists path then none else some w)
  | "rm" :: paths =>
    some (s.each paths fun path w => if w.isFile path then (w.remove path).toOption else none)
  | "mkdir" :: "-p" :: paths =>
    some (s.each paths fun path w => (w.makeDirectories path).toOption)
  | "mkdir" :: paths =>
    some (s.each paths fun path w =>
      if w.exists path then none
      else (w.locate? path).bind fun loc => some (w.put loc .directory))
  | _ => none

/-- Runs a command of the language. Nothing if there is no such command. -/
def runBuiltin (d : Destination) (s : State) : List String → Option State
  | "echo" :: args => some ((s.print (echoText args) d).finish 0)
  | "printf" :: format :: args =>
    let text := formatText (unescape format.toList).1 args.length args
    some ((s.print (String.ofList text) d).finish 0)
  | "true" :: _ | ":" :: _ => some (s.finish 0)
  | "false" :: _ => some (s.finish 1)
  | "test" :: args => some (s.test args)
  | "[" :: args =>
    some (if args.getLast? == some "]" then s.test args.dropLast else s.finish 2)
  | ["cd", path] =>
    some (if s.workspace.isDirectory (s.resolve path) then
      { s with directory := s.resolve path, status := 0 } else s.finish 2)
  | _ => none

/-! ### Scripts -/

/-- The status for a program that cannot be found. -/
def notFound : Nat := 127

/-- Runs the words of a simple command. The flag tells that the script ends. -/
def runWords (host : Host) (d : Destination) (s : State) (words : List String) : State × Bool :=
  match words with
  | [] => (s.finish 0, false)
  | "exit" :: args =>
    match args with
    | [] => (s, true)
    | n :: _ => (s.finish ((n.toNat?.getD 2) % 256), true)
  | words =>
    match (s.runBuiltin d words).or (if host.standard then s.runStandard d words else none) with
    | some s => (s, false)
    | none => (s.finish notFound, false)

mutual

/-- Runs a command. The flag tells that the script ends. -/
def run (host : Host) (s : State) : Command → State × Bool
  | .simple words redirects =>
    match redirect {} redirects s with
    | none => (s.finish 2, false)
    | some (d, s) => runWords host d.output s (words.flatMap s.expand)
  | .negated c =>
    let (s, ended) := run host s c
    if ended then (s, true) else (s.finish (if s.status = 0 then 1 else 0), false)
  | .both a b =>
    let (s, ended) := run host s a
    if ended || s.status != 0 then (s, ended) else run host s b
  | .either a b =>
    let (s, ended) := run host s a
    if ended || s.status == 0 then (s, ended) else run host s b
  | .branch condition yes no =>
    let (s, ended) := runAll host s condition
    if ended then (s, true)
    else if s.status = 0 then runAll host (s.finish 0) yes
    else runAll host (s.finish 0) no

def runAll (host : Host) (s : State) : List Command → State × Bool
  | [] => (s, false)
  | c :: rest =>
    let (s, ended) := run host s c
    if ended then (s, true) else runAll host s rest

end

/-- Runs the text of a script. One that cannot be read has status 2. -/
def runText (host : Host) (text : String) (s : State) : State :=
  match read? text with
  | none => s.finish 2
  | some commands => (runAll host s commands).1

end State

/-! ### Programs -/

/-- The executable script that a program name stands for. -/
def Host.script? (host : Host) (w : Workspace) (directory program : String) : Option String :=
  let paths :=
    if program.toList.contains '/' then [Path.join directory program]
    else host.directories.map fun d => Path.join d program
  (paths.filterMap fun path => (w.read path).toOption).findSome? fun f =>
    match f.content with
    | .text text =>
      if f.executable && "#!".toList.isPrefixOf text.toList then some text else none
    | .bytes _ => none

/-- Runs a program in a directory. Nothing if it cannot be run. -/
def Host.run (host : Host) (w : Workspace) (directory : String) (command : List String) :
    Option State :=
  let start : State := { workspace := w, directory }
  if !w.isDirectory directory then none
  else
    match command with
    | [] => none
    | program :: args =>
      match host.script? w directory program with
      | some text => some (State.runText host text { start with parameters := args })
      | none =>
        if !host.standard then none
        else if program == "sh" then
          match args with
          | "-c" :: text :: rest =>
            some (State.runText host text { start with parameters := rest.drop 1 })
          | path :: rest =>
            match w.readText (Path.join directory path) with
            | .ok text => some (State.runText host text { start with parameters := rest })
            | .error _ => some (start.finish State.notFound)
          | [] => some start
        else if program == "cd" || program == ":" then none
        else (start.runBuiltin .kept command).or (start.runStandard .kept command)

end OpenApiModels.Script
