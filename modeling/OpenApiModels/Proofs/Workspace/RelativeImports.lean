import OpenApiModels.Proofs.Workspace.Trees

/-!
# Relative imports

A relative specifier leads to the file of a module, from the directory of the file that imports it:
to that of its last part (`moduleFile_of_parts`), or, where it does not end in a name, to the index
of a directory.
-/

namespace OpenApiModels

/-! ### Parts of specifiers -/

namespace Path

/-- The file that a specifier stands for. One that ends in a slash or in points names a directory,
whose module is its index. -/
def moduleFile (specifier : String) : String :=
  if ["", ".", ".."].contains ((parts specifier).getLastD "") then specifier ++ "/index.ts"
  else specifier ++ ".ts"

theorem moduleFile_of_parts {specifier name : String} {steps : List String}
    (split : parts specifier = steps ++ [name]) (isName : name ∉ ["", ".", ".."]) :
    moduleFile specifier = specifier ++ ".ts" := by
  have last : (parts specifier).getLastD "" = name := by rw [split, List.getLastD_concat]
  rw [moduleFile, last, if_neg (by simpa using isName)]

/-- The name of a module's file is a step of its own. -/
theorem fileName_not_mem (name : String) : name ++ ".ts" ∉ ["", ".", ".."] := by
  have long : 3 ≤ (name ++ ".ts").length := by
    rw [String.length_append]
    exact Nat.le_add_left 3 _
  have short : ∀ part ∈ ["", ".", ".."], part.length < 3 := by decide
  exact fun mem => absurd (short _ mem) (Nat.not_lt.2 long)

theorem parts_of_noSlash {name : String} (h : '/' ∉ name.toList) : parts name = [name] := by
  have whole := parts_intercalate (List.cons_ne_nil name []) fun part mem => by
    rwa [List.mem_singleton.1 mem]
  simpa using whole

/-- The way up, then a name. -/
theorem parts_up (n : Nat) (name : String) :
    parts (String.join (List.replicate n "../") ++ name) = List.replicate n ".." ++ parts name := by
  induction n with
  | zero => rw [List.replicate_zero, List.replicate_zero, String.join, List.foldl_nil,
      String.empty_append, List.nil_append]
  | succ n ih =>
    have step : String.join (List.replicate (n + 1) "../") ++ name =
        ".." ++ "/" ++ (String.join (List.replicate n "../") ++ name) := by
      rw [← String.toList_inj]
      simp [String.toList_join, List.replicate_succ]
    rw [step, parts_append_slash, ih, List.replicate_succ]
    rfl

theorem components_path {loc : Location} (named : loc.Named) (some : loc ≠ []) :
    components (Location.path loc) = loc := by
  have isParts := Location.parts_path named some
  have kept : loc.filter (fun p => p != "" && p != ".") = loc := by
    refine List.filter_eq_self.2 fun name mem => ?_
    simp [(named name mem).nonempty, (named name mem).ne_self]
  have head : (loc.head? == Option.some ".") = false := by
    cases loc with
    | nil => rfl
    | cons name loc => simpa using (named name List.mem_cons_self).ne_self
  rw [components, Location.isAbsolute_path named, isParts, kept, head]
  rfl

/-- The depth of a path counts the directories on the way. -/
theorem depth_path {loc : Location} (named : loc.Named) :
    depth (Location.path loc) = loc.dropLast.length := by
  by_cases none : loc = []
  · subst none
    decide
  · rw [depth, components_path named none, List.length_dropLast]
    split
    · rename_i root
      rw [root]
      rfl
    · rfl

end Path

/-! ### Where specifiers lead -/

namespace Location

/-- Goes from a location along the parts of a path, as if all directories were there. -/
def follow : Location → List String → Option Location
  | here, [] => some here
  | here, part :: parts =>
    if part == "" || part == "." then follow here parts
    else if part == ".." then if here = [] then none else follow here.dropLast parts
    else follow (here ++ [part]) parts

/-- Where a specifier leads from a file, wherever files are. -/
def module? (importer : Location) (specifier : String) : Option Location :=
  follow importer.dropLast (Path.parts (Path.moduleFile specifier))

/-- A name leads to the file of that name beside the importing one. -/
theorem module?_beside (directory : Location) (file : String) {name : String}
    (isName : name ∉ ["", ".", ".."]) (noSlash : '/' ∉ name.toList) :
    module? (directory ++ [file]) ("./" ++ name) = some (directory ++ [name ++ ".ts"]) := by
  have below (part : String) (single : '/' ∉ part.toList) :
      Path.parts ("./" ++ part) = ["."] ++ [part] := by
    rw [show "./" ++ part = "." ++ "/" ++ part from rfl, Path.parts_append_slash,
      Path.parts_of_noSlash single]
    rfl
  have isFile : '/' ∉ (name ++ ".ts").toList := by simpa using noSlash
  have isParts : Path.parts (Path.moduleFile ("./" ++ name)) = [".", name ++ ".ts"] := by
    rw [Path.moduleFile_of_parts (below name noSlash) isName, String.append_assoc, below _ isFile]
    rfl
  have isStep := Path.fileName_not_mem name
  simp only [List.mem_cons, List.not_mem_nil, or_false, not_or] at isStep
  rw [module?, List.dropLast_concat, isParts]
  simp [follow, isStep]

/-- No name leads to the index beside the importing file. -/
theorem module?_here (directory : Location) (file : String) :
    module? (directory ++ [file]) "./" = some (directory ++ ["index.ts"]) := by
  have isParts : Path.parts (Path.moduleFile "./") = [".", "", "index.ts"] := by decide
  rw [module?, List.dropLast_concat, isParts]
  rfl

end Location

namespace Workspace

variable {w : Workspace} {place : Location}

/-- As many steps up as there are directories on the way lead back. -/
theorem follow_up (dirs : Location) (directories : ∀ a b, dirs = a ++ b →
    w.isDirectoryAt (place ++ a) = true) :
    w.follow (place ++ dirs) (List.replicate dirs.length "..") = some place := by
  induction dirs using List.reverseRec with
  | nil => rw [List.append_nil, List.length_nil, List.replicate_zero, follow]
  | append_singleton dirs name ih =>
    have here := directories (dirs ++ [name]) [] (List.append_nil _).symm
    have up := ih fun a b split => directories a (b ++ [name]) (by rw [split, List.append_assoc])
    rw [List.length_append, List.length_singleton, List.replicate_succ, follow, here,
      ← List.append_assoc, List.dropLast_concat, up]
    simp

/-- Where a specifier leads from the file in a place. -/
def resolve? (w : Workspace) (importer : Location) (specifier : String) : Option Location :=
  w.follow importer.dropLast (Path.parts (Path.moduleFile specifier))

/-- A walk through a workspace goes where the parts of the path lead. -/
theorem follow_of_follow {here found : Location} {parts : List String}
    (h : w.follow here parts = some found) : Location.follow here parts = some found := by
  fun_induction follow w here parts with
  | case1 here => rwa [Location.follow]
  | case2 => cases h
  | case3 here part parts directory stays ih => rw [Location.follow, if_pos stays, ih h]
  | case4 => cases h
  | case5 here part parts directory moves up inner ih =>
    rw [Location.follow, if_neg moves, if_pos up, if_neg inner, ih h]
  | case6 => cases h
  | case7 here part parts directory moves down short ih =>
    rw [Location.follow, if_neg moves, if_neg down, ih h]

/-- The module that a specifier leads to in a workspace is the one that it names. -/
theorem module?_of_resolve? {importer found : Location} {specifier : String}
    (h : w.resolve? importer specifier = some found) :
    Location.module? importer specifier = some found :=
  follow_of_follow h

end Workspace

end OpenApiModels
