import OpenApiModels.ModelFile.Basic

/-!
# Layout of model files

The text of a model file, where no templates are given. Descriptions stand in documentation
comments, which they cannot close.
-/

namespace OpenApiModels.ModelFile

/-- What the header of a file says about the spec, and whether there are documentation
comments. -/
structure LayoutOptions where
  title : String
  version : String
  comments : Bool

/-- A text that does not close the comment it stands in. -/
def commentText (s : String) : List Char :=
  Text.replaceAll ['*', '/'] ['*', '\\', '/'] (by decide) s.toList

/-- The description to write; an empty one counts for none. -/
def described (o : LayoutOptions) (description : Option String) : Option (List Char) :=
  if o.comments then (description.filter (· != "")).map commentText else none

/-- A comment above a declaration. -/
def declarationComment (o : LayoutOptions) (description : Option String) : List Char :=
  match described o description with
  | some text => "/**\n * ".toList ++ text ++ "\n */\n".toList
  | none => []

def headerLine (o : LayoutOptions) : List Char :=
  "// Generated by specgen".toList ++
    (if o.title == "" then [] else (" from " ++ o.title ++ " " ++ o.version).toList) ++
    ". Do not edit.\n".toList

def importLine (name : String) : List Char :=
  ("import type \x7b " ++ name ++ " \x7d from \"./" ++ name ++ "\";\n").toList

def memberLine (m : Member) : List Char :=
  ("    " ++ m.name ++ " = " ++ m.literal ++ ",\n").toList

def enumText (o : LayoutOptions) (e : EnumType) : List Char :=
  declarationComment o e.description ++ ("export enum " ++ e.name ++ " \x7b\n").toList ++
    e.members.flatMap memberLine ++ ['\x7d', '\n']

def fieldLines (o : LayoutOptions) (f : Field) : List Char :=
  (match described o f.description with
    | some text => "    /** ".toList ++ text ++ " */\n".toList
    | none => []) ++
  ("    " ++ (if f.readOnly then "readonly " else "") ++ f.key ++
    (if f.isOptional then "?" else "") ++ ": ").toList ++ f.type.text ++ [';', '\n']

def bodyText (o : LayoutOptions) (f : ModelFile) : List Char :=
  match f.body with
  | .enum members => enumText o ⟨f.name, f.description, members⟩
  | .interface fields isOpen =>
    ("export interface " ++ f.name ++ " \x7b\n").toList ++ fields.flatMap (fieldLines o) ++
      (if isOpen then "    [key: string]: unknown;\n".toList else []) ++ ['\x7d', '\n']
  | .alias target => ("export type " ++ f.name ++ " = ").toList ++ target.text ++ [';', '\n']

/-- The text of a model file. -/
def text (o : LayoutOptions) (f : ModelFile) : List Char :=
  headerLine o ++ f.imports.flatMap importLine ++ ['\n'] ++ declarationComment o f.description ++
    bodyText o f ++ f.enums.flatMap fun e => '\n' :: enumText o e

/-- The text of the index file, which exports every model again. -/
def indexText (modules : List String) : List Char :=
  "// Generated by specgen. Do not edit.\n".toList ++
    modules.flatMap fun m => ("export * from \"./" ++ m ++ "\";\n").toList

end OpenApiModels.ModelFile
