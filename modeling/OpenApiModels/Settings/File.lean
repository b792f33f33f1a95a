import OpenApiModels.Settings.Basic
import OpenApiModels.Workspace.Action
import OpenApiModels.Yaml.Record

/-!
# Settings files

Settings are read from a YAML file. A project without one has the default settings.
-/

namespace OpenApiModels

open Yaml

def FallbackMode.ofView? (v : View) : Option FallbackMode :=
  v.choice?.bind ofName?

def EnumMode.ofView? (v : View) : Option EnumMode :=
  v.choice?.bind ofName?

def EnumSettings.ofView? (v : View) : Option EnumSettings := do
  let default : EnumSettings := {}
  let fields ← v.fields? ["limit", "unions"]
  let limit ← View.field fields "limit" default.limit View.number?
  let unions ← View.field fields "unions" default.unions EnumMode.ofView?
  pure { limit, unions }

def PostprocessSettings.ofView? (v : View) : Option PostprocessSettings := do
  let default : PostprocessSettings := {}
  let fields ← v.fields? ["enabled", "extensions", "formatter", "typecheck"]
  let enabled ← View.field fields "enabled" default.enabled View.flag?
  let extensions ← View.field fields "extensions" default.extensions View.texts?
  let formatter ← View.field fields "formatter" default.formatter View.texts?
  let typecheck ← View.field fields "typecheck" default.typecheck View.flag?
  pure { enabled, extensions, formatter, typecheck }

/-- Reads the setting that says whether checksums are stored. -/
def stampOfView? (v : View) : Option Bool := do
  let fields ← v.fields? ["stamp"]
  View.field fields "stamp" ({} : Settings).stamp View.flag?

namespace Settings

def ofView? (v : View) : Option Settings := do
  let default : Settings := {}
  let fields ← v.fields?
    ["input", "output", "fallback", "template_dir", "enums", "postprocess", "checksums"]
  let input ← View.field fields "input" default.input View.text?
  let output ← View.field fields "output" default.output View.text?
  let fallback ← View.field fields "fallback" default.fallback FallbackMode.ofView?
  let templateDirectory ← View.field fields "template_dir" none View.optionalText?
  let enums ← View.field fields "enums" default.enums EnumSettings.ofView?
  let postprocess ← View.field fields "postprocess" default.postprocess
    PostprocessSettings.ofView?
  let stamp ← View.field fields "checksums" default.stamp stampOfView?
  pure { input, output, fallback, templateDirectory, enums, postprocess, stamp }

/-- The settings that a YAML text gives. -/
def ofText? (text : String) : Option Settings :=
  (view? text).bind ofView?

/-! ### Files -/

/-- Why settings cannot be loaded. -/
inductive Error where
  | unreadable (path cause : String)
  | malformed (path : String)
deriving DecidableEq, Repr

/-- The text of an error. What is wrong with a settings file is not kept. -/
def Error.message : Error → String
  | .unreadable path cause => s!"failed to read config {path}: {cause}"
  | .malformed path => s!"failed to parse config {path}: not a settings file"

/-- Loads the settings in a file. Nothing if there is no file. -/
def load? (path : String) : Action Error (Option Settings) := do
  if ← Action.look (·.exists path) then
    let text ← Action.readText path fun e => .unreadable path e.message
    match ofText? text with
    | some s => pure (some s)
    | none => throw (.malformed path)
  else pure none

/-- The name of the settings file of a project. -/
def fileName : String := ".specgen.yaml"

/-- The settings file of a new project, which gives every setting its default. -/
def defaultText : String :=
  "# specgen configuration\n" ++
  "input: openapi.json\n" ++
  "output: src/generated\n" ++
  "fallback: warn          # strict | warn | auto (OPENAPI_ADAPTER_FALLBACK overrides)\n" ++
  "# template_dir: templates\n" ++
  "\n" ++
  "enums:\n" ++
  "  limit: 45             # CODEGEN_ENUM_LIMIT overrides\n" ++
  "  unions: auto          # auto | union | branded (CODEGEN_ENUM_UNIONS overrides)\n" ++
  "\n" ++
  "postprocess:\n" ++
  "  enabled: true\n" ++
  "  extensions: [ts]\n" ++
  "  formatter: [\"npx\", \"@biomejs/biome\", \"format\", \"--write\", \".\"]\n" ++
  "  typecheck: false\n" ++
  "\n" ++
  "checksums:\n" ++
  "  stamp: true\n"

end Settings

end OpenApiModels
