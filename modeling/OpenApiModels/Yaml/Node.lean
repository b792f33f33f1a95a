import OpenApiModels.Yaml.Token

/-!
# YAML documents

A document is a tree of nodes. The anchors of a tree have names of their own, and an alias holds
the name of the anchor that it stands for.
-/

namespace OpenApiModels.Yaml

inductive Node where
  | scalar (tag : Option String) (style : ScalarStyle) (text : String)
  | sequence (items : List Node)
  | mapping (pairs : List (Node × Node))
  | anchored (name : String) (node : Node)
  | alias (name : String)
deriving Inhabited

namespace Node

/-- The node that stands where nothing is written. -/
def nothing : Node := .scalar none .plain ""

mutual

/-- The node with an anchor. -/
def anchor? (name : String) : Node → Option Node
  | .anchored n node => if n = name then some node else anchor? name node
  | .sequence items => anchorAmong? name items
  | .mapping pairs => anchorWithin? name pairs
  | .scalar _ _ _ => none
  | .alias _ => none

def anchorAmong? (name : String) : List Node → Option Node
  | [] => none
  | item :: items => (anchor? name item).or (anchorAmong? name items)

def anchorWithin? (name : String) : List (Node × Node) → Option Node
  | [] => none
  | (k, v) :: pairs => ((anchor? name k).or (anchor? name v)).or (anchorWithin? name pairs)

end

/-- The node without its anchor. -/
def bare : Node → Node
  | .anchored _ node => bare node
  | node => node

end Node

/-! ### Properties -/

/-- The anchor and the tag that may stand before a node. -/
structure Properties where
  anchor : Option String := none
  tag : Option (String × String) := none

/-- Reads the properties of a node, which come in either order. -/
def readProperties : List Token → Properties × List Token
  | .anchor a :: .tag h s :: ts => (⟨some a, some (h, s)⟩, ts)
  | .tag h s :: .anchor a :: ts => (⟨some a, some (h, s)⟩, ts)
  | .anchor a :: ts => (⟨some a, none⟩, ts)
  | .tag h s :: ts => (⟨none, some (h, s)⟩, ts)
  | ts => ({}, ts)

/-- The handles of tags with what they stand for. -/
abbrev Handles := List (String × String)

/-- The full tag; nothing if its handle is not known. -/
def Handles.tag? (handles : Handles) : String × String → Option String
  | ("", suffix) => some suffix
  | (handle, suffix) => (handles.lookup handle).map (· ++ suffix)

/-! ### Collections -/

abbrev NodeReader := List Token → Option (Node × List Token)

/-- Reads a node, unless one of some tokens comes next. -/
def orNothing (stops : List Token) (node : NodeReader) : NodeReader := fun ts =>
  if ts.head?.any stops.contains then some (.nothing, ts) else node ts

/-- Reads the items of a block sequence up to its end. -/
def readItems (node : NodeReader) (ts : List Token) : Option (List Node × List Token) :=
  match ts with
  | .blockEnd :: ts => some ([], ts)
  | .blockEntry :: ts =>
    match orNothing [.blockEntry, .blockEnd] node ts with
    | none => none
    | some (item, rest) =>
      if rest.length ≤ ts.length then
        (readItems node rest).map fun (items, rest) => (item :: items, rest)
      else none
  | _ => none
termination_by ts.length

/-- Reads the items of a block sequence that is not indented. Nothing marks its end. -/
def readFlatItems (node : NodeReader) (ts : List Token) : Option (List Node × List Token) :=
  match ts with
  | .blockEntry :: ts =>
    match orNothing [.blockEntry, .key, .value, .blockEnd] node ts with
    | none => none
    | some (item, rest) =>
      if rest.length ≤ ts.length then
        (readFlatItems node rest).map fun (items, rest) => (item :: items, rest)
      else none
  | ts => some ([], ts)
termination_by ts.length

/-- Reads the value of a key, if there is one. -/
def readValue (stops : List Token) (node : NodeReader) : NodeReader
  | .value :: ts => orNothing stops node ts
  | ts => some (.nothing, ts)

/-- Reads the pairs of a block mapping up to its end. -/
def readPairs (node : NodeReader) (ts : List Token) : Option (List (Node × Node) × List Token) :=
  match ts with
  | .blockEnd :: ts => some ([], ts)
  | .key :: ts =>
    let stops : List Token := [.key, .value, .blockEnd]
    match orNothing stops node ts with
    | none => none
    | some (k, rest) =>
      match readValue stops node rest with
      | none => none
      | some (v, rest) =>
        if rest.length ≤ ts.length then
          (readPairs node rest).map fun (pairs, rest) => ((k, v) :: pairs, rest)
        else none
  | _ => none
termination_by ts.length

/-- Reads a pair that is an item of a flow sequence, from behind the key mark. A token that stands
in place of the key is passed over. -/
def readPairItem (node : NodeReader) : NodeReader := fun ts => do
  let skipped : Bool := ts.head?.any [Token.value, .flowEntry, .flowSequenceEnd].contains
  let (k, ts) ← if skipped then some (.nothing, ts.tail) else node ts
  let (v, ts) ← readValue [.flowEntry, .flowSequenceEnd] node ts
  pure (.mapping [(k, v)], ts)

/-- Passes over the comma before a further item. -/
def afterComma (first : Bool) : List Token → Option (List Token)
  | .flowEntry :: ts => if first then some (.flowEntry :: ts) else some ts
  | ts => if first then some ts else none

/-- Reads the items of a flow sequence up to its end. -/
def readFlowItems (node : NodeReader) (first : Bool) (ts : List Token) :
    Option (List Node × List Token) :=
  match ts with
  | .flowSequenceEnd :: ts => some ([], ts)
  | ts =>
    match afterComma first ts with
    | none => none
    | some (.flowSequenceEnd :: ts) => some ([], ts)
    | some start =>
      let item : Option (Node × List Token) :=
        match start with
        | .key :: start => readPairItem node start
        | start => node start
      match item with
      | none => none
      | some (item, rest) =>
        if rest.length < ts.length then
          (readFlowItems node false rest).map fun (items, rest) => (item :: items, rest)
        else none
termination_by ts.length

/-- Reads the pairs of a flow mapping up to its end. -/
def readFlowPairs (node : NodeReader) (first : Bool) (ts : List Token) :
    Option (List (Node × Node) × List Token) :=
  match ts with
  | .flowMappingEnd :: ts => some ([], ts)
  | ts =>
    match afterComma first ts with
    | none => none
    | some (.flowMappingEnd :: ts) => some ([], ts)
    | some start =>
      let pair : Option ((Node × Node) × List Token) :=
        match start with
        | .key :: start =>
          (orNothing [.value, .flowEntry, .flowMappingEnd] node start).bind fun (k, rest) =>
            (readValue [.flowEntry, .flowMappingEnd] node rest).map fun (v, rest) => ((k, v), rest)
        | start => (node start).map fun (k, rest) => ((k, .nothing), rest)
      match pair with
      | none => none
      | some (pair, rest) =>
        if rest.length < ts.length then
          (readFlowPairs node false rest).map fun (pairs, rest) => (pair :: pairs, rest)
        else none
termination_by ts.length

/-! ### Nodes -/

/-- Where a node stands: in a flow collection, in a block collection, or in a block mapping, where
sequences need no indentation. -/
inductive Place where
  | flow
  | block
  | pair
deriving DecidableEq, Repr

/-- Reads what follows the properties of a node. -/
def readContent (child : Place → NodeReader) (place : Place) (tag : Option String)
    (bareAllowed : Bool) : NodeReader
  | .scalar style text :: ts => some (.scalar tag style text, ts)
  | .flowSequenceStart :: ts =>
    (readFlowItems (child .flow) true ts).map fun (items, rest) => (.sequence items, rest)
  | .flowMappingStart :: ts =>
    (readFlowPairs (child .flow) true ts).map fun (pairs, rest) => (.mapping pairs, rest)
  | ts =>
    match place, ts with
    | .pair, .blockEntry :: _ =>
      (readFlatItems (child .block) ts).map fun (items, rest) => (.sequence items, rest)
    | .flow, _ => if bareAllowed then some (.scalar tag .plain "", ts) else none
    | _, .sequenceStart :: ts =>
      (readItems (child .block) ts).map fun (items, rest) => (.sequence items, rest)
    | _, .mappingStart :: ts =>
      (readPairs (child .pair) ts).map fun (pairs, rest) => (.mapping pairs, rest)
    | _, ts => if bareAllowed then some (.scalar tag .plain "", ts) else none

/-- Reads a node, in which collections may nest `depth` deep. -/
def readNode (handles : Handles) : Nat → Place → NodeReader
  | 0, _, _ => none
  | _ + 1, _, .alias name :: ts => some (.alias name, ts)
  | depth + 1, place, ts => do
    let (properties, rest) := readProperties ts
    let tag ←
      match properties.tag with
      | none => some none
      | some t => (handles.tag? t).map some
    let bareAllowed := properties.anchor.isSome || properties.tag.isSome
    let (node, rest) ← readContent (readNode handles depth) place tag bareAllowed rest
    match properties.anchor with
    | none => some (node, rest)
    | some name => some (.anchored name node, rest)

/-! ### Documents -/

/-- Gives each anchor a name of its own, and each alias the name of the last anchor before it with
the same name. Nothing if there is none. -/
def distinguishAnchors (known : List (String × String)) (count : Nat) :
    List Token → Option (List Token)
  | [] => some []
  | .anchor name :: ts =>
    let own := toString count
    (distinguishAnchors ((name, own) :: known) (count + 1) ts).map (.anchor own :: ·)
  | .alias name :: ts =>
    (known.lookup name).bind fun own => (distinguishAnchors known count ts).map (.alias own :: ·)
  | t :: ts => (distinguishAnchors known count ts).map (t :: ·)

/-- What directives say: whether there is a version, and which handles are declared. -/
structure Directives where
  version : Bool := false
  handles : Handles := []

/-- Reads directives. There may be one version, and one declaration of each handle. -/
def readDirectives (d : Directives) : List Token → Option (Directives × List Token)
  | .versionDirective major minor :: ts =>
    if d.version || major != 1 || (minor != 1 && minor != 2) then none
    else readDirectives { d with version := true } ts
  | .tagDirective handle start :: ts =>
    if (d.handles.lookup handle).isSome then none
    else readDirectives { d with handles := d.handles ++ [(handle, start)] } ts
  | ts => some (d, ts)

/-- The handles of every document, unless it declares them otherwise. -/
def standardHandles : Handles :=
  [("!", "!"), ("!!", "tag:yaml.org,2002:")]

/-- Reads the root of a document from behind its directives. -/
def readRoot (handles : Handles) (depth : Nat) : NodeReader
  | .documentStart :: ts =>
    match ts with
    | [] | .documentEnd :: _ => some (.nothing, ts)
    | ts => readNode handles depth .block ts
  | _ => none

/-- Reads a document. Without directives its start need not be marked. -/
def readDocument : NodeReader := fun ts => do
  let (d, rest) ← readDirectives {} ts
  let handles := d.handles ++ standardHandles
  if rest.length < ts.length || rest.head? == some .documentStart then
    readRoot handles (ts.length + 1) rest
  else if rest.isEmpty then some (.nothing, rest)
  else readNode handles (ts.length + 1) .block rest

/-- The root of the only document of a text; nothing in an empty text stands for an empty
document. -/
def read? (text : String) : Option Node := do
  let ts ← tokens? text
  let ts ← distinguishAnchors [] 0 ts
  let (node, rest) ← readDocument ts
  if rest.all (· == .documentEnd) then some node else none

end OpenApiModels.Yaml
