import MuProc.Yaml.Layout
import MuProc.Yaml.Node
import MuProc.Yaml.Tag

/-!
# From tokens to trees

The tokens of the first document are read into a tree. An anchor names the node
behind it, and an alias stands for the node its name was given to last. An alias may
stand inside its own node; there it has that node as its target, in which it has none
itself. A missing value is an empty scalar.
-/

namespace MuProc.Yaml

/-- An anchor: its name, its node unless that is still being read, and whether the node
contains an alias of itself. -/
structure Anchor where
  name : String
  node : Option Node := none
  cyclic : Bool := false
deriving Inhabited

/-- The tokens still to be read, and what is known from those before. -/
structure Stream where
  scanner : Scanner
  /-- The anchors in the order of their places. -/
  anchors : Array Anchor := #[]
  /-- The handles of tags with the beginnings they abbreviate. -/
  handles : List (String × String) := []

abbrev Reader := StateT Stream (Except SyntaxError)

namespace Reader

def peek : Reader Token := do
  let s ← get
  let (t, scanner) ← (Layout.peek.run s.scanner : Except SyntaxError _)
  set { s with scanner }
  return t

def skip : Reader Unit := do
  let s ← get
  let ((), scanner) ← (Layout.skip.run s.scanner : Except SyntaxError _)
  set { s with scanner }

/-- The token in the place that a token had in an earlier state. -/
def successor (before : Scanner) (t : Token) : Reader Token := do
  let s ← get
  let (t, scanner) ← ((Layout.successor before t).run s.scanner : Except SyntaxError _)
  set { s with scanner }
  return t

def expected {α : Type} (t : Token) (what : String) : Reader α :=
  throw ⟨t.start, "did not find expected " ++ what⟩

def missing (m : Mark) : Node :=
  .scalar "!!null" "" (m.line + 1) (m.column + 1)

def slotTag (slot : Nat) : String :=
  "*" ++ toString slot

def aliasNode (t : Token) (name : String) : Reader Node := do
  let line : Int := t.start.line + 1
  let column : Int := t.start.column + 1
  let s ← get
  match s.anchors.toList.zipIdx.reverse.find? (·.1.name = name) with
  | none => throw ⟨t.start, "unknown anchor '" ++ name ++ "' referenced"⟩
  | some ({ node := some n, .. }, _) => return .aliasOf name n line column
  | some (_, slot) =>
    set { s with anchors := s.anchors.modify slot fun a => { a with cyclic := true } }
    return .pendingAlias (slotTag slot) name line column

def declare (name : String) : Reader Nat := do
  let s ← get
  set { s with anchors := s.anchors.push { name } }
  return s.anchors.size

/-- Gives an anchor its node. The aliases of it inside the node, and inside the anchored
nodes that it holds, get a target in which the same aliases have none. -/
def settle (slot : Nat) (n : Node) : Reader Node := do
  let s ← get
  if (s.anchors[slot]?).any (·.cyclic) then
    let complete := Node.settle (slotTag slot) (some (n.settle (slotTag slot) none))
    let anchors := s.anchors.map fun a => { a with node := a.node.map complete }
    set { s with anchors := anchors.modify slot fun a => { a with node := some (complete n) } }
    return complete n
  set { s with anchors := s.anchors.modify slot fun a => { a with node := some n } }
  return n

def tagOf (t : Token) (handle suffix : String) : Reader String := do
  if handle = "" then return suffix
  match (← get).handles.lookup handle with
  | some start =>
    if start ++ suffix = "" then throw ⟨t.start, "found undefined tag handle"⟩
    return start ++ suffix
  | none => throw ⟨t.start, "found undefined tag handle"⟩

/-- What stands in front of a node. -/
structure Properties where
  anchor : Option Nat := none
  tag : String := ""

def Properties.isSome (p : Properties) : Bool :=
  p.anchor.isSome || p.tag ≠ ""

/-- An anchor and a tag in front of a node, in any order. Each may be missing. -/
def properties : Reader Properties := do
  let first ← peek
  match first.kind with
  | .anchor name =>
    skip
    let second ← peek
    match second.kind with
    | .tag handle suffix =>
      skip
      let tag ← tagOf second handle suffix
      return { anchor := some (← declare name), tag }
    | _ => return { anchor := some (← declare name) }
  | .tag handle suffix =>
    skip
    let tag ← tagOf first handle suffix
    match (← peek).kind with
    | .anchor name =>
      skip
      return { anchor := some (← declare name), tag }
    | _ => return { tag }
  | _ => return {}

/-- The beginning of the tags that have a short form. -/
def commonTag : String := "tag:yaml.org,2002:"

def shortTag (tag : String) : String :=
  if tag.startsWith commonTag then "!!" ++ (tag.drop commonTag.length).toString else tag

/-- The node with the tag in front of it, if there is one. -/
def Properties.apply (p : Properties) (n : Node) : Node :=
  if p.tag = "" ∨ p.tag = "!" then n else n.withTag (shortTag p.tag)

/-- A node of which only the properties are there. -/
def absent (t : Token) (p : Properties) (line column : Int) : Reader Node :=
  if p.isSome then return .scalar "!!null" "" line column else expected t "node content"

mutual

/-- One node. Block collections are only read where `block` is set, and a sequence
whose dashes are not indented where `flat` is set. -/
def node : (fuel : Nat) → (block flat : Bool) → Reader Node
  | 0, _, _ => do expected (← peek) "node content"
  | fuel + 1, block, flat => do
    let first ← peek
    let line : Int := first.start.line + 1
    let column : Int := first.start.column + 1
    if let .alias name := first.kind then
      skip
      return ← aliasNode first name
    let props ← properties
    let t ← peek
    let n ← match t.kind with
      | .scalar text plain => do
        skip
        pure (.scalar (if plain then plainTag text else "!!str") text line column)
      | .flowSequenceStart => do
        skip
        pure (.sequence (← flowItems fuel true) line column)
      | .flowMappingStart => do
        skip
        pure (.mapping (← flowEntries fuel true) line column)
      | .blockSequenceStart =>
        if block then do
          skip
          pure (.sequence (← blockItems fuel) line column)
        else absent t props line column
      | .blockMappingStart =>
        if block then do
          skip
          pure (.mapping (← blockEntries fuel) line column)
        else absent t props line column
      | .blockEntry =>
        if flat then do pure (.sequence (← flatItems fuel) line column)
        else absent t props line column
      | _ => absent t props line column
    let n := props.apply n
    match props.anchor with
    | some slot => settle slot n
    | none => return n

def blockItems : (fuel : Nat) → Reader (List Node)
  | 0 => do expected (← peek) "'-' indicator"
  | fuel + 1 => do
    let t ← peek
    match t.kind with
    | .blockEntry =>
      skip
      let n ← match (← peek).kind with
        | .blockEntry | .blockEnd => pure (missing t.stop)
        | _ => node fuel true false
      return n :: (← blockItems fuel)
    | .blockEnd =>
      skip
      return []
    | _ => expected t "'-' indicator"

/-- The members of a sequence whose dashes are not indented. -/
def flatItems : (fuel : Nat) → Reader (List Node)
  | 0 => return []
  | fuel + 1 => do
    let t ← peek
    match t.kind with
    | .blockEntry =>
      skip
      let n ← match (← peek).kind with
        | .blockEntry | .key | .value | .blockEnd => pure (missing t.stop)
        | _ => node fuel true false
      return n :: (← flatItems fuel)
    | _ => return []

/-- The keys and values of a block mapping in turn. -/
def blockEntries : (fuel : Nat) → Reader (List Node)
  | 0 => do expected (← peek) "key"
  | fuel + 1 => do
    let t ← peek
    match t.kind with
    | .key =>
      skip
      let k ← match (← peek).kind with
        | .key | .value | .blockEnd => pure (missing t.stop)
        | _ => node fuel true true
      let v ← blockValue fuel
      return k :: v :: (← blockEntries fuel)
    | .blockEnd =>
      skip
      return []
    | _ => expected t "key"

def blockValue : (fuel : Nat) → Reader Node
  | 0 => do expected (← peek) "value"
  | fuel + 1 => do
    let t ← peek
    match t.kind with
    | .value =>
      skip
      match (← peek).kind with
      | .key | .value | .blockEnd => return missing t.stop
      | _ => node fuel true true
    | _ => return missing t.start

/-- The members of a flow sequence. A single pair may stand without braces. -/
def flowItems : (fuel : Nat) → (first : Bool) → Reader (List Node)
  | 0, _ => do expected (← peek) "',' or ']'"
  | fuel + 1, first => do
    let t ← peek
    if t.kind = .flowSequenceEnd then
      skip
      return []
    if !first then
      if t.kind = .flowEntry then skip else expected t "',' or ']'"
    let t ← peek
    match t.kind with
    | .flowSequenceEnd =>
      skip
      return []
    | .key =>
      skip
      let k ← pairKey fuel
      let v ← pairValue fuel
      let n : Node := .mapping [k, v] (t.start.line + 1) (t.start.column + 1)
      return n :: (← flowItems fuel false)
    | _ =>
      let n ← node fuel false false
      return n :: (← flowItems fuel false)

/-- The key of a pair in a flow sequence. If it is missing, the sign behind it is read
over as well. -/
def pairKey : (fuel : Nat) → Reader Node
  | 0 => do expected (← peek) "key"
  | fuel + 1 => do
    let t ← peek
    match t.kind with
    | .value | .flowEntry | .flowSequenceEnd =>
      skip
      return missing t.stop
    | _ => node fuel false false

/-- The value of a pair in a flow sequence. If it is missing behind its colon, it counts as
standing at the token that has taken the colon's place. -/
def pairValue : (fuel : Nat) → Reader Node
  | 0 => do expected (← peek) "value"
  | fuel + 1 => do
    let t ← peek
    if t.kind = .value then
      let before := (← get).scanner
      skip
      match (← peek).kind with
      | .flowEntry | .flowSequenceEnd => return missing (← successor before t).start
      | _ => node fuel false false
    else return missing t.start

/-- The keys and values of a flow mapping in turn. -/
def flowEntries : (fuel : Nat) → (first : Bool) → Reader (List Node)
  | 0, _ => do expected (← peek) "',' or closing brace"
  | fuel + 1, first => do
    let t ← peek
    if t.kind = .flowMappingEnd then
      skip
      return []
    if !first then
      if t.kind = .flowEntry then skip else expected t "',' or closing brace"
    let t ← peek
    match t.kind with
    | .flowMappingEnd =>
      skip
      return []
    | .key =>
      skip
      let next ← peek
      let k ← match next.kind with
        | .value | .flowEntry | .flowMappingEnd => pure (missing next.start)
        | _ => node fuel false false
      let v ← flowValue fuel
      return k :: v :: (← flowEntries fuel false)
    | _ =>
      let k ← node fuel false false
      let v := missing (← peek).start
      return k :: v :: (← flowEntries fuel false)

def flowValue : (fuel : Nat) → Reader Node
  | 0 => do expected (← peek) "value"
  | fuel + 1 => do
    if (← peek).kind = .value then skip
    else return missing (← peek).start
    let t ← peek
    match t.kind with
    | .flowEntry | .flowMappingEnd => return missing t.start
    | _ => node fuel false false

end

/-- Reads the directives in front of a document. A version and a handle are given once
at most. -/
def directives : (fuel : Nat) → (versioned : Bool) → Reader Unit
  | 0, _ => return
  | fuel + 1, versioned => do
    let t ← peek
    match t.kind with
    | .version major minor =>
      if versioned then throw ⟨t.start, "found duplicate %YAML directive"⟩
      if major ≠ 1 ∨ minor ≠ 1 then throw ⟨t.start, "found incompatible YAML document"⟩
      skip
      directives fuel true
    | .tagHandle handle start =>
      if ((← get).handles.lookup handle).isSome then
        throw ⟨t.start, "found duplicate %TAG directive"⟩
      skip
      modify fun s => { s with handles := s.handles ++ [(handle, start)] }
      directives fuel versioned
    | _ => modify fun s => { s with handles := s.handles ++ [("!", "!"), ("!!", commonTag)] }

def documentContent (fuel : Nat) : Reader Node := do
  let t ← peek
  match t.kind with
  | .version _ _ | .tagHandle _ _ | .documentStart | .documentEnd | .streamEnd =>
    return missing t.start
  | _ => node fuel true false

/-- The root of the first document, if there is one. The document ends where the token
behind it is known. -/
def document (fuel : Nat) : Reader (Option Node) := do
  let _ ← peek
  skip
  let t ← peek
  match t.kind with
  | .streamEnd => return none
  | .version _ _ | .tagHandle _ _ | .documentStart =>
    directives fuel false
    let t ← peek
    if t.kind ≠ .documentStart then expected t "<document start>"
    skip
    let n ← documentContent fuel
    let _ ← peek
    return some n
  | _ =>
    directives fuel false
    let n ← node fuel true false
    let _ ← peek
    return some n

end Reader

/-- Reads the first document of a text. What follows it does not matter, but for an
error within the tokens that are looked at ahead. No character makes more than four
tokens, and no token takes more than two rounds of reading. -/
def parse (text : String) : Except SyntaxError (Option Node) := do
  let source := Source.ofText text
  let (n, _) ← (Reader.document (8 * source.length + 16)).run { scanner := { source } }
  return n

end MuProc.Yaml
