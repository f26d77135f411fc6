import MuProc.Process.Graph

/-!
# Diagrams

A state graph as a Mermaid state diagram or as a Graphviz digraph. The texts of
states and edges can be chosen; an empty text is left out of a Mermaid diagram.
-/

namespace MuProc.Graph

/-- The texts a diagram shows. -/
structure Captions where
  state : State → ByteString
  edge : Edge → ByteString

def stateCaption (s : State) : ByteString :=
  if s.props.isEmpty then s.name
  else s.name ++ " \x7b" ++ .intercalate ", " s.props ++ "\x7d"

/-- An edge shows its callee, or its action with the modality. -/
def edgeCaption (e : Edge) : ByteString :=
  if e.step.isCall then "call " ++ e.step.call
  else e.step.action ++ " (" ++ e.step.kind.text ++ ")"

def captions : Captions :=
  { state := stateCaption, edge := edgeCaption }

def mermaidState (c : Captions) (s : State) : ByteString :=
  if c.state s = "" then "" else "    s" ++ toString s.id ++ ": " ++ c.state s ++ "\n"

def mermaidEdge (c : Captions) (e : Edge) : ByteString :=
  let arrow : ByteString := "    s" ++ toString e.source ++ " --> s" ++ toString e.target
  if c.edge e = "" then arrow ++ "\n" else arrow ++ ": " ++ c.edge e ++ "\n"

def mermaid (g : Graph) (c : Captions := captions) : ByteString :=
  "stateDiagram-v2\n" ++
  "    [*] --> s" ++ toString g.initial ++ "\n" ++
  .join (g.states.toList.map (mermaidState c)) ++
  "\n" ++
  .join (g.edges.map (mermaidEdge c))

/-- A Mermaid diagram as a fenced block of a text document. -/
def fenced (diagram : ByteString) : ByteString :=
  "```mermaid\n" ++ diagram ++ "```\n"

/-- A text with a backslash before each of its quotes. -/
def escapeLabel (s : ByteString) : ByteString :=
  ⟨s.bytes.flatMap fun b => if b = Ascii.quote then [Ascii.backslash, Ascii.quote] else [b]⟩

/-- A text between quotes as it stands. -/
def inQuotes (s : ByteString) : ByteString :=
  "\"" ++ s ++ "\""

def nameOf (g : Graph) (v : Nat) : Name :=
  (g.states[v]?).elim "" State.name

def shape (s : State) : String :=
  match s.place with
  | .entry => "doublecircle"
  | .exit => "box"
  | .position => "circle"

/-- The line style of a step in a digraph: calls are dashed, possible actions dotted. -/
def lineStyle (s : Step) : String :=
  if s.isCall then "dashed" else if s.kind = .may then "dotted" else "solid"

def dotState (c : Captions) (s : State) : ByteString :=
  "  " ++ inQuotes s.name ++ " [shape=" ++ shape s ++ ",label=" ++
    inQuotes (escapeLabel (c.state s)) ++ "];\n"

def dotEdge (c : Captions) (g : Graph) (e : Edge) : ByteString :=
  "  " ++ inQuotes (g.nameOf e.source) ++ " -> " ++ inQuotes (g.nameOf e.target) ++ " [label=" ++
    inQuotes (escapeLabel (c.edge e)) ++ ",style=" ++ lineStyle e.step ++ "];\n"

/-- The graph as a Graphviz digraph, with an invisible start node. -/
def dot (g : Graph) (c : Captions := captions) : ByteString :=
  "digraph ProcessSystem \x7b\n" ++
  "  rankdir=LR;\n" ++
  "  node [shape=circle];\n" ++
  "\n" ++
  "  start [shape=point];\n" ++
  "  start -> " ++ inQuotes (g.nameOf g.initial) ++ " [label=" ++ inQuotes "start" ++ "];\n" ++
  "\n" ++
  .join (g.states.toList.map (dotState c)) ++
  "\n" ++
  .join (g.edges.map (dotEdge c g)) ++
  "\x7d\n"

end MuProc.Graph
