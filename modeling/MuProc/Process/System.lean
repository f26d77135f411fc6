import MuProc.Process.Step

/-!
# Process systems

A system lists its processes, says where it starts, and gives every process its
rules and propositions. A model is a system made of definitions in the order in
which they were first mentioned; defining a process again adds to it.
-/

namespace MuProc

/-- What the checker reads of a process system. -/
structure ProcessSystem where
  processes : List Name
  initial : Name
  rules : Name → List Rule
  props : Name → List Name

/-- One process: its propositions and its rules. -/
structure Definition where
  name : Name
  props : List Name := []
  rules : List Rule := []
deriving DecidableEq, Repr, Inhabited

/-- The system that lists definitions as they stand. Of several definitions of one
name the first one counts. -/
def ProcessSystem.ofDefinitions (initial : Name) (defs : List Definition) : ProcessSystem where
  processes := defs.map (·.name)
  initial := initial
  rules p := (defs.find? (·.name = p)).elim [] (·.rules)
  props p := (defs.find? (·.name = p)).elim [] (·.props)

def ProcessSystem.startAt (sys : ProcessSystem) (p : Name) : ProcessSystem :=
  { sys with initial := p }

/-- A named system made of definitions. -/
structure Model where
  name : String
  initial : Name
  defs : List Definition := []
deriving DecidableEq, Repr, Inhabited

namespace Model

def find? (m : Model) (p : Name) : Option Definition :=
  m.defs.find? (·.name = p)

/-- Changes the definition of a process, which is added at the end if there is none. -/
def modify (m : Model) (p : Name) (f : Definition → Definition) : Model :=
  if (m.find? p).isSome then
    { m with defs := m.defs.map fun d => if d.name = p then f d else d }
  else { m with defs := m.defs ++ [f { name := p }] }

/-- Defines a process, or adds propositions to its definition. -/
def define (m : Model) (p : Name) (props : List Name := []) : Model :=
  m.modify p fun d => { d with props := d.props ++ props }

/-- Adds a rule to a process, which is defined if need be. -/
def addRule (m : Model) (p : Name) (r : Rule) : Model :=
  m.modify p fun d => { d with rules := d.rules ++ [r] }

def add (m : Model) (d : Definition) : Model :=
  d.rules.foldl (fun m r => m.addRule d.name r) (m.define d.name d.props)

/-- The model made of definitions, where a repeated name adds to the first one. -/
def ofDefinitions (name : String) (initial : Name) (defs : List Definition) : Model :=
  defs.foldl add { name, initial }

def system (m : Model) : ProcessSystem :=
  .ofDefinitions m.initial m.defs

def definitionText (d : Definition) : ByteString :=
  "  " ++ d.name ++ " \x7b" ++ .intercalate ", " (ByteString.sorted d.props) ++ "\x7d\n" ++
    .join (d.rules.map fun r => "    " ++ d.name ++ " -> " ++ r.text ++ "\n")

/-- The written form of a model: its processes with their propositions and rules. -/
def text (m : Model) : ByteString :=
  "Process system " ++ m.name ++ " (initial " ++ m.initial ++ ")\n" ++
    .join (m.defs.map definitionText)

end Model

end MuProc
