import MuProc.Process.Validity

/-!
# State graphs

The expansion of the processes that can be reached from the initial one. Every
process has an entry and an exit state, and every rule a chain of position states
between them, so a call never copies the called process: a call edge leads to the
state in which the caller goes on.
-/

namespace MuProc

/-- Where in a process a state lies: before its rules, behind them, or between two
steps of a rule. -/
inductive Place where
  | entry
  | exit
  | position
deriving DecidableEq, Repr, Inhabited

def Place.text : Place → String
  | .entry => "entry"
  | .exit => "exit"
  | .position => "position"

/-- One state of a graph. -/
structure State where
  id : Nat
  process : Name
  place : Place
  /-- The rule of a position; a negative number stands for none. -/
  rule : Int := -1
  /-- The step behind which a position lies; a negative number stands for none. -/
  pos : Int := -1
  props : List Name := []
deriving DecidableEq, Repr, Inhabited

namespace State

def name (s : State) : Name :=
  match s.place with
  | .entry => s.process
  | .exit => s.process ++ ".exit"
  | .position => s.process ++ ".r" ++ toString s.rule ++ "." ++ toString (s.pos + 1)

def hasProp (s : State) (p : Name) : Bool :=
  s.props.contains p

end State

/-- One step from a state. The target of a call is where the caller goes on once
the callee has ended. -/
structure Edge where
  source : Nat
  target : Nat
  step : Step
deriving DecidableEq, Repr, Inhabited

/-- A graph of states: the edges leave each state in the order of the rules. -/
structure Graph where
  states : Array State := #[]
  out : Array (List Edge) := #[]
  entry : List (Name × Nat) := []
  exit : List (Name × Nat) := []
  initial : Nat := 0
deriving DecidableEq, Repr, Inhabited

namespace Graph

def size (g : Graph) : Nat :=
  g.states.size

def entry? (g : Graph) (p : Name) : Option Nat :=
  g.entry.lookup p

def exit? (g : Graph) (p : Name) : Option Nat :=
  g.exit.lookup p

/-- The expanded processes in the order of their entry states. -/
def processes (g : Graph) : List Name :=
  (g.states.toList.filter (·.place = .entry)).map (·.process)

/-- A list with an element at its end, unless it is there already. -/
def appendNew (l : List Nat) (x : Nat) : List Nat :=
  if x ∈ l then l else l ++ [x]

def entryNumbers (g : Graph) : List (Name × Int) :=
  g.entry.map fun (p, v) => (p, (v : Int))

def edges (g : Graph) : List Edge :=
  g.out.toList.flatten

/-- For every state the states with an edge into it. -/
def predecessors (g : Graph) : Array (List Nat) :=
  g.edges.foldl (fun acc e => acc.modify e.target (appendNew · e.source))
    (Array.replicate g.size [])

/-- For every entry state the states that call its process. -/
def callers (g : Graph) : Array (List Nat) :=
  g.edges.foldl (fun acc e =>
      if e.step.isCall then acc.modify ((g.entry? e.step.call).getD 0) (appendNew · e.source)
      else acc)
    (Array.replicate g.size [])

/-- Adds a state without edges. States are numbered in the order of their addition. -/
def addState (g : Graph) (s : State) : Graph :=
  { g with states := g.states.push s, out := g.out.push [] }

/-- Adds the entry state of a process, which carries its propositions in ascending
order, and its exit state. -/
def addProcess (sys : ProcessSystem) (g : Graph) (p : Name) : Graph :=
  let n := g.size
  let props := ByteString.sorted (sys.props p)
  let entry : State := { id := n, process := p, place := .entry, props }
  let exit : State := { id := n + 1, process := p, place := .exit }
  let g := (g.addState entry).addState exit
  { g with entry := g.entry ++ [(p, n)], exit := g.exit ++ [(p, n + 1)] }

/-- Adds an edge behind the other edges of its source. -/
def addEdge (g : Graph) (source target : Nat) (step : Step) : Graph :=
  { g with out := g.out.modify source (· ++ [{ source, target, step }]) }

/-- An edge from a state that exists is not lost. -/
theorem length_edges_addEdge {g : Graph} {source : Nat} (h : source < g.out.size) (target : Nat)
    (step : Step) : (g.addEdge source target step).edges.length = g.edges.length + 1 := by
  have hdrop := List.drop_eq_getElem_cons (l := g.out.toList) h
  have hedges : g.edges = (g.out.toList.take source).flatten ++
      (g.out.toList[source] ++ (g.out.toList.drop (source + 1)).flatten) := by
    rw [← List.flatten_cons, ← hdrop, ← List.flatten_append, List.take_append_drop, edges]
  rw [hedges, edges, addEdge, Array.toList_modify, List.modify_eq_take_cons_drop h,
    List.flatten_append, List.flatten_cons]
  simp only [List.length_append, List.length_cons, List.length_nil]
  omega

/-- A graph under construction and the processes whose rules are still to be laid out. -/
structure Expansion where
  graph : Graph
  queue : List Name

/-- Makes sure that a called process has its states, and queues it if it is new. -/
def Expansion.discover (sys : ProcessSystem) (x : Expansion) (s : Step) : Expansion :=
  if s.isCall ∧ (x.graph.entry? s.call).isNone then
    { graph := addProcess sys x.graph s.call, queue := x.queue ++ [s.call] }
  else x

/-- Lays out the steps of one rule from state `source` on; the first of them is step
`pos`. The last step leads to the exit of the process. -/
def Expansion.addSteps (sys : ProcessSystem) (p : Name) (rule : Nat) :
    (pos source : Nat) → List Step → Expansion → Expansion
  | _, _, [], x => x
  | _, source, [s], x =>
    let x := x.discover sys s
    { x with graph := x.graph.addEdge source ((x.graph.exit? p).getD 0) s }
  | pos, source, s :: rest, x =>
    let x := x.discover sys s
    let target := x.graph.size
    let between : State := { id := target, process := p, place := .position, rule, pos }
    let g := (x.graph.addState between).addEdge source target s
    addSteps sys p rule (pos + 1) target rest { x with graph := g }

/-- Lays out the rules of a process, numbered from `rule`. -/
def Expansion.addRules (sys : ProcessSystem) (p : Name) :
    (rule : Nat) → List Rule → Expansion → Expansion
  | _, [], x => x
  | rule, r :: rest, x =>
    addRules sys p (rule + 1) rest (addSteps sys p rule 0 ((x.graph.entry? p).getD 0) r x)

/-- Lays out the queued processes in order of discovery. Each is queued once, so as
many rounds as there are processes are enough. -/
def Expansion.run (sys : ProcessSystem) : (fuel : Nat) → Expansion → Expansion
  | 0, x => x
  | fuel + 1, x =>
    match x.queue with
    | [] => x
    | p :: queue => run sys fuel (addRules sys p 0 (sys.rules p) { x with queue })

/-- The graph of the processes that are reachable from the initial one. -/
def ofSystem (sys : ProcessSystem) : Graph :=
  let start : Expansion := { graph := addProcess sys {} sys.initial, queue := [sys.initial] }
  let g := (start.run sys sys.processes.length).graph
  { g with initial := (g.entry? sys.initial).getD 0 }

def expand (sys : ProcessSystem) : Except SystemError Graph := do
  sys.validate
  return ofSystem sys

end Graph

end MuProc
