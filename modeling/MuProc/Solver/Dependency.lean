import MuProc.Process.Graph
import MuProc.Transformer.Space
import MuProc.Solver.Fault

/-!
# Dependency graphs

One node per state, with the equations of all subformulas at that state. An action
edge carries a transformer that says, for every modality, what taking the step
contributes: a box asks for its operand behind a matching guaranteed step and is
satisfied by any other, a diamond is satisfied behind a matching step only. A call
edge has none: its transformer is the value of the callee.
-/

namespace MuProc

namespace DependencyGraph

/-- One edge of a dependency graph. -/
structure Link where
  step : Step
  /-- The node behind the step; for a call, where the caller goes on. -/
  target : Nat
  /-- The entry node of the callee; a negative number refers to no node. -/
  callee : Option Int := none
  /-- The contribution of an action; empty for a call. -/
  action : Transformer := #[]
deriving DecidableEq, Inhabited

/-- One node of a dependency graph. -/
structure Node where
  id : Nat
  state : State
  links : List Link
deriving DecidableEq, Inhabited

namespace Node

/-- Whether the node is the exit of a process; its value is the identity. -/
def isExit (n : Node) : Bool :=
  n.state.place = .exit

/-- The call of a rule position that has no other step. Its value is the callee's. -/
def onlyCall? (n : Node) : Option Link :=
  match n.state.place, n.links with
  | .position, [l] => if l.step.isCall then some l else none
  | _, _ => none

end Node

end DependencyGraph

/-- The equations of a formula over a state graph. -/
structure DependencyGraph where
  nodes : Array DependencyGraph.Node
  index : Index
  space : Space
  initial : Nat
  /-- For every node the nodes whose equations read it. -/
  dependents : Array (List Nat)
  /-- The entry node of every process. -/
  entry : List (Name × Int)

namespace DependencyGraph

def contribution (sp : Space) (step : Step) (s : Subformula) (t : Transformer) :
    Option Transformer :=
  match s.node with
  | .box a _ =>
    if step.hasAction a ∧ step.kind = .must then do t.put? s.var (← s.left.bind sp.input?)
    else t.put? s.var (.const true)
  | .dia a _ =>
    if step.hasAction a then do t.put? s.var (← s.left.bind sp.input?)
    else t.put? s.var (.const false)
  | _ => some t

/-- The transformer of an action: the identity except for modalities. -/
def actionTransformer (sp : Space) (idx : Index) (step : Step) : Option Transformer :=
  idx.subs.toList.foldlM (fun t s => contribution sp step s t) sp.identity

/-- The link of an edge that leaves state `s`. A call needs the entry of its process. -/
def linkOf (sp : Space) (idx : Index) (entry : List (Name × Int)) (s : State) (e : Edge) :
    Except Fault Link :=
  if e.step.isCall then
    match entry.lookup e.step.call with
    | some v => .ok { step := e.step, target := e.target, callee := some v }
    | none => .error (.system {
        process := s.process
        rule := s.rule
        step := s.pos + 1
        cause := .unexpanded e.step.call })
  else
    match actionTransformer sp idx e.step with
    | some t => .ok { step := e.step, target := e.target, action := t }
    | none => .error .outOfRange

/-- Puts the node of a state into its place, which has to be free. -/
def addNode (sp : Space) (g : Graph) (idx : Index) (entry : List (Name × Int))
    (nodes : Array (Option Node)) (s : State) : Except Fault (Array (Option Node)) := do
  match nodes[s.id]? with
  | none => throw .outOfRange
  | some (some _) => throw (.duplicateNode s.name)
  | some none =>
    match g.out[s.id]? with
    | none => throw .outOfRange
    | some edges =>
      let links ← edges.mapM (linkOf sp idx entry s)
      return nodes.setIfInBounds s.id (some { id := s.id, state := s, links })

def addReader (deps : Array (List Nat)) (u v : Nat) : Except Fault (Array (List Nat)) :=
  if u < deps.size then .ok (deps.modify u (Graph.appendNew · v)) else .error .outOfRange

/-- Notes what the node `v` reads through one of its links. -/
def addLink (v : Nat) (deps : Array (List Nat)) (l : Link) : Except Fault (Array (List Nat)) := do
  let deps ← addReader deps l.target v
  match l.callee with
  | some (.ofNat u) => addReader deps u v
  | _ => return deps

def readers (nodes : Array Node) : Except Fault (Array (List Nat)) :=
  nodes.toList.foldlM (fun deps n => n.links.foldlM (addLink n.id) deps)
    (Array.replicate nodes.size [])

/-- The dependency graph of a numbered formula over a state graph. The space has to
have one input per node of the formula. The entries of the processes are those of
the graph unless others are given. -/
def build (sp : Space) (g : Graph) (idx : Index)
    (entry : List (Name × Int) := g.entryNumbers) : Except Fault DependencyGraph := do
  if sp.dim ≠ idx.size then throw (.dimension sp.dim idx.size)
  let slots ← g.states.toList.foldlM (addNode sp g idx entry) (Array.replicate g.size none)
  let some nodes := slots.mapM id | throw .outOfRange
  let dependents ← readers nodes
  return { nodes, index := idx, space := sp, initial := g.initial, dependents, entry }

def entry? (g : DependencyGraph) (p : Name) : Option Int :=
  g.entry.lookup p

def wordSize : Nat := 18446744073709551616

/-- The number of the obligation that subformula `i` holds at node `v`, as a signed
machine word. -/
def obligationId (g : DependencyGraph) (v i : Int) : Int :=
  (v * g.index.size + i).bmod wordSize

/-- The node and the subformula of an obligation; the quotient is rounded toward zero. -/
def obligation (g : DependencyGraph) (id : Int) : Int × Int :=
  (id.tdiv g.index.size, id.tmod g.index.size)

end DependencyGraph

end MuProc
