import MuProc.Solver.Equation

/-!
# Solving a block

The nodes whose equations may not hold wait in a queue without repetitions. One
step takes the first of them and computes its value anew; if the value moves, the
nodes that read it are queued. A value has to move up for least fixpoints and down
for greatest ones, which is checked. The blocks are solved from the innermost one
outwards.
-/

namespace MuProc

/-- The work on one block so far. -/
structure Sweep where
  assign : Assignment
  queue : List Nat
  evaluations : Nat := 0
  updates : Nat := 0

/-- What was done to solve one block. -/
structure BlockReport where
  block : Nat
  kind : BlockKind
  vars : Nat
  evaluations : Nat
  updates : Nat
deriving DecidableEq, Repr

namespace DependencyGraph

def isInner (g : DependencyGraph) (v : Nat) : Except Fault Bool := do
  let n ← require g.nodes[v]?
  return !n.isExit

/-- Checks that the value of a node moved in the direction of the block. -/
def checkMove (g : DependencyGraph) (invariants : Bool) (b : Block) (n : Node)
    (old next : Transformer) : Except Fault Unit := do
  let (lo, hi) := if b.kind = .greatest then (next, old) else (old, next)
  match Transformer.firstNotLeq lo.toList hi.toList 0 with
  | some i => throw (.direction n.state.name i b.kind)
  | none => if invariants ∧ !g.space.monotone next then throw (.notMonotone n.state.name)

/-- Queues the nodes of a list that take part in the iteration. -/
def enqueue (g : DependencyGraph) (queue : List Nat) (vs : List Nat) : Except Fault (List Nat) :=
  vs.foldlM (fun queue v => do
    if ← g.isInner v then return Graph.appendNew queue v else return queue) queue

/-- Computes the value of node `v` anew; `s` is the state without `v` in its queue. -/
def evaluate (g : DependencyGraph) (invariants : Bool) (b : Block) (v : Nat) (s : Sweep) :
    Except Fault Sweep := do
  let n ← require g.nodes[v]?
  let s := { s with evaluations := s.evaluations + 1 }
  let next ← g.recompute s.assign n b
  let old ← require s.assign[v]?
  if Transformer.same next old then return s
  g.checkMove invariants b n old next
  let queue ← g.enqueue s.queue (← require g.dependents[v]?)
  return { s with
    assign := s.assign.setIfInBounds v next
    queue
    updates := s.updates + 1 }

/-- Evaluates nodes from the front of the queue until it is empty. -/
def sweep (g : DependencyGraph) (invariants : Bool) (b : Block) :
    (fuel : Nat) → Sweep → Except Fault Sweep
  | fuel, s =>
    match s.queue with
    | [] => .ok s
    | v :: queue =>
      match fuel with
      | 0 => .error (.unfinished ((g.nodes[v]?).elim "" (·.state.name)))
      | fuel + 1 => do
        let s ← g.evaluate invariants b v { s with queue }
        sweep g invariants b fuel s

/-- The number of evaluations that is enough: every node once, and once for each
move of a node it reads. -/
def sweepBound (g : DependencyGraph) (b : Block) : Nat :=
  let fan := g.dependents.foldl (fun m l => max m l.length) 0
  g.nodes.size + g.nodes.size * b.vars.length * Nat.pow 2 g.space.dim * fan

/-- A vector with the components of a block set to its seed. -/
def seedVector (b : Block) (t : Transformer) : Option Transformer :=
  b.vars.foldlM (fun t i => t.put? i (.const (b.kind = .greatest))) t

/-- Seeds a node and queues it, unless it is an exit. -/
def seedNode (b : Block) (s : Sweep) (n : Node) : Except Fault Sweep := do
  if n.isExit then return s
  let t ← require (s.assign[n.id]?.bind (seedVector b))
  return { s with assign := s.assign.setIfInBounds n.id t, queue := Graph.appendNew s.queue n.id }

/-- Solves the equations of one block, where the other blocks keep their values. -/
def solveBlock (g : DependencyGraph) (invariants : Bool) (assign : Assignment) (b : Block) :
    Except Fault Sweep := do
  let s ← g.nodes.toList.foldlM (seedNode b) { assign, queue := [] }
  g.sweep invariants b (g.sweepBound b) s

/-- The value of a node before any block is solved. -/
def startValue (g : DependencyGraph) (n : Node) : Transformer :=
  if n.isExit then g.space.identity else g.space.bottom

/-- Solves a block after others, and adds the report of it. A block without nodes
is passed over. -/
def solveNext (g : DependencyGraph) (invariants : Bool) (acc : Assignment × List BlockReport)
    (b : Block) : Except Fault (Assignment × List BlockReport) := do
  if b.vars.isEmpty then return acc
  let s ← g.solveBlock invariants acc.1 b
  let report := {
    block := b.number
    kind := b.kind
    vars := b.vars.length
    evaluations := s.evaluations
    updates := s.updates }
  return (s.assign, acc.2 ++ [report])

/-- Solves all blocks, from the last one to the first. -/
def solve (g : DependencyGraph) (invariants : Bool) :
    Except Fault (Assignment × List BlockReport) :=
  g.index.blocks.toList.reverse.foldlM (g.solveNext invariants) (g.nodes.map g.startValue, [])

end DependencyGraph

end MuProc
