import MuProc.Solver.Worklist
import MuProc.Formula.Terminal

/-!
# Results

The converged values of all nodes, and the questions they answer. A process that
runs as the whole program continues with a terminated process; other
continuations can be given as the set of subformulas they satisfy.
-/

namespace MuProc

/-- How much work a solution took. -/
structure Stats where
  blocks : Nat
  evaluations : Nat
  updates : Nat
deriving DecidableEq, Repr

/-- The solution of a dependency graph. -/
structure Result where
  graph : DependencyGraph
  assign : Assignment
  reports : List BlockReport
  /-- The truth of every subformula at a terminated process. -/
  terminal : List Bool

/-- Why a question about a result has no answer. -/
inductive QueryError where
  | unreachable (process : Name)
  | inputLength (got want : Nat)
  | outOfRange
deriving DecidableEq, Repr

def QueryError.message : QueryError → String
  | .unreachable p => "process " ++ p.text ++ " is not reachable from the initial process"
  | .inputLength k n => "input has " ++ toString k ++ " entries, want " ++ toString n
  | .outOfRange => "reference out of range"

namespace Result

def ofGraph (g : DependencyGraph) (invariants : Bool) : Except Fault Result := do
  let (assign, reports) ← g.solve invariants
  let terminal ← DependencyGraph.require g.index.terminal?
  return { graph := g, assign, reports, terminal }

def stats (r : Result) : Stats where
  blocks := r.reports.length
  evaluations := r.reports.foldl (fun n b => n + b.evaluations) 0
  updates := r.reports.foldl (fun n b => n + b.updates) 0

/-- Component `i` of node `v` in front of a continuation. -/
def valueAt? (r : Result) (v i : Int) (bits : List Bool) : Option Bool :=
  match v, i with
  | .ofNat v, .ofNat i => do
    let t ← r.assign[v]?
    r.graph.space.eval? (← t[i]?) bits
  | _, _ => none

/-- Whether the formula holds for the initial process. -/
def verdict? (r : Result) : Option Bool :=
  r.valueAt? r.graph.initial r.graph.index.root r.terminal

def entry (r : Result) (p : Name) : Except QueryError Int :=
  match r.graph.entry? p with
  | some v => .ok v
  | none => .error (.unreachable p)

/-- An answer, or the report that something does not exist. -/
def answer {α : Type} : Option α → Except QueryError α
  | some a => .ok a
  | none => .error .outOfRange

/-- Whether the formula holds for a process in front of a continuation that
satisfies exactly the given subformulas. -/
def holdsUnder (r : Result) (p : Name) (bits : List Bool) : Except QueryError Bool := do
  let v ← r.entry p
  if bits.length ≠ r.graph.index.size then throw (.inputLength bits.length r.graph.index.size)
  answer (r.valueAt? v r.graph.index.root bits)

/-- Whether the formula holds for a process that runs as the whole program. -/
def holds (r : Result) (p : Name) : Except QueryError Bool :=
  r.holdsUnder p r.terminal

/-- The values of all subformulas at node `v` in front of a terminated process. -/
def values? (r : Result) (v : Int) : Option (List Bool) :=
  match v with
  | .ofNat v => do r.graph.space.evalAll? (← r.assign[v]?) r.terminal
  | _ => none

/-- The subformulas that hold for a process that runs as the whole program. -/
def satisfied (r : Result) (p : Name) : Except QueryError (List Formula) := do
  let v ← r.entry p
  let bits ← answer (r.values? v)
  let nodes := r.graph.index.subs.toList.map (·.node)
  return ((nodes.zip bits).filter (·.2)).map (·.1)

/-- The truth of an obligation in front of a terminated process. -/
def obligationHolds (r : Result) (id : Int) : Except QueryError Bool :=
  let (v, i) := r.graph.obligation id
  answer (r.valueAt? v i r.terminal)

/-- Every state with its value, in the order of the nodes. -/
def assignments (r : Result) : List (Name × Transformer) :=
  (r.graph.nodes.toList.map (·.state.name)).zip r.assign.toList

/-- The value kept for a state name: the one of the last state of that name. -/
def assignment? (r : Result) (name : Name) : Option Transformer :=
  r.assignments.reverse.lookup name

end Result

end MuProc
