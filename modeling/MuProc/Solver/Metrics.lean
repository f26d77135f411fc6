import MuProc.Solver.Check
import MuProc.Text.Number

/-!
# Metrics

Counters of the work done by checks, and their dump in the text exposition format:
families in the order of their names, each with a help line, a type line and its
samples. How long a check took depends on the clock; of that family only the
number of checks is kept.
-/

namespace MuProc

/-- The work of all checks so far. -/
structure Metrics where
  checks : Nat := 0
  plainBlocks : Nat := 0
  greatestBlocks : Nat := 0
  leastBlocks : Nat := 0
  evaluations : Nat := 0
  updates : Nat := 0
deriving DecidableEq, Repr, Inhabited

namespace Metrics

def addBlock (m : Metrics) (b : BlockReport) : Metrics :=
  let m := { m with
    evaluations := m.evaluations + b.evaluations
    updates := m.updates + b.updates }
  match b.kind with
  | .plain => { m with plainBlocks := m.plainBlocks + 1 }
  | .greatest => { m with greatestBlocks := m.greatestBlocks + 1 }
  | .least => { m with leastBlocks := m.leastBlocks + 1 }

def addCheck (m : Metrics) (r : Result) : Metrics :=
  let m := r.reports.foldl addBlock m
  { m with checks := m.checks + 1 }

def familyHead (name help type : String) : String :=
  "# HELP " ++ name ++ " " ++ help ++ "\n# TYPE " ++ name ++ " " ++ type ++ "\n"

def sample (name : String) (n : Nat) : String :=
  name ++ " " ++ Text.counterText n ++ "\n"

/-- The sample of one kind of block, left out while it is zero. -/
def blockSample (kind : BlockKind) (n : Nat) : String :=
  if n = 0 then ""
  else sample ("modalmu_solver_blocks_total\x7bkind=\"" ++ kind.text ++ "\"\x7d") n

/-- The family of solved blocks, left out while it has no sample. -/
def blockFamily (m : Metrics) : String :=
  let samples := blockSample .least m.leastBlocks ++ blockSample .plain m.plainBlocks ++
    blockSample .greatest m.greatestBlocks
  if samples = "" then ""
  else familyHead "modalmu_solver_blocks_total"
    "Number of equational blocks solved, by fixpoint kind" "counter" ++ samples

def text (m : Metrics) : String :=
  familyHead "modalmu_solve_duration_seconds" "The duration of a complete check" "histogram" ++
  sample "modalmu_solve_duration_seconds_count" m.checks ++
  m.blockFamily ++
  familyHead "modalmu_solver_evaluations_total"
    "Number of node recomputations performed by the worklist" "counter" ++
  sample "modalmu_solver_evaluations_total" m.evaluations ++
  familyHead "modalmu_solver_updates_total"
    "Number of times a node assignment was replaced by a new transformer" "counter" ++
  sample "modalmu_solver_updates_total" m.updates

end Metrics

/-- What a dump shows: the solver's metrics once they are registered. -/
structure Registry where
  metrics : Option Metrics := none
deriving DecidableEq, Repr

/-- Registers the solver's metrics, which works once. -/
def Registry.register? (r : Registry) : Option Registry :=
  match r.metrics with
  | none => some { metrics := some {} }
  | some _ => none

end MuProc
