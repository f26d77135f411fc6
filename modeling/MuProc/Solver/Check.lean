import MuProc.Solver.Result
import MuProc.Formula.Normal

/-!
# Checking a formula

A check puts a formula into normal form, numbers it, expands the system and solves
the equations. What it did on the way is kept as a log.
-/

namespace MuProc

/-- What can be chosen for a check. The sizes concern the room set aside for
functions and never change a result. -/
structure CheckOptions where
  nodeSize : Option Int := none
  cacheSize : Option Int := none
  /-- Whether every new value is checked to be monotone. -/
  invariants : Bool := false
  /-- The process to start from; empty for the system's own choice. -/
  initial : Name := ""
deriving DecidableEq, Repr

/-- Why a check has no result. -/
inductive CheckError where
  | nodeSize (n : Int)
  | cacheSize (n : Int)
  | structural (e : StructuralError)
  | system (e : SystemError)
  | space (e : SpaceError)
  | fault (f : Fault)

def CheckError.message : CheckError → String
  | .nodeSize n => "node size must be positive, got " ++ toString n
  | .cacheSize n => "cache size must be positive, got " ++ toString n
  | .structural e => e.message
  | .system e => e.message
  | .space e => "creating transformer manager: " ++ e.message
  | .fault f => f.message

def CheckOptions.validate (o : CheckOptions) : Except CheckError Unit := do
  if let some n := o.nodeSize then
    if n ≤ 0 then throw (.nodeSize n)
  if let some n := o.cacheSize then
    if n ≤ 0 then throw (.cacheSize n)

/-- The value of a field of a log entry. -/
inductive LogValue where
  | text (s : String)
  | number (n : Nat)
  | flag (b : Bool)
deriving DecidableEq, Repr

/-- How important a log entry is. -/
inductive LogLevel where
  | debug
  | info
deriving DecidableEq, Repr

def LogLevel.text : LogLevel → String
  | .debug => "debug"
  | .info => "info"

/-- One entry of a log. -/
structure LogEntry where
  level : LogLevel
  message : String
  fields : List (String × LogValue)
deriving DecidableEq, Repr

def BlockReport.logEntry (b : BlockReport) : LogEntry where
  level := .debug
  message := "block converged"
  fields := [("block", .number b.block), ("kind", .text b.kind.text), ("vars", .number b.vars),
    ("evaluations", .number b.evaluations), ("updates", .number b.updates)]

/-- The equations of a formula in normal form over the expansion of a system. -/
def equations (sys : ProcessSystem) (f : Formula) : Except CheckError DependencyGraph := do
  let idx ← (Index.ofFormula f.normal).mapError .structural
  let g ← (Graph.expand sys).mapError .system
  let sp ← (Space.make idx.size (some (idx.order.map Int.ofNat))).mapError .space
  (DependencyGraph.build sp g idx).mapError .fault

/-- The system with the initial process that the options ask for. -/
def CheckOptions.start (o : CheckOptions) (sys : ProcessSystem) : ProcessSystem :=
  if o.initial = "" then sys else sys.startAt o.initial

def check (sys : ProcessSystem) (f : Formula) (o : CheckOptions := {}) :
    Except CheckError Result := do
  o.validate
  let g ← equations (o.start sys) f
  (Result.ofGraph g o.invariants).mapError .fault

def Result.verdict (r : Result) : Except CheckError Bool :=
  (DependencyGraph.require r.verdict?).mapError .fault

/-- Whether a process of a system satisfies a formula. -/
def satisfies (sys : ProcessSystem) (f : Formula) (p : Name) (o : CheckOptions := {}) :
    Except CheckError Bool := do
  let r ← check sys f { o with initial := p }
  r.verdict

/-- What a successful check of `f` reports about its work. -/
def Result.log (r : Result) (sys : ProcessSystem) (f : Formula) (o : CheckOptions) :
    List LogEntry :=
  let built : LogEntry := {
    level := .debug
    message := "dependency graph built"
    fields := [("formula", .text f.text.text), ("subformulas", .number r.graph.index.size),
      ("blocks", .number r.graph.index.blocks.size), ("states", .number r.graph.nodes.size)] }
  let finished : LogEntry := {
    level := .info
    message := "check finished"
    fields := [("initial", .text (o.start sys).initial.text),
      ("holds", .flag (r.verdict? = some true)),
      ("evaluations", .number r.stats.evaluations), ("updates", .number r.stats.updates)] }
  built :: r.reports.map BlockReport.logEntry ++ [finished]

end MuProc
