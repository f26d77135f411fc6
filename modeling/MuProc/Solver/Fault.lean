import MuProc.Process.Validity
import MuProc.Formula.Index

/-!
# Faults of the solver

What can go wrong between a formula, a state graph and their solution. None of
this happens for a numbered formula and the expansion of a valid system; the
faults describe inputs that were put together by hand.
-/

namespace MuProc

/-- Why the equations cannot be set up or solved. -/
inductive Fault where
  /-- A number refers to something that does not exist. -/
  | outOfRange
  /-- The space has another dimension than the formula has nodes. -/
  | dimension (space size : Nat)
  /-- Two states have the same number. -/
  | duplicateNode (state : Name)
  /-- A call leads out of the graph. -/
  | system (e : SystemError)
  /-- A negation stands above something else than a proposition. -/
  | negation (state : Name) (var : Nat)
  /-- A new value is not on the right side of the old one. -/
  | direction (state : Name) (var : Nat) (kind : BlockKind)
  /-- A new value is not monotone. -/
  | notMonotone (state : Name)
  /-- The iteration did not end within its bound. -/
  | unfinished (state : Name)
deriving DecidableEq, Repr

/-- The report of a broken invariant at a state, with the subformula if there is one. -/
def internalMessage (state : Name) (var : Option Nat) (reason : String) : String :=
  match var with
  | some v =>
    "internal solver error at " ++ state.text ++ ", subformula " ++ toString v ++ ": " ++ reason
  | none => "internal solver error at " ++ state.text ++ ": " ++ reason

/-- A broken invariant: the state, the subformula and what is wrong. -/
structure InternalError where
  state : Name
  var : Option Nat
  reason : String
deriving DecidableEq, Repr

def InternalError.message (e : InternalError) : String :=
  internalMessage e.state e.var e.reason

/-- The broken invariant a fault stands for, if it is one. -/
def Fault.internal? : Fault → Option InternalError
  | .duplicateNode s => some ⟨s, none, "duplicate node id"⟩
  | .negation s v => some ⟨s, some v, "negation of a non-atomic subformula"⟩
  | .direction s v k =>
    some ⟨s, some v, "assignment moved against the " ++ k.text ++ " fixpoint"⟩
  | .notMonotone s => some ⟨s, none, "non-monotone transformer"⟩
  | .unfinished s => some ⟨s, none, "iteration did not converge"⟩
  | _ => none

def Fault.message (f : Fault) : String :=
  match f with
  | .dimension d n => "manager has dimension " ++ toString d ++ ", formula has " ++ toString n ++
      " subformulas"
  | .system e => e.message
  | f => (f.internal?).elim "reference out of range" InternalError.message

end MuProc
