import MuProc.Transformer.Func

/-!
# Transformers

A transformer is a vector of monotone functions: it maps a vector of input values
to the vector of the values of its components. Reading a component that does not
exist has no answer.
-/

namespace MuProc

abbrev Transformer (ν : Type := Func) := Array ν

namespace Transformer

variable {ν : Type}

def put? (t : Transformer ν) (i : Nat) (f : ν) : Option (Transformer ν) :=
  if i < t.size then some (t.setIfInBounds i f) else none

/-- Whether two transformers have the same components, compared one by one. -/
def same [DecidableEq ν] (a b : Transformer ν) : Bool :=
  a.size = b.size && (a.toList.zip b.toList).all fun (f, g) => Func.same f g

variable [Package ν] [DecidableEq ν]

/-- Whether each function of the first list implies its partner in the second. The
first failure decides; before it every function needs a partner. -/
def leqList : List ν → List ν → Option Bool
  | [], _ => some true
  | _ :: _, [] => none
  | f :: fs, g :: gs => if Func.implies f g then leqList fs gs else some false

def leq? (a b : Transformer ν) : Option Bool :=
  leqList a.toList b.toList

/-- The number of the first component that does not imply its partner. -/
def firstNotLeq : List ν → List ν → Nat → Option Nat
  | f :: fs, g :: gs, i => if Func.implies f g then firstNotLeq fs gs (i + 1) else some i
  | _, _, _ => none

end Transformer

end MuProc
