import MuProc.Transformer.Diagram

/-!
# Monotone boolean functions

Functions are made from constants and variables by conjunction and disjunction, so all
of them are monotone. They are nodes of a package, in which a function has one node
only: functions are compared by their nodes.
-/

namespace MuProc

/-- The functions of the program: diagrams. -/
abbrev Func := Diagram

namespace Func

/-- Whether two functions are the same, which means the same node. -/
def same {ν : Type} [DecidableEq ν] (f g : ν) : Bool :=
  f = g

variable {ν : Type} [Package ν]

def const (b : Bool) : ν :=
  if b then Package.one else Package.zero

/-- The conjunction of a list, true if it is empty. -/
def all (fs : List ν) : ν :=
  fs.foldl Package.and Package.one

/-- The disjunction of a list, false if it is empty. -/
def any (fs : List ν) : ν :=
  fs.foldl Package.or Package.zero

variable [DecidableEq ν]

def const? (f : ν) : Option Bool :=
  if f = Package.one then some true
  else if f = Package.zero then some false
  else none

def implies (f g : ν) : Bool :=
  Package.or (Package.not f) g = (Package.one : ν)

/-- Whether a function is true somewhere where the other one is. -/
def meets (f g : ν) : Bool :=
  Package.and f g ≠ Package.zero

/-- Whether raising the variable of level `l` never lowers the value. -/
def positiveIn (f : ν) (l : Nat) : Bool :=
  let low := Package.exist (Package.and f (Package.nvar l)) l
  let high := Package.exist (Package.and f (Package.var l)) l
  implies low high

end Func

end MuProc
