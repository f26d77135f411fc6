import Std.Data.HashMap

/-!
# Packages of decision diagrams

A package keeps the diagrams of boolean functions. A function is known by the node at
which its diagram starts, and a variable by its level. Two nodes can be compared, and
nothing else is known of a node but what the package says of it.
-/

namespace MuProc

/-- What a node that is not a constant asks for, and the nodes to go on with. -/
structure Vertex (ν : Type) where
  level : Nat
  low : ν
  high : ν
deriving DecidableEq, Repr

/-- The operations of a package of decision diagrams on its nodes. -/
class Package (ν : Type) where
  zero : ν
  one : ν
  /-- The variable of a level, and its negation. -/
  var : Nat → ν
  nvar : Nat → ν
  not : ν → ν
  and : ν → ν → ν
  or : ν → ν → ν
  ite : ν → ν → ν → ν
  /-- The function that is true if the given one is true for one of the values of the
  variable of a level. -/
  exist : ν → Nat → ν
  /-- The nodes of a diagram, each with its vertex. -/
  nodes : ν → List (ν × Vertex ν)

end MuProc
