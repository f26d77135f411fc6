import MuProc.Transformer.Basic
import Std.Data.HashSet

/-!
# Spaces of transformers

A space fixes the number of inputs and their order: input `j` is the variable of level
`level j`, and `input` is the inverse map. The order is a permutation, which is checked
when the space is made.
-/

namespace MuProc

/-- Why there is no space of the wanted size and order, or no transformer in a space. -/
inductive SpaceError where
  | notPositive (dim : Int)
  | wrongLength (got : Nat) (want : Int)
  | notPermutation (input : Nat) (level : Int)
  | tooLarge (dim : Int)
  | componentCount (want got : Nat)
deriving DecidableEq, Repr

/-- The report of a failure to make a space or a transformer. -/
def SpaceError.message : SpaceError → String
  | .notPositive n => "transformer dimension must be positive, got " ++ toString n
  | .wrongLength k n => "variable order has " ++ toString k ++ " entries, want " ++ toString n
  | .notPermutation j l =>
    "variable order is not a permutation: input " ++ toString j ++ " at level " ++ toString l
  | .tooLarge n => "creating decision diagram: bad number of variable (" ++ toString n ++ ")"
  | .componentCount want got =>
    "transformer needs " ++ toString want ++ " components, got " ++ toString got

/-- The number of inputs and their order. -/
structure Space where
  dim : Nat
  level : Array Nat
  input : Array Nat
deriving DecidableEq, Repr, Inhabited

namespace Space

def maxDim : Nat := 2097151

/-- Checks that levels lie below `n` and are distinct. The first of them belongs to
input `j`, and those before are in `seen`. -/
def checkLevels (n : Nat) : (j : Nat) → (seen : Std.HashSet Int) → List Int → Except SpaceError Unit
  | _, _, [] => .ok ()
  | j, seen, l :: rest =>
    if l < 0 ∨ (n : Int) ≤ l ∨ seen.contains l then .error (.notPermutation j l)
    else checkLevels n (j + 1) (seen.insert l) rest

/-- The inverse of a permutation given as a list of levels. -/
def invert (levels : List Nat) : Array Nat :=
  levels.zipIdx.foldl (fun a (l, j) => a.setIfInBounds l j) (Array.replicate levels.length 0)

/-- The levels of the inputs: as given, or each input at its own level. -/
def levels (n : Nat) : Option (List Int) → Except SpaceError (List Nat)
  | none => .ok (List.range n)
  | some order => do
    if order.length ≠ n then throw (.wrongLength order.length n)
    checkLevels n 0 {} order
    return order.map Int.toNat

/-- Makes a space with `n` inputs in the given order; without an order every input
is at its own level. -/
def make (n : Int) (order : Option (List Int)) : Except SpaceError Space := do
  if n ≤ 0 then throw (.notPositive n)
  let dim := n.toNat
  let level ← levels dim order
  if maxDim < dim then throw (.tooLarge n)
  return { dim, level := level.toArray, input := invert level }

variable {ν : Type}

/-- The transformer with the same function everywhere. -/
def fill (sp : Space) (f : ν) : Transformer ν :=
  Array.replicate sp.dim f

/-- The transformer with the given components, one for each input. -/
def build (sp : Space) (fs : List ν) : Except SpaceError (Transformer ν) :=
  if fs.length = sp.dim then .ok fs.toArray else .error (.componentCount sp.dim fs.length)

variable [Package ν]

def input? (sp : Space) (j : Nat) : Option ν :=
  (sp.level[j]?).map Package.var

def bottom (sp : Space) : Transformer ν :=
  sp.fill (Func.const false)

def top (sp : Space) : Transformer ν :=
  sp.fill (Func.const true)

def identity (sp : Space) : Transformer ν :=
  sp.level.map Package.var

/-- The function that is true if input `j` has value `b`. -/
def literal? (sp : Space) (j : Nat) (b : Bool) : Option ν :=
  (sp.level[j]?).map (if b then Package.var else Package.nvar)

/-- The function that is true if the first inputs have the given values. There is none
if there are more values than inputs. -/
def cube? (sp : Space) (bits : List Bool) : Option ν :=
  bits.zipIdx.foldlM (fun cube row => (sp.literal? row.2 row.1).map (Package.and cube))
    Package.one

variable [DecidableEq ν]

/-- Whether a function can be true when the first inputs have the given values. -/
def eval? (sp : Space) (f : ν) (bits : List Bool) : Option Bool :=
  (sp.cube? bits).map (Func.meets f)

/-- The values of all components at the given inputs. -/
def evalAll? (sp : Space) (t : Transformer ν) (bits : List Bool) : Option (List Bool) :=
  let cube := sp.cube? bits
  t.toList.mapM fun f => cube.map (Func.meets f)

/-- Whether no component falls when an input rises. -/
def monotone (sp : Space) (t : Transformer ν) : Bool :=
  t.toList.all fun f => (List.range sp.dim).all (Func.positiveIn f)

end Space

end MuProc
