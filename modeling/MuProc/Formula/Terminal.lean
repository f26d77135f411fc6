import MuProc.Formula.Index

/-!
# Truth at a terminated process

A terminated process has no propositions and no transitions. Boxes hold there and
diamonds do not, and each fixpoint takes its own extreme value: the blocks are
solved from the innermost one outwards, each from its seed by passes over its
nodes until a pass changes nothing.
-/

namespace MuProc.Index

/-- The value at a place of a vector, if there is one. -/
def valueAt (val : Array Bool) (i : Option Nat) : Option Bool :=
  i.bind (val[·]?)

/-- The truth of a node from the truth of the nodes it refers to. The right operand
is only looked at where the left one does not decide. -/
def terminalValue (val : Array Bool) (s : Subformula) : Option Bool :=
  match s.node with
  | .tt | .not _ | .box _ _ => some true
  | .ff | .atom _ | .dia _ _ => some false
  | .and _ _ => do if ← valueAt val s.left then valueAt val s.right else return false
  | .or _ _ => do if ← valueAt val s.left then return true else valueAt val s.right
  | .mu _ _ | .nu _ _ => valueAt val s.left
  | .var _ => valueAt val s.binder

/-- Writes a value at a place of a vector, if there is such a place. -/
def write (val : Array Bool) (i : Nat) (b : Bool) : Option (Array Bool) :=
  if i < val.size then some (val.setIfInBounds i b) else none

def terminalPass (idx : Index) (vars : List Nat) (val : Array Bool) : Option (Array Bool) :=
  vars.foldlM (fun val i => do
    let s ← idx.subs[i]?
    write val i (← terminalValue val s)) val

/-- Passes over a block until one changes nothing; without such a pass there is no
answer. Each pass but the last moves a node away from the seed, so one pass more than
there are nodes is enough. -/
def terminalPasses (idx : Index) (vars : List Nat) : (fuel : Nat) → Array Bool → Option (Array Bool)
  | 0, _ => none
  | fuel + 1, val => do
    let next ← idx.terminalPass vars val
    if next = val then return val else terminalPasses idx vars fuel next

def terminalBlock (idx : Index) (val : Array Bool) (b : Block) : Option (Array Bool) := do
  let val ← b.vars.foldlM (fun val i => write val i (b.kind = .greatest)) val
  idx.terminalPasses b.vars (b.vars.length + 1) val

/-- The truth of every node at a terminated process. There is no answer if a node
refers to one that does not exist. -/
def terminal? (idx : Index) : Option (List Bool) := do
  let val ← idx.blocks.toList.reverse.foldlM idx.terminalBlock (Array.replicate idx.size false)
  return val.toList

end MuProc.Index
