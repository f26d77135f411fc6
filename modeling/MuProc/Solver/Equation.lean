import MuProc.Solver.Dependency
import MuProc.Transformer.Substitution

/-!
# Equations

The right-hand sides: the value of a subformula at a node, given the values of all
nodes. Within a node the values of the other subformulas are read from the vector
that is being computed, so a pass in the order of the numbers sees fresh operands;
passes are repeated until one changes nothing, because a variable reads its
binder, which has a larger number.
-/

namespace MuProc

abbrev Assignment := Array Transformer

namespace DependencyGraph

/-- An answer, or the report that something does not exist. -/
def require {α : Type} : Option α → Except Fault α
  | some a => .ok a
  | none => .error .outOfRange

/-- Component `i` of `t` behind the node `target`. -/
def behind (sp : Space) (assign : Assignment) (t : Transformer) (i target : Nat) :
    Option Func := do
  let f ← t[i]?
  sp.subst f (← assign[target]?)

/-- The transformer of a step: the value of the callee, or the contribution of the action. -/
def linkTransformer (assign : Assignment) (l : Link) : Option Transformer :=
  match l.callee with
  | some (.ofNat v) => assign[v]?
  | _ => some l.action

/-- What a link contributes to subformula `i`: the transformer of the step behind its target. -/
def linkValue (sp : Space) (assign : Assignment) (i : Nat) (l : Link) : Option Func := do
  behind sp assign (← linkTransformer assign l) i l.target

/-- The contributions of all links of a node to subformula `i`. -/
def linkValues (sp : Space) (assign : Assignment) (n : Node) (i : Nat) : Option (List Func) :=
  n.links.mapM (linkValue sp assign i)

def componentAt (t : Transformer) (i : Option Nat) : Option Func :=
  i.bind (t[·]?)

/-- The right-hand side of a subformula at a node that is not just a call; the
vector `c` holds the values at the node itself. -/
def formulaValue (sp : Space) (assign : Assignment) (n : Node) (i : Nat) (s : Subformula)
    (c : Transformer) : Except Fault Func :=
  match s.node with
  | .tt => .ok (.const true)
  | .ff => .ok (.const false)
  | .atom p => .ok (.const (n.state.hasProp p))
  | .not (.atom p) => .ok (.const (!n.state.hasProp p))
  | .not _ => .error (.negation n.state.name i)
  | .and _ _ => require do return Func.all [← componentAt c s.left, ← componentAt c s.right]
  | .or _ _ => require do return Func.any [← componentAt c s.left, ← componentAt c s.right]
  | .mu _ _ | .nu _ _ => require (componentAt c s.left)
  | .var _ => require (componentAt c s.binder)
  | .box _ _ => require ((linkValues sp assign n i).map Func.all)
  | .dia _ _ => require ((linkValues sp assign n i).map Func.any)

/-- The right-hand side of subformula `i` at a node. -/
def component (g : DependencyGraph) (assign : Assignment) (n : Node) (i : Nat) (c : Transformer) :
    Except Fault Func := do
  let s ← require g.index.subs[i]?
  match n.onlyCall? with
  | some l => require (linkValue g.space assign i l)
  | none => formulaValue g.space assign n i s c

def refresh (g : DependencyGraph) (assign : Assignment) (n : Node) (c : Transformer) (i : Nat) :
    Except Fault Transformer := do
  let f ← g.component assign n i c
  require (c.put? i f)

/-- One pass over the subformulas of a block at a node. -/
def pass (g : DependencyGraph) (assign : Assignment) (n : Node) (vars : List Nat)
    (c : Transformer) : Except Fault Transformer :=
  vars.foldlM (g.refresh assign n) c

def passes (g : DependencyGraph) (assign : Assignment) (n : Node) (vars : List Nat) :
    (fuel : Nat) → Transformer → Except Fault Transformer
  | 0, _ => .error (.unfinished n.state.name)
  | fuel + 1, c => do
    let next ← g.pass assign n vars c
    if Transformer.same next c then return c else passes g assign n vars fuel next

/-- The number of passes that is enough: each but the last moves a component, and
no component moves more often than there are input vectors. -/
def passBound (g : DependencyGraph) (vars : List Nat) : Nat :=
  vars.length * Nat.pow 2 g.space.dim + 1

/-- The value of a node that solves the equations of a block at that node, given
the values of the other nodes. -/
def recompute (g : DependencyGraph) (assign : Assignment) (n : Node) (b : Block) :
    Except Fault Transformer := do
  let c ← require assign[n.id]?
  g.passes assign n b.vars (g.passBound b.vars) c

end DependencyGraph

end MuProc
