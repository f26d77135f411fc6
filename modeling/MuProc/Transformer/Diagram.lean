import MuProc.Transformer.Decision
import MuProc.Transformer.Package

/-!
# Diagrams

A diagram is a table of decisions with the entry at which to start. Every operation
lays its result out anew, by a walk from the start that takes the high side first, so
two diagrams are the same function only if they are the same table. Diagrams are
therefore the nodes of a package.
-/

namespace MuProc

/-- A table of decisions with the entry at which to start. -/
structure Diagram where
  decisions : Array Decision
  root : Nat
deriving DecidableEq, Repr, Hashable

namespace Diagram

def const (b : Bool) : Diagram :=
  ⟨#[], Decision.answer b⟩

instance : Inhabited Diagram :=
  ⟨const false⟩

def answer? (f : Diagram) : Option Bool :=
  Decision.answer? f.decisions f.root

/-- The diagram that asks for the variable of a level only, and answers its value or the
opposite of it. -/
def literal (l : Nat) (b : Bool) : Diagram :=
  ⟨#[⟨l, Decision.answer b, Decision.answer (!b)⟩], 2⟩

/-- The value of a diagram when the variables have the values `x`. -/
def eval (f : Diagram) (x : Nat → Bool) : Bool :=
  Decision.value f.decisions x f.decisions.size f.root

/-- A diagram for an operation on the values of two diagrams. -/
def merge (op : Bool → Bool → Bool) (f g : Diagram) : Diagram :=
  let fuel := f.decisions.size + g.decisions.size + 1
  let (root, c) := Decision.combine op f.decisions g.decisions fuel f.root g.root {}
  ⟨c.table.decisions, root⟩

/-- The same diagram with its decisions in the order of a walk from the start, and none
that the walk does not meet. -/
def layout (f : Diagram) : Diagram :=
  merge (fun a _ => a) f (const false)

def combine (op : Bool → Bool → Bool) (f g : Diagram) : Diagram :=
  (merge op f g).layout

def not (f : Diagram) : Diagram :=
  combine (fun a _ => !a) f (const false)

def and (f g : Diagram) : Diagram :=
  if f.answer? = some true then g
  else if g.answer? = some true then f
  else combine (· && ·) f g

def or (f g : Diagram) : Diagram :=
  if f.answer? = some false then g
  else if g.answer? = some false then f
  else combine (· || ·) f g

/-- The diagram that agrees with `f` where the condition is true and with `g` elsewhere. -/
def ite (cond f g : Diagram) : Diagram :=
  or (and cond f) (combine (fun a b => !a && b) cond g)

/-- A diagram with the variable of level `l` fixed to the value `b`. -/
def fix (f : Diagram) (l : Nat) (b : Bool) : Diagram :=
  let (entries, table) := f.decisions.foldl
    (fun (entries, table) d =>
      let entry k := entries.getD k (Decision.answer false)
      if d.level = l then (entries.push (entry (d.next b)), table)
      else
        let (k, table) := table.enter { d with high := entry d.high, low := entry d.low }
        (entries.push k, table))
    (#[Decision.answer false, Decision.answer true], ({} : Decision.Table))
  ⟨table.decisions, entries.getD f.root (Decision.answer false)⟩

def exist (f : Diagram) (l : Nat) : Diagram :=
  combine (· || ·) (f.fix l true) (f.fix l false)

/-- The diagram that starts at entry `k`. -/
def startAt (f : Diagram) (k : Nat) : Diagram :=
  layout ⟨f.decisions, k⟩

/-- What a decision of a diagram asks for, and the diagrams to go on with. -/
def vertex (f : Diagram) (d : Decision) : Vertex Diagram :=
  ⟨d.level, f.startAt d.low, f.startAt d.high⟩

def nodes (f : Diagram) : List (Diagram × Vertex Diagram) :=
  f.decisions.toList.zipIdx.map fun row => (f.startAt (row.2 + 2), f.vertex row.1)

end Diagram

instance : Package Diagram where
  zero := .const false
  one := .const true
  var l := .literal l true
  nvar l := .literal l false
  not := Diagram.not
  and := Diagram.and
  or := Diagram.or
  ite := Diagram.ite
  exist := Diagram.exist
  nodes := Diagram.nodes

end MuProc
