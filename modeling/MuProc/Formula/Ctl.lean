import MuProc.Formula.Basic
import Std.Data.HashSet

/-!
# Branching-time operators

The path operators written as fixpoints. Paths are maximal: one that ends in a
state without successors counts for "some path always" and does not count for
"every path eventually". Each operator binds a variable that its operands do not
mention, so nothing in them is captured.
-/

namespace MuProc.Formula

/-- The names a formula binds or refers to, in front of others. -/
def namesBefore : Formula → (others : List Name) → List Name
  | .not f, others | .box _ f, others | .dia _ f, others => f.namesBefore others
  | .and f g, others | .or f g, others => f.namesBefore (g.namesBefore others)
  | .mu x f, others | .nu x f, others => x :: f.namesBefore others
  | .var x, others => x :: others
  | _, others => others

def names (fs : List Formula) : List Name :=
  fs.foldr namesBefore []

def candidate (i : Nat) : Name :=
  "Z" ++ toString i

/-- The first candidate from `i` on that is not used, among the next `fuel + 1` ones. -/
def firstUnused (used : Std.HashSet Name) : (fuel : Nat) → (i : Nat) → Name
  | 0, i => candidate i
  | fuel + 1, i =>
    if used.contains (candidate i) then firstUnused used fuel (i + 1) else candidate i

/-- A variable that no operand binds or mentions: the first unused candidate. As
many names are tried as the operands have, and one more. -/
def fresh (operands : List Formula) : Name :=
  let used := names operands
  firstUnused (.ofList used) used.length 0

def progress (x : Name) : Formula :=
  .and (.box "" (.var x)) (.dia "" .tt)

def continues (x : Name) : Formula :=
  .or (.dia "" (.var x)) (.box "" .ff)

def implies (p q : Formula) : Formula :=
  .or (.not p) q

def ex (f : Formula) : Formula :=
  .dia "" f

def ax (f : Formula) : Formula :=
  .box "" f

def ef (f : Formula) : Formula :=
  let x := fresh [f]
  .mu x (.or f (.dia "" (.var x)))

def af (f : Formula) : Formula :=
  let x := fresh [f]
  .mu x (.or f (progress x))

def eg (f : Formula) : Formula :=
  let x := fresh [f]
  .nu x (.and f (continues x))

def ag (f : Formula) : Formula :=
  let x := fresh [f]
  .nu x (.and f (.box "" (.var x)))

def eu (p q : Formula) : Formula :=
  let x := fresh [p, q]
  .mu x (.or q (.and p (.dia "" (.var x))))

def au (p q : Formula) : Formula :=
  let x := fresh [p, q]
  .mu x (.or q (.and p (progress x)))

/-- On some path `p` until `q`, or `p` throughout. -/
def ew (p q : Formula) : Formula :=
  let x := fresh [p, q]
  .nu x (.or q (.and p (continues x)))

/-- On every path `p` until `q`, or `p` throughout. -/
def aw (p q : Formula) : Formula :=
  let x := fresh [p, q]
  .nu x (.or q (.and p (.box "" (.var x))))

end MuProc.Formula
