import Std.Data.TreeMap

/-!
# Decision diagrams

A diagram is a list of decisions. A decision asks for the value of the variable of
one level and names the entry at which to go on. Entry `0` is the answer false, entry
`1` the answer true, and entry `k + 2` is decision `k`. A decision leads only to
earlier entries, at higher levels.

Two diagrams are combined by walking through both at once. A pair of entries is
visited once, however many ways lead to it, and equal decisions are entered once,
so the work is bounded by the product of the sizes and not by the number of ways.
-/

namespace MuProc

/-- A question for one variable, and the entry to go on with for either answer. -/
structure Decision where
  level : Nat
  high : Nat
  low : Nat
deriving DecidableEq, Repr, Inhabited, Hashable

namespace Decision

def next (d : Decision) (b : Bool) : Nat :=
  if b then d.high else d.low

/-- Decisions are ordered by their level, then by where they lead. -/
def order : Decision → Decision → Ordering :=
  compareLex (compareOn level) (compareLex (compareOn high) (compareOn low))

/-- The decision at an entry; the two answers are none. -/
def at? (ds : Array Decision) (k : Nat) : Option Decision :=
  if k < 2 then none else ds[k - 2]?

def answer (b : Bool) : Nat :=
  if b then 1 else 0

/-- The answer found from entry `k` on when the variables have the values `x`. Every
step leads to an earlier entry, so the number of decisions is enough fuel. -/
def value (ds : Array Decision) (x : Nat → Bool) : (fuel : Nat) → (k : Nat) → Bool
  | 0, k => k = 1
  | fuel + 1, k =>
    match at? ds k with
    | none => k = 1
    | some d => value ds x fuel (d.next (x d.level))

/-- The entry to go on with after entry `k` when the variable of level `l` has value `b`. -/
def follow (ds : Array Decision) (l : Nat) (b : Bool) (k : Nat) : Nat :=
  match at? ds k with
  | none => k
  | some d => if d.level = l then d.next b else k

/-- The answer at an entry, if it does not depend on variables. -/
def answer? (ds : Array Decision) (k : Nat) : Option Bool :=
  match at? ds k with
  | none => some (k = 1)
  | some _ => none

/-- Decisions without repetition, with the entry of each of them. -/
structure Table where
  decisions : Array Decision := #[]
  entries : Std.TreeMap Decision Nat order := {}

/-- The entry of a decision, which is added if it is new. A variable is not asked for
if its value makes no difference. -/
def Table.enter (t : Table) (d : Decision) : Nat × Table :=
  if d.high = d.low then (d.low, t)
  else
    match t.entries[d]? with
    | some k => (k, t)
    | none =>
      let k := t.decisions.size + 2
      (k, { decisions := t.decisions.push d, entries := t.entries.insert d k })

/-- Pairs of entries in the order of their components. -/
def pairOrder : Nat × Nat → Nat × Nat → Ordering :=
  compareLex (compareOn Prod.fst) (compareOn Prod.snd)

/-- A combination of two diagrams so far: the decisions made, and the entries found
for pairs of entries. -/
structure Combination where
  table : Table := {}
  found : Std.TreeMap (Nat × Nat) Nat pairOrder := {}

def first? : Option Decision → Option Decision → Option Decision
  | none, e => e
  | d, none => d
  | some d, some e => some (if e.level < d.level then e else d)

/-- The value of an operation when one operand is known, if it does not depend on
the other one. -/
def settled? (op : Bool → Bool → Bool) : Option Bool → Option Bool → Option Bool
  | some a, some b => some (op a b)
  | some a, none => if op a false = op a true then some (op a false) else none
  | none, some b => if op false b = op true b then some (op false b) else none
  | none, none => none

/-- The entry that combines entry `i` of one diagram with entry `j` of another. -/
def combine (op : Bool → Bool → Bool) (ds es : Array Decision) :
    (fuel : Nat) → (i j : Nat) → Combination → Nat × Combination
  | 0, _, _, c => (answer false, c)
  | fuel + 1, i, j, c =>
    match settled? op (answer? ds i) (answer? es j), first? (at? ds i) (at? es j) with
    | some b, _ => (answer b, c)
    | none, none => (answer false, c)
    | none, some d =>
      match c.found[(i, j)]? with
      | some k => (k, c)
      | none =>
        let l := d.level
        let (high, c) := combine op ds es fuel (follow ds l true i) (follow es l true j) c
        let (low, c) := combine op ds es fuel (follow ds l false i) (follow es l false j) c
        let (k, table) := c.table.enter { d with high, low }
        (k, { table, found := c.found.insert (i, j) k })

end Decision

end MuProc
