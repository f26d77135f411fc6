import MuProc.Formula.Basic

/-!
# Numbered formulas

A closed formula in negation normal form is numbered in post-order, so every node
has a larger number than its children and the root has the largest. The nodes are
grouped into equational blocks: block 0 holds what lies outside every fixpoint,
and a fixpoint of another kind than the block around it opens a new block, which
therefore has a larger number than the block that encloses it. A variable has to
stand in the block of its binder: fixpoints do not alternate.
-/

namespace MuProc

/-- Which extremal solution a block of equations asks for. -/
inductive BlockKind where
  | plain
  | greatest
  | least
deriving DecidableEq, Repr, Inhabited

def BlockKind.text : BlockKind → String
  | .plain => "none"
  | .greatest => "nu"
  | .least => "mu"

/-- One numbered node of a formula. -/
structure Subformula where
  node : Formula
  /-- The number of the node. -/
  var : Nat
  /-- The block the node belongs to. -/
  block : Nat
  kind : BlockKind
  /-- The numbers of the children. -/
  left : Option Nat := none
  right : Option Nat := none
  /-- The number of the fixpoint that binds a variable. -/
  binder : Option Nat := none
deriving DecidableEq, Repr, Inhabited

/-- Whether the node belongs to a greatest fixpoint; nothing is said outside of fixpoints. -/
def Subformula.inGreatest? (s : Subformula) : Option Bool :=
  match s.kind with
  | .plain => none
  | .greatest => some true
  | .least => some false

/-- Equations that are solved together. -/
structure Block where
  number : Nat
  kind : BlockKind
  /-- The enclosing block. -/
  parent : Option Nat
  /-- The numbers of its nodes. -/
  vars : List Nat
deriving DecidableEq, Repr, Inhabited

/-- A formula as numbered nodes and blocks. -/
structure Index where
  subs : Array Subformula
  blocks : Array Block
  root : Nat
deriving DecidableEq, Repr, Inhabited

def Index.size (idx : Index) : Nat :=
  idx.subs.size

/-- Why a formula cannot be numbered. -/
inductive Malformed where
  | unbound (x : Name)
  | negated (x : Name)
  | notNormal
  | alternating (x : Name)
deriving DecidableEq, Repr

def Malformed.reason : Malformed → String
  | .unbound x => "variable " ++ x.text ++ " is not bound"
  | .negated x => "fixpoint variable " ++ x.text ++ " occurs negated"
  | .notNormal => "negation of a non-atomic formula; normalize first"
  | .alternating x => "variable " ++ x.text ++
      " is used inside a fixpoint of another kind (alternating fixpoints are not supported)"

/-- A malformed formula: the offending node and what is wrong with it. -/
structure StructuralError where
  node : Formula
  cause : Malformed
deriving DecidableEq, Repr

/-- The report of a malformed formula, with or without the node at fault. -/
def structuralMessage (node : Option Formula) (reason : String) : String :=
  match node with
  | none => "malformed formula: " ++ reason
  | some f => "malformed formula at " ++ f.text.text ++ ": " ++ reason

def StructuralError.message (e : StructuralError) : String :=
  structuralMessage (some e.node) e.cause.reason

namespace Index

/-- A fixpoint variable in scope: its block, and the numbers of the nodes that refer to it. -/
structure Scope where
  name : Name
  block : Nat
  refs : List Nat := []
deriving Repr

/-- The nodes and blocks so far, and the variables in scope, the innermost one first. -/
structure Numbering where
  subs : Array Subformula
  blocks : Array Block
  scopes : List Scope
deriving Repr

namespace Numbering

/-- The state before any node is numbered: block 0 is open. -/
def start : Numbering :=
  { subs := #[], blocks := #[{ number := 0, kind := .plain, parent := none, vars := [] }],
    scopes := [] }

def kind (n : Numbering) (block : Nat) : BlockKind :=
  (n.blocks[block]?).elim .plain (·.kind)

/-- Gives the next number to a node, which becomes a member of its block. -/
def add (n : Numbering) (node : Formula) (block : Nat) (kind : BlockKind)
    (left right : Option Nat) : Nat × Numbering :=
  let v := n.subs.size
  (v, { n with
    subs := n.subs.push { node, var := v, block, kind, left, right }
    blocks := n.blocks.modify block fun b => { b with vars := b.vars ++ [v] } })

def lookup (n : Numbering) (x : Name) : Option Scope :=
  n.scopes.find? (·.name = x)

/-- The innermost scope of the variable `x` gets a reference. -/
def noteRef (x : Name) (v : Nat) : List Scope → List Scope
  | [] => []
  | s :: scopes =>
    if s.name = x then { s with refs := s.refs ++ [v] } :: scopes else s :: noteRef x v scopes

def note (n : Numbering) (x : Name) (v : Nat) : Numbering :=
  { n with scopes := noteRef x v n.scopes }

def openBlock (n : Numbering) (parent : Nat) (k : BlockKind) : Numbering :=
  { n with blocks := n.blocks.push {
      number := n.blocks.size, kind := k, parent := some parent, vars := [] } }

/-- The block of a fixpoint of kind `k` inside `block`: the same one if the kinds
agree, a new one otherwise. -/
def enter (n : Numbering) (block : Nat) (k : BlockKind) : Nat × Numbering :=
  if n.kind block = k then (block, n) else (n.blocks.size, n.openBlock block k)

/-- Brings the variable of a fixpoint into scope. -/
def declare (n : Numbering) (x : Name) (block : Nat) : Numbering :=
  { n with scopes := { name := x, block } :: n.scopes }

/-- The nodes with the numbers `refs` refer to the fixpoint with the number `v`. -/
def setBinder (v : Nat) (refs : List Nat) (subs : Array Subformula) : Array Subformula :=
  refs.foldl (fun subs ref => subs.modify ref fun s => { s with binder := some v }) subs

/-- Ends the scope of a fixpoint and gives the fixpoint a number, which those that refer to it
get to know. -/
def leave (n : Numbering) (node : Formula) (block : Nat) (kind : BlockKind) (body : Nat) :
    Nat × Numbering :=
  let refs := (n.scopes.head?).elim [] (·.refs)
  let (v, n) := { n with scopes := n.scopes.tail }.add node block kind (some body) none
  (v, { n with subs := setBinder v refs n.subs })

end Numbering

/-- Numbers the nodes of a formula in a block. Its own number is returned. -/
abbrev Visit := (block : Nat) → Numbering → Except StructuralError (Nat × Numbering)

def leaf (φ : Formula) : Visit := fun block n =>
  .ok (n.add φ block (n.kind block) none none)

def unary (φ : Formula) (operand : Visit) : Visit := fun block n => do
  let (l, n) ← operand block n
  return n.add φ block (n.kind block) (some l) none

def binary (φ : Formula) (left right : Visit) : Visit := fun block n => do
  let (l, n) ← left block n
  let (r, n) ← right block n
  return n.add φ block (n.kind block) (some l) (some r)

/-- Numbers a fixpoint of kind `k`, whose variable is in scope inside of it. -/
def fixpoint (φ : Formula) (k : BlockKind) (x : Name) (body : Visit) : Visit := fun block n => do
  let (inner, n) := n.enter block k
  let (l, n) ← body inner (n.declare x inner)
  return n.leave φ inner k l

/-- Numbers a variable and notes that it refers to its fixpoint. -/
def reference (x : Name) : Visit := fun block n =>
  match n.lookup x with
  | none => .error ⟨.var x, .unbound x⟩
  | some s =>
    if s.block = block then
      let (v, n) := n.add (.var x) block (n.kind block) none none
      .ok (v, n.note x v)
    else .error ⟨.var x, .alternating x⟩

/-- Numbers a negation, which has to stand above a proposition. -/
def negation (f : Formula) : Visit := fun block n =>
  match f with
  | .atom p =>
    let (l, n) := n.add (.atom p) block (n.kind block) none none
    .ok (n.add (.not (.atom p)) block (n.kind block) (some l) none)
  | .var x =>
    match n.lookup x with
    | none => .error ⟨.not (.var x), .unbound x⟩
    | some _ => .error ⟨.not (.var x), .negated x⟩
  | f => .error ⟨.not f, .notNormal⟩

def visit : Formula → Visit
  | .not f => negation f
  | .and f g => binary (.and f g) (visit f) (visit g)
  | .or f g => binary (.or f g) (visit f) (visit g)
  | .box a f => unary (.box a f) (visit f)
  | .dia a f => unary (.dia a f) (visit f)
  | .mu x f => fixpoint (.mu x f) .least x (visit f)
  | .nu x f => fixpoint (.nu x f) .greatest x (visit f)
  | .var x => reference x
  | f => leaf f

/-- Numbers a closed formula in negation normal form without alternating fixpoints. -/
def ofFormula (f : Formula) : Except StructuralError Index := do
  let (root, n) ← visit f 0 .start
  return { subs := n.subs, blocks := n.blocks, root }

/-- Whether `s` comes before `t` in the variable order: inner blocks come first,
and nodes of one block in the order of their numbers. -/
def before (s t : Subformula) : Bool :=
  if s.block = t.block then s.var ≤ t.var else t.block < s.block

/-- The numbers of the nodes in the variable order. -/
def arrangement (idx : Index) : List Nat :=
  (idx.subs.toList.mergeSort before).map (·.var)

/-- The level of every node: its place in the variable order. -/
def order (idx : Index) : List Nat :=
  (List.range idx.size).map fun v => idx.arrangement.idxOf v

end Index

end MuProc
