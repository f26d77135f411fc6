import MuProc.Text.Quoted

/-!
# Modal mu-calculus formulas

The eleven forms of formula, their subformulas in pre-order, and their written
form. Two formulas are equal when they are the same tree: bound variables are
compared by name. A modality with the empty action speaks about every action.
All names may hold any bytes.
-/

namespace MuProc

/-- A modal mu-calculus formula. -/
inductive Formula where
  | tt
  | ff
  | atom (p : Name)
  | not (f : Formula)
  | and (f g : Formula)
  | or (f g : Formula)
  | box (a : Name) (f : Formula)
  | dia (a : Name) (f : Formula)
  | mu (x : Name) (f : Formula)
  | nu (x : Name) (f : Formula)
  | var (x : Name)
deriving DecidableEq, Repr, Inhabited

namespace Formula

/-- Every node of a formula, each before its children and left before right. -/
def nodes : Formula → List Formula
  | .not f => .not f :: f.nodes
  | .and f g => .and f g :: (f.nodes ++ g.nodes)
  | .or f g => .or f g :: (f.nodes ++ g.nodes)
  | .box a f => .box a f :: f.nodes
  | .dia a f => .dia a f :: f.nodes
  | .mu x f => .mu x f :: f.nodes
  | .nu x f => .nu x f :: f.nodes
  | f => [f]

def size : Formula → Nat
  | .not f | .box _ f | .dia _ f | .mu _ f | .nu _ f => f.size + 1
  | .and f g | .or f g => f.size + g.size + 1
  | _ => 1

/-- The size counts the nodes. -/
theorem length_nodes (f : Formula) : f.nodes.length = f.size := by
  induction f <;> simp_all [nodes, size]

/-- Whether two formulas are the same tree. -/
def equal : Formula → Formula → Bool
  | .tt, .tt => true
  | .ff, .ff => true
  | .atom p, .atom q => p = q
  | .not f, .not g => equal f g
  | .and f f', .and g g' => equal f g && equal f' g'
  | .or f f', .or g g' => equal f g && equal f' g'
  | .box a f, .box b g => a = b && equal f g
  | .dia a f, .dia b g => a = b && equal f g
  | .mu x f, .mu y g => x = y && equal f g
  | .nu x f, .nu y g => x = y && equal f g
  | .var x, .var y => x = y
  | _, _ => false

theorem equal_iff {f g : Formula} : equal f g = true ↔ f = g := by
  induction f generalizing g <;> cases g <;> simp_all [equal]

/-- The written form. Propositions are quoted, variables and actions are not. -/
def text : Formula → ByteString
  | .tt => "true"
  | .ff => "false"
  | .atom p => Text.quoted p
  | .not f => "!" ++ f.text
  | .and f g => "(" ++ f.text ++ " && " ++ g.text ++ ")"
  | .or f g => "(" ++ f.text ++ " || " ++ g.text ++ ")"
  | .box a f => "[" ++ a ++ "]" ++ f.text
  | .dia a f => "<" ++ a ++ ">" ++ f.text
  | .mu x f => "(mu " ++ x ++ ".(" ++ f.text ++ "))"
  | .nu x f => "(nu " ++ x ++ ".(" ++ f.text ++ "))"
  | .var x => x

end Formula

end MuProc
