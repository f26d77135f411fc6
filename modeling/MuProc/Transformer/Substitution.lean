import MuProc.Transformer.Space

/-!
# Substitution

The inputs of a function are replaced by the components of a transformer. The diagram
is rewritten from its start: a decision becomes a choice between its rewritten sides by
the component for the input of its level. What a node became is kept for all functions
that are rewritten with the same transformer.
-/

namespace MuProc

/-- What nodes have been rewritten to. -/
abbrev Memo (ν : Type) [DecidableEq ν] [Hashable ν] :=
  Std.HashMap ν ν

namespace Space

variable {ν : Type} [Package ν] [DecidableEq ν] [Hashable ν]

/-- The vertices of the nodes of a function. -/
def vertices (f : ν) : Std.HashMap ν (Vertex ν) :=
  (Package.nodes f).foldl (fun table row => table.insert row.1 row.2) {}

def startMemo : Memo ν :=
  (({} : Memo ν).insert Package.zero Package.zero).insert Package.one Package.one

/-- Rewrites a node whose vertex is in the table. Each step leads to a higher level, so
the number of levels is enough fuel. There is no answer if a level has no input, or an
input no component. -/
def rewrite (sp : Space) (t : Transformer ν) (table : Std.HashMap ν (Vertex ν)) :
    (fuel : Nat) → ν → Memo ν → Option (ν × Memo ν)
  | 0, _, _ => none
  | fuel + 1, f, memo =>
    match memo[f]? with
    | some r => some (r, memo)
    | none => do
      let v := table.getD f ⟨0, Package.zero, Package.zero⟩
      let cond ← t[← sp.input[v.level]?]?
      let (high, memo) ← rewrite sp t table fuel v.high memo
      let (low, memo) ← rewrite sp t table fuel v.low memo
      let r := Package.ite cond high low
      return (r, memo.insert f r)

/-- Rewrites one function after others. -/
def substNext (sp : Space) (t : Transformer ν) (f : ν) (memo : Memo ν) : Option (ν × Memo ν) :=
  match memo[f]? with
  | some r => some (r, memo)
  | none => sp.rewrite t (vertices f) (sp.dim + 1) f memo

/-- The function whose input `j` is replaced by component `j` of `t`. -/
def subst (sp : Space) (f : ν) (t : Transformer ν) : Option ν :=
  (sp.substNext t f startMemo).map Prod.fst

def substAll (sp : Space) (t : Transformer ν) : List ν → Memo ν → Option (List ν)
  | [], _ => some []
  | f :: fs, memo => do
    let (g, memo) ← sp.substNext t f memo
    return g :: (← substAll sp t fs memo)

/-- The transformer that applies `b` first and then `a`. -/
def compose (sp : Space) (a b : Transformer ν) : Option (Transformer ν) :=
  (sp.substAll b a.toList startMemo).map List.toArray

end Space

end MuProc
