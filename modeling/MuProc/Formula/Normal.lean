import MuProc.Formula.Basic

/-!
# Negation normal form

Negations are pushed down to the propositions. A fixpoint under an odd number of
negations becomes its dual, and its variable then stands for the complement, so a
variable keeps a negation exactly when its own polarity differs from that of its
binder.
-/

namespace MuProc.Formula

/-- Which variables stand for the complement of what their binder meant. -/
abbrev Polarity := Name → Bool

/-- Inside a binder of `x` the variable has the polarity of that binder. -/
def Polarity.bind (dual : Polarity) (x : Name) (b : Bool) : Polarity :=
  fun y => if y = x then b else dual y

/-- The normal form of a formula, or of its negation if `neg` is set, where the
free variables in `dual` stand for complements. -/
def normalWith : Polarity → (neg : Bool) → Formula → Formula
  | _, neg, .tt => if neg then .ff else .tt
  | _, neg, .ff => if neg then .tt else .ff
  | _, neg, .atom p => if neg then .not (.atom p) else .atom p
  | dual, neg, .not f => normalWith dual (!neg) f
  | dual, neg, .and f g =>
    let f := normalWith dual neg f
    let g := normalWith dual neg g
    if neg then .or f g else .and f g
  | dual, neg, .or f g =>
    let f := normalWith dual neg f
    let g := normalWith dual neg g
    if neg then .and f g else .or f g
  | dual, neg, .box a f =>
    let f := normalWith dual neg f
    if neg then .dia a f else .box a f
  | dual, neg, .dia a f =>
    let f := normalWith dual neg f
    if neg then .box a f else .dia a f
  | dual, neg, .mu x f =>
    let f := normalWith (dual.bind x neg) neg f
    if neg then .nu x f else .mu x f
  | dual, neg, .nu x f =>
    let f := normalWith (dual.bind x neg) neg f
    if neg then .mu x f else .nu x f
  | dual, neg, .var x => if neg = dual x then .var x else .not (.var x)

/-- The negation normal form: negation stands above propositions and variables only. -/
def normal (f : Formula) : Formula :=
  normalWith (fun _ => false) false f

end MuProc.Formula
