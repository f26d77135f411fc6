import MuProc.Transformer.Space

/-!
# Written forms

A monotone function is a disjunction of terms, where a term is a set of inputs that all
have to be true. Its smallest terms are its written form.
-/

namespace MuProc

/-- The smallest terms of a monotone function, as lists of levels. At a decision they are
those of its low side, and those of its high side that the low side does not make
superfluous, with the level added. -/
def Diagram.minimalTerms (f : Diagram) : List (List Nat) :=
  let table := f.decisions.foldl
    (fun table d =>
      let isTrue t := Decision.value f.decisions (t.contains ·) f.decisions.size d.low
      let high := (table.getD d.high []).filter fun t => !isTrue t
      table.push (high.map (d.level :: ·) ++ table.getD d.low []))
    #[[], [[]]]
  table.getD f.root []

namespace Space

/-- The order of lists of inputs, number by number. -/
def termLeq : List Nat → List Nat → Bool
  | [], _ => true
  | _ :: _, [] => false
  | i :: s, j :: t => i < j || (i = j && termLeq s t)

/-- The smallest terms in their order, each with its inputs in ascending order. -/
def terms (sp : Space) (f : Func) : List (List Nat) :=
  let inputs t := (t.map (sp.input.getD · 0)).mergeSort (· ≤ ·)
  (f.minimalTerms.map inputs).mergeSort termLeq

/-- The written form of a term, given its inputs in ascending order. -/
def termText (inputs : List Nat) : String :=
  "&".intercalate (inputs.map fun j => "x" ++ toString j)

def text (sp : Space) (f : Func) : String :=
  match Func.const? f with
  | some true => "1"
  | some false => "0"
  | none => "|".intercalate ((sp.terms f).map termText)

def texts (sp : Space) (t : Transformer) : List String :=
  t.toList.map sp.text

end Space

end MuProc
