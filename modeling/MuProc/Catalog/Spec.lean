import MuProc.Process.System
import MuProc.Formula.Basic

/-!
# Models with properties

A model together with the formulas that are asked about it. A property may record
the verdict that is expected of it.
-/

namespace MuProc

/-- A named formula. -/
structure Property where
  name : String
  description : String := ""
  formula : Formula
  expect : Option Bool := none
deriving DecidableEq, Repr

/-- A model and its properties. -/
structure Spec where
  description : String
  model : Model
  properties : List Property
deriving DecidableEq, Repr

/-- The name of a specification is that of its model. -/
def Spec.name (s : Spec) : String :=
  s.model.name

def Spec.summary (s : Spec) : String :=
  String.ofList (s.description.toList.takeWhile (· ≠ '\n'))

namespace Formula

def can (a : Name) : Formula :=
  .dia a .tt

def stopped : Formula :=
  .box "" .ff

/-- The formula holds after some run through the given actions. -/
def after (actions : List Name) (f : Formula) : Formula :=
  actions.foldr .dia f

end Formula

end MuProc
