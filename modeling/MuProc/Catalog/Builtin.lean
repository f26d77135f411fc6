import MuProc.Catalog.Orders
import MuProc.Catalog.Purple
import MuProc.Catalog.Stack

/-!
# Built-in models

The models that are available by name, in the order of their names.
-/

namespace MuProc.Catalog

/-- The built-in models in ascending order of their names. -/
def all : List Spec :=
  [orders, purple, stack]

def find? (name : String) : Option Spec :=
  all.find? (·.name = name)

end MuProc.Catalog
