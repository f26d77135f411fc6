import MuProc.Command.Run

/-!
# Demonstrations

Two runs without arguments: five requirements on the model of orders, and a diagram of
the model of a cipher.
-/

namespace MuProc.Demo

open Command (Outcome)

def requirements : List (String × Formula) :=
  let accepted := Formula.atom "accepted"
  let delivered := Formula.atom "delivered"
  let cancelled := Formula.atom "cancelled"
  [("R1: accepted eventually resolved",
      (Formula.implies accepted (Formula.or delivered cancelled).af).ag),
    ("R2: no delivered & cancelled simultaneously", (Formula.not (.and delivered cancelled)).ag),
    ("R3: delivery is possible", delivered.ef),
    ("R4: cancellation is possible", cancelled.ef),
    ("R5: nothing settles before signing",
      .aw (.not (.can "settle")) (.can "sign"))]

/-- Whether the initial process of a system meets a requirement, and the lines about it. -/
def judge (sys : ProcessSystem) (name : String) (f : Formula) : Bool × String :=
  match satisfies sys f sys.initial with
  | .error e => (false, "ERROR: " ++ name ++ ": " ++ e.message ++ "\n")
  | .ok true => (true, "PASS: " ++ name ++ "\n")
  | .ok false =>
    (false, "FAIL: " ++ name ++ "\n  (The initial process violates the formula)\n")

def orders : Outcome :=
  let sys := Catalog.orders.model.system
  let verdicts := requirements.map fun (name, f) => judge sys name f
  { out := String.join (verdicts.map (·.2))
    error := if verdicts.all (·.1) then none else some "a requirement is violated" }

def purple : Outcome :=
  let sys := Catalog.purple.model.system
  match Graph.expand sys with
  | .error e => { error := some ("error expanding model: " ++ e.message) }
  | .ok g => { out :=
      "PURPLE model expanded to " ++ toString g.size ++ " states.\n" ++
      "Initial process: " ++ sys.initial.text ++ "\n\nMermaid stateDiagram-v2:\n" ++
      (Graph.fenced g.mermaid).text }

end MuProc.Demo
