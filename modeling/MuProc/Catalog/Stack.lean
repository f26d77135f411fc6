import MuProc.Catalog.Spec
import MuProc.Formula.Ctl

/-!
# Stack

A process with balanced pushes and pops. No finite-state system has these runs,
which makes it a check of calls and returns.
-/

namespace MuProc.Catalog

/-- Pushing, running a copy, popping and running another copy, or stopping. -/
def stackModel : Model :=
  .ofDefinitions "stack" "Main" [
    { name := "Main", props := ["idle"],
      rules := [[.act "push" .must, .run "Main", .act "pop" .must, .run "Main"],
        [.act "done" .must]] }]

def stackProperties : List Property :=
  [ { name := "[pop]false"
      description := "A pop never comes first."
      formula := .box "pop" .ff
      expect := some true },
    { name := "EF []false"
      description := "Every run can stop."
      formula := .ef .stopped
      expect := some true },
    { name := "AF []false"
      description := "Every run stops (pushes can go on forever)."
      formula := .af .stopped
      expect := some false },
    { name := "<push><done><pop>idle"
      description := "After a matching pop the process is idle again."
      formula := .after ["push", "done", "pop"] (.atom "idle")
      expect := some true },
    { name := "<push><done><pop><done><pop>true"
      description := "A second pop needs a second push."
      formula := .after ["push", "done", "pop", "done", "pop"] .tt
      expect := some false },
    { name := "<push><push><done><pop><done><pop><done>[]false"
      description := "Two pushes are matched by two pops."
      formula := .after ["push", "push", "done", "pop", "done", "pop", "done"] .stopped
      expect := some true },
    { name := "AG(EF <done>true | []false)"
      description := "Stopping is never ruled out before the end."
      formula := .ag (.or (.ef (.can "done")) .stopped)
      expect := some true } ]

def stack : Spec where
  description :=
    "A process that either stops, or pushes, runs a nested copy of itself,\n" ++
    "pops and then runs another copy. Every pop matches an earlier push."
  model := stackModel
  properties := stackProperties

end MuProc.Catalog
