import MuProc.Command.Line
import MuProc.File.Load
import MuProc.Process.Diagram
import MuProc.Solver.Metrics

/-!
# Running commands

What a command prints, and the error it ends with. A check prints the verdict of every
property and compares it with the one that is expected.
-/

namespace MuProc.Command

/-- What a command prints, and the error it ends with, if any. -/
structure Outcome where
  out : String := ""
  error : Option String := none
  /-- Whether the command broke off without a report. -/
  aborted : Bool := false
deriving DecidableEq, Repr, Inhabited

def Outcome.ok (o : Outcome) : Bool :=
  o.error.isNone && !o.aborted

def padded (width : Nat) (s : String) : String :=
  s ++ String.ofList (List.replicate (width - s.length) ' ')

def verdictText (holds : Bool) : String :=
  if holds then "true" else "false"

/-! ### Checks -/

/-- Whether the verdict on a property is another one than expected. -/
def failed (p : Property) (holds : Bool) : Bool :=
  p.expect.any (· ≠ holds)

def propertyLines (p : Property) (holds : Bool) : String :=
  (match p.expect with
    | none => padded 5 (verdictText holds) ++ " " ++ p.name ++ "\n"
    | some e =>
      if e = holds then "PASS: " ++ p.name ++ "\n"
      else "FAIL: " ++ p.name ++ "\n  (expected " ++ verdictText e ++ ", got " ++
        verdictText holds ++ ")\n") ++
  (if p.description = "" then "" else "  " ++ p.description ++ "\n")

/-- The checks done so far. -/
structure Progress where
  out : String := ""
  failures : Nat := 0
  metrics : Metrics := {}
deriving DecidableEq, Repr, Inhabited

/-- The options of the checks of a system, which start from its initial process. -/
def Settings.options (s : Settings) (sys : ProcessSystem) : CheckOptions where
  nodeSize := some s.nodeSize
  cacheSize := some s.cacheSize
  invariants := s.checkInvariants
  initial := sys.initial

/-- Checks one property; an error comes with the report of it. -/
def Progress.addProperty (g : Progress) (sys : ProcessSystem) (o : CheckOptions) (p : Property) :
    Except String Progress :=
  let checked := do
    let r ← check sys p.formula o
    return (r, ← r.verdict)
  match checked with
  | .error e => .error ("checking " ++ p.name ++ ": " ++ e.message)
  | .ok (r, holds) => .ok {
      out := g.out ++ propertyLines p holds
      failures := g.failures + (if failed p holds then 1 else 0)
      metrics := g.metrics.addCheck r }

def Progress.addProperties (g : Progress) (sys : ProcessSystem) (o : CheckOptions) :
    List Property → Progress × Option String
  | [] => (g, none)
  | p :: ps =>
    match g.addProperty sys o p with
    | .error e => (g, some e)
    | .ok g => g.addProperties sys o ps

def checkSpec (spec : Spec) (s : Settings) : Outcome :=
  let sys := spec.model.system
  let start : Progress := {
    out := "Model " ++ spec.name ++ " (initial " ++ sys.initial.text ++ ")\n" }
  match start.addProperties sys (s.options sys) spec.properties with
  | (g, some e) => { out := g.out, error := some e }
  | (g, none) => {
      out := g.out ++ (if s.metrics then g.metrics.text else "")
      error := if g.failures = 0 then none
        else some (toString g.failures ++ " of " ++ toString spec.properties.length ++
          " properties failed") }

/-! ### The other commands -/

def drawing (draw : Graph → ByteString) (spec : Spec) : Outcome :=
  match Graph.expand spec.model.system with
  | .ok g => { out := (draw g).text }
  | .error e => { error := some e.message }

def modelList : String :=
  String.join (Catalog.all.map fun s => padded 8 s.name ++ " " ++ s.summary ++ "\n")

/-- What the program does, its commands and its flags. -/
def usageText : String :=
  "modalmu checks alternation-free modal mu-calculus properties of process\n" ++
  "systems whose rules may call other processes, and renders their expansion.\n\n" ++
  "A model is either the name of a built-in model (see \"modalmu models\") or a\n" ++
  "YAML model file.\n\nUsage:\n  modalmu [command]\n\nAvailable Commands:\n" ++
  String.join (Verb.all.map fun v => "  " ++ padded 11 v.name ++ " " ++ v.summary ++ "\n") ++
  "\nFlags:\n" ++
  String.join (Flag.shared.map fun f => "      --" ++ padded 18 f.name ++ " " ++ f.summary ++ "\n")

/-! ### Requests -/

def withModel (read : String → Except ReadFault String) (name : String) (act : Spec → Outcome) :
    Outcome :=
  match Spec.find name read with
  | .ok spec => act spec
  | .error e => if e.isFatal then { aborted := true } else { error := some e.message }

/-- What a request leads to, given what can be read. -/
def Request.run (read : String → Except ReadFault String) : Request → Outcome
  | .usage => { out := usageText }
  | .models => { out := modelList }
  | .check model s => withModel read model (checkSpec · s)
  | .dot model => withModel read model (drawing Graph.dot)
  | .mermaid model fence =>
    withModel read model (drawing fun g => if fence then Graph.fenced g.mermaid else g.mermaid)

/-- What a command line leads to, given what can be read. -/
def run (args : List String) (read : String → Except ReadFault String) : Outcome :=
  match Request.ofArguments args with
  | .ok r => r.run read
  | .error e => { error := some e.message }

def pathOf? (args : List String) : Option String :=
  match Request.ofArguments args with
  | .ok (.check model _) | .ok (.dot model) | .ok (.mermaid model _) => some model
  | _ => none

end MuProc.Command
