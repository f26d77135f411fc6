import MuProc.File.Record
import MuProc.File.Spec

/-!
# Reading model files from documents

The fields of a model file, from the file as a whole down to the steps of its rules. A
node that is no formula is reported at once, everything else that is wrong together.
-/

namespace MuProc

namespace ModelFile

open Yaml (Node)

namespace Decoder

def wholeFormula (n : Node) : Decoder (Option Formula) :=
  match Formula.ofNode n with
  | .ok f => return some f
  | .error e => throw (.formula e)

/-- What stands under the one field of a formula that is called a null. Nothing but a null
fits there. -/
def formulaPart : Node → Decoder (Option Formula) :=
  visit fun n => do
    if !(← checkKeys n) || (← isNull n) then return none
    if n.kind = .sequence then let _ ← untypedItems none n.content
    halt .notFormula

def formulaFields : Fields (Option Formula) where
  type := "formula.YAML"
  set? := fun
    | "formula", value => some fun _ => formulaPart value
    | _, _ => none
  whole? := some wholeFormula

def formula : Node → Decoder (Option Formula) :=
  visit fun n => do
    if n.tag ≠ "!!null" then wholeFormula n
    else if !(← checkKeys n) || (← isNull n) then return none
    else if n.kind = .mapping then recordOf none formulaFields n.content
    else mismatch n "formula.YAML"

def string (n : Node) : Decoder (Option String) := do
  return (← text n).map (·.text)

def stepFields : Fields StepSpec where
  type := "process.StepSpec"
  set? := fun
    | "action", value => some fun s => do return { s with action := (← text value).getD s.action }
    | "kind", value => some fun s => do return { s with kind := (← text value).getD s.kind }
    | "call", value => some fun s => do return { s with call := (← text value).getD s.call }
    | _, _ => none

def rule (n : Node) : Decoder (Option (List StepSpec)) := do
  return (← list "[]process.StepSpec" (record {} stepFields) n).map (·.getD [])

def processFields : Fields ProcessSpec where
  type := "process.ProcessSpec"
  set? := fun
    | "name", value => some fun p => do return { p with name := (← text value).getD p.name }
    | "propositions", value => some fun p => do
      let l ← list "[]string" text value
      return { p with propositions := l.elim p.propositions (·.getD []) }
    | "rules", value => some fun p => do
      let l ← list "[][]process.StepSpec" rule value
      return { p with rules := l.elim p.rules (·.getD []) }
    | _, _ => none

def propertyFields : Fields PropertySpec where
  type := "process.Property"
  set? := fun
    | "name", value => some fun p => do return { p with name := (← string value).getD p.name }
    | "description", value => some fun p => do
      return { p with description := (← string value).getD p.description }
    | "expect", value => some fun p => do return { p with expect := ← flag value }
    | "formula", value => some fun p => do return { p with formula := ← formula value }
    | _, _ => none

def fileFields : Fields ModelFile where
  type := "process.File"
  set? := fun
    | "name", value => some fun f => do return { f with name := (← string value).getD f.name }
    | "initial", value => some fun f => do
      return { f with initial := (← text value).getD f.initial }
    | "processes", value => some fun f => do
      let l ← list "[]process.ProcessSpec" (record {} processFields) value
      return { f with processes := l.getD f.processes }
    | "properties", value => some fun f => do
      let l ← list "[]process.Property" (record {} propertyFields) value
      return { f with properties := l.elim f.properties (·.getD []) }
    | _, _ => none

/-- A whole file. The document itself counts as a visit. -/
def file (n : Node) : Decoder (Option ModelFile) := do
  count
  record {} fileFields n

def formulaDocument (n : Node) : Decoder (Option Formula) := do
  count
  formula n

end Decoder

end ModelFile

end MuProc
