import MuProc.Formula.Basic
import MuProc.Process.Validity
import MuProc.Catalog.Spec

/-!
# Model files

What a model file says, field by field, and the model it describes. The fields are
checked first: names are there, rules have steps, a step has either an action or a
call, and its modality is spelled out. All violations are reported together.
-/

namespace MuProc

/-- One step of a rule. -/
structure StepSpec where
  action : Name := ""
  kind : Name := ""
  call : Name := ""
deriving DecidableEq, Repr, Inhabited

/-- One process. -/
structure ProcessSpec where
  name : Name := ""
  propositions : List Name := []
  rules : List (List StepSpec) := []
deriving DecidableEq, Repr, Inhabited

/-- One property; its formula may be missing. -/
structure PropertySpec where
  name : String := ""
  description : String := ""
  expect : Option Bool := none
  formula : Option Formula := none
deriving DecidableEq, Repr, Inhabited

/-- A model file. The list of processes may be missing altogether. -/
structure ModelFile where
  name : String := ""
  initial : Name := ""
  processes : Option (List ProcessSpec) := none
  properties : List PropertySpec := []
deriving DecidableEq, Repr, Inhabited

/-- The rule that a field violates. -/
inductive Requirement where
  | required
  | min
  | requiredWithout
  | excludedWith
  | oneOf
deriving DecidableEq, Repr

def Requirement.text : Requirement → String
  | .required => "required"
  | .min => "min"
  | .requiredWithout => "required_without"
  | .excludedWith => "excluded_with"
  | .oneOf => "oneof"

/-- A field that violates a rule. -/
structure Violation where
  /-- The record or list the field belongs to. -/
  path : String
  field : String
  rule : Requirement
deriving DecidableEq, Repr

def Violation.message (v : Violation) : String :=
  "Key: '" ++ v.path ++ v.field ++ "' Error:Field validation for '" ++ v.field ++
    "' failed on the '" ++ v.rule.text ++ "' tag"

def memberName (field : String) (i : Nat) : String :=
  field ++ "[" ++ toString i ++ "]"

def requireText (path field : String) (value : ByteString) : List Violation :=
  if value = "" then [⟨path, field, .required⟩] else []

/-- The violations of the members of a list, given those of each member. -/
def violationsOf {α : Type} (check : Nat → α → List Violation) (l : List α) : List Violation :=
  l.zipIdx.flatMap fun (a, i) => check i a

/-- The violations of a step: it has an action exactly if it has no call, and its
modality is one of the two words or missing. -/
def StepSpec.violations (path : String) (s : StepSpec) : List Violation :=
  (if s.call = "" then if s.action = "" then [⟨path, "Action", .requiredWithout⟩] else []
    else if s.action = "" then [] else [⟨path, "Action", .excludedWith⟩]) ++
  (if s.kind = "" ∨ s.kind = "may" ∨ s.kind = "must" then [] else [⟨path, "Kind", .oneOf⟩])

/-- The violations of rule `i` of a process: it has a step. -/
def ruleViolations (path : String) (i : Nat) (rule : List StepSpec) : List Violation :=
  let field := memberName "Rules" i
  if rule.isEmpty then [⟨path, field, .min⟩]
  else violationsOf (fun j (s : StepSpec) => s.violations (path ++ memberName field j ++ ".")) rule

def ProcessSpec.violations (path : String) (p : ProcessSpec) : List Violation :=
  requireText path "Name" p.name ++
  violationsOf (fun i (prop : Name) => requireText path (memberName "Propositions" i) prop)
    p.propositions ++
  violationsOf (ruleViolations path) p.rules

/-- The violations of a file, in the order of its fields. -/
def ModelFile.violations (f : ModelFile) : List Violation :=
  requireText "File." "Name" f.name ++
  requireText "File." "Initial" f.initial ++
  (match f.processes with
    | none => [⟨"File.", "Processes", .required⟩]
    | some [] => [⟨"File.", "Processes", .min⟩]
    | some ps => violationsOf (fun i (p : ProcessSpec) =>
        p.violations ("File." ++ memberName "Processes" i ++ ".")) ps) ++
  violationsOf (fun i (p : PropertySpec) =>
    requireText ("File." ++ memberName "Properties" i ++ ".") "Name" p.name) f.properties

/-- Why a file describes no model. -/
inductive FileError where
  | violations (vs : List Violation)
  | noFormula (property : String)
  | system (e : SystemError)
deriving DecidableEq, Repr

def FileError.message : FileError → String
  | .violations vs => "validating model: " ++ "\n".intercalate (vs.map Violation.message)
  | .noFormula p => "property " ++ p ++ " has no formula"
  | .system e => e.message

/-- The step a file describes: a call if a callee is named, an action otherwise. -/
def StepSpec.step? (s : StepSpec) : Option Step :=
  if s.call ≠ "" then some (.run s.call)
  else (Modality.ofText? s.kind).map (.act s.action)

/-- The steps of rule `i` of process `p`, numbered from `j`. -/
def stepsOf (p : Name) (i : Nat) : (j : Nat) → List StepSpec → Except SystemError Rule
  | _, [] => .ok []
  | j, s :: rest =>
    match s.step? with
    | none => .error { process := p, rule := i, step := j, cause := .unreadableKind s.kind }
    | some step => do return step :: (← stepsOf p i (j + 1) rest)

def rulesOf (p : Name) : (i : Nat) → List (List StepSpec) → Except SystemError (List Rule)
  | _, [] => .ok []
  | i, r :: rest => do return (← stepsOf p i 0 r) :: (← rulesOf p (i + 1) rest)

/-- Adds a process to a model that does not have it yet. -/
def Model.addSpec (m : Model) (p : ProcessSpec) : Except SystemError Model := do
  if (m.find? p.name).isSome then throw { process := p.name, cause := .duplicate }
  let rules ← rulesOf p.name 0 p.rules
  return m.add { name := p.name, props := p.propositions, rules }

namespace ModelFile

/-- The properties of a file, each with its formula. -/
def propertiesOf (ps : List PropertySpec) : Except FileError (List Property) :=
  ps.mapM fun p =>
    match p.formula with
    | some formula =>
      .ok { name := p.name, description := p.description, formula, expect := p.expect }
    | none => .error (.noFormula p.name)

/-- The model a file describes, with its properties. -/
def spec (f : ModelFile) : Except FileError Spec := do
  if !f.violations.isEmpty then throw (.violations f.violations)
  let properties ← propertiesOf f.properties
  let start : Model := { name := f.name, initial := f.initial }
  let model ← ((f.processes.getD []).foldlM Model.addSpec start).mapError .system
  model.system.validate.mapError .system
  return { description := "loaded from file", model, properties }

end ModelFile

end MuProc
