import MuProc.Process.System

/-!
# Valid process systems

A system is valid when its processes have distinct non-empty names, the initial
process is one of them, every rule has a step, every step is either an action that
must or may happen or a call of a defined process, and recursion is guarded: no
process can call itself through first steps only. The first violation in this
order is reported.
-/

namespace MuProc

/-- What can be wrong with a process system. -/
inductive Invalid where
  | emptyName
  | duplicate
  | noInitial
  | undefinedInitial
  | emptyRule
  | actionAndCall
  | emptyStep
  | undefinedCall (callee : Name)
  | unknownKind (kind : Modality)
  | unguarded (process : Name)
  | unexpanded (callee : Name)
  | unreadableKind (text : Name)
deriving DecidableEq, Repr

def Invalid.reason : Invalid → String
  | .emptyName => "process with an empty name"
  | .duplicate => "defined more than once"
  | .noInitial => "no initial process"
  | .undefinedInitial => "initial process is not defined"
  | .emptyRule => "empty rule"
  | .actionAndCall => "step has both an action and a call"
  | .emptyStep => "step has neither an action nor a call"
  | .undefinedCall q => "call to undefined process " ++ q.text
  | .unknownKind k => "unknown step kind " ++ k.text
  | .unguarded p =>
    "unguarded recursion: " ++ p.text ++ " can call itself before taking any action"
  | .unexpanded q => "call to unexpanded process " ++ q.text
  | .unreadableKind s => Modality.unknownText s

/-- A fault of a process system and where it lies. -/
structure SystemError where
  process : Name := ""
  /-- The rule; a negative number stands for none. -/
  rule : Int := -1
  /-- The step; a negative number stands for none. -/
  step : Int := -1
  cause : Invalid
deriving DecidableEq, Repr

/-- The report of a fault: what is known about its place comes first. -/
def systemMessage (process : String) (rule step : Int) (reason : String) : String :=
  let place := (if process = "" then [] else ["process " ++ process])
    ++ (if rule < 0 then [] else ["rule " ++ toString rule])
    ++ (if step < 0 then [] else ["step " ++ toString step])
  if place.isEmpty then "invalid process system: " ++ reason
  else "invalid process system at " ++ ", ".intercalate place ++ ": " ++ reason

def SystemError.message (e : SystemError) : String :=
  systemMessage e.process.text e.rule e.step e.cause.reason

namespace ProcessSystem

/-- Names are non-empty and distinct. The names before the list are in `seen`. -/
def checkNames : (seen : List Name) → List Name → Except SystemError Unit
  | _, [] => .ok ()
  | seen, p :: ps =>
    if p = "" then .error { cause := .emptyName }
    else if p ∈ seen then .error { process := p, cause := .duplicate }
    else checkNames (p :: seen) ps

def checkInitial (sys : ProcessSystem) : Except SystemError Unit :=
  if sys.initial = "" then .error { cause := .noInitial }
  else if sys.initial ∈ sys.processes then .ok ()
  else .error { process := sys.initial, cause := .undefinedInitial }

def stepFault (defined : List Name) (s : Step) : Option Invalid :=
  if s.action ≠ "" ∧ s.call ≠ "" then some .actionAndCall
  else if s.action = "" ∧ s.call = "" then some .emptyStep
  else if s.call ≠ "" then if s.call ∈ defined then none else some (.undefinedCall s.call)
  else match s.kind with
    | .other n => some (.unknownKind (.other n))
    | _ => none

/-- The steps of rule `i` of process `p`, numbered from `j`. -/
def checkSteps (defined : List Name) (p : Name) (i : Nat) :
    (j : Nat) → List Step → Except SystemError Unit
  | _, [] => .ok ()
  | j, s :: rest =>
    match stepFault defined s with
    | some cause => .error { process := p, rule := i, step := j, cause }
    | none => checkSteps defined p i (j + 1) rest

def checkRules (defined : List Name) (p : Name) :
    (i : Nat) → List Rule → Except SystemError Unit
  | _, [] => .ok ()
  | i, r :: rest =>
    if r.isEmpty then .error { process := p, rule := i, cause := .emptyRule }
    else do
      checkSteps defined p i 0 r
      checkRules defined p (i + 1) rest

def firstCall? (r : Rule) : Option Name :=
  match r with
  | s :: _ => if s.isCall then some s.call else none
  | [] => none

/-- Follows first-step calls from `p`. The processes in `active` lie on the way to
`p`, those in `done` are known to be guarded; the answer is the new list of
guarded processes. Every round makes one more process active, so as many rounds
as there are processes are enough. -/
def visitFirstCalls (sys : ProcessSystem) :
    (fuel : Nat) → (active : List Name) → (done : List Name) → (p : Name) →
      Except SystemError (List Name)
  | 0, _, done, _ => .ok done
  | fuel + 1, active, done, p =>
    if p ∈ active then .error { process := p, cause := .unguarded p }
    else if p ∈ done then .ok done
    else do
      let done ← (sys.rules p).foldlM (fun done r =>
        match firstCall? r with
        | some q => visitFirstCalls sys fuel (p :: active) done q
        | none => .ok done) done
      return p :: done

/-- No process reaches itself through first-step calls. -/
def checkGuarded (sys : ProcessSystem) : Except SystemError Unit := do
  let _ ← sys.processes.foldlM (visitFirstCalls sys (sys.processes.length + 1) []) []
  return ()

/-- Accepts the valid systems and reports the first fault of the others. -/
def validate (sys : ProcessSystem) : Except SystemError Unit := do
  checkNames [] sys.processes
  sys.checkInitial
  sys.processes.forM fun p => checkRules sys.processes p 0 (sys.rules p)
  sys.checkGuarded

end ProcessSystem

end MuProc
