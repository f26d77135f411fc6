import MuProc.Text.ByteString
import MuProc.Text.Quoted

/-!
# Steps and rules

A rule is a sequence of steps. A step is an action, which an implementation must
or may offer, or the call of a process that runs to its end before the rule goes
on. A step is a call when it names a callee; whether it has exactly one of an
action and a callee is a question of validity, not of form.
-/

namespace MuProc

/-- Whether an action is guaranteed or only possible. Codes other than these two
can be written down and are rejected by validation. -/
inductive Modality where
  | must
  | may
  | other (code : Int)
deriving DecidableEq, Repr, Inhabited

namespace Modality

def ofCode (n : Int) : Modality :=
  if n = 0 then .must else if n = 1 then .may else .other n

def text : Modality → String
  | .must => "must"
  | .may => "may"
  | .other n => "Kind(" ++ toString n ++ ")"

/-- Reads a modality in any letter case; an absent one is `must`. Only ASCII
letters have a lower-case form that occurs in the two words. -/
def ofText? (s : Name) : Option Modality :=
  let w := s.text.map Char.toLower
  if w = "" ∨ w = "must" then some .must
  else if w = "may" then some .may
  else none

def unknownText (s : Name) : String :=
  "unknown step kind " ++ Text.quoted s

end Modality

/-- One step of a rule. -/
structure Step where
  action : Name := ""
  kind : Modality := .must
  /-- The called process; empty for an action. -/
  call : Name := ""
deriving DecidableEq, Repr, Inhabited

namespace Step

def act (action : Name) (kind : Modality) : Step :=
  { action, kind }

def run (process : Name) : Step :=
  { call := process }

def isCall (s : Step) : Bool :=
  s.call ≠ ""

/-- Whether the step is an action a modality with label `a` speaks about. -/
def hasAction (s : Step) (a : Name) : Bool :=
  !s.isCall && (a = "" || a = s.action)

/-- The written form: an action that is only possible carries a question mark. -/
def text (s : Step) : ByteString :=
  if s.isCall then s.call
  else if s.kind = .may then s.action ++ "?"
  else s.action

end Step

abbrev Rule := List Step

def Rule.text (r : Rule) : ByteString :=
  .intercalate " " (r.map Step.text)

end MuProc
