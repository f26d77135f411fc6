import MuProc.Formula.Ctl
import MuProc.Yaml.Node

/-!
# Formulas in documents

A formula is written as a tree of mappings with one key, the operator:

* `true`, `false` and other scalars, which are propositions;
* `{atomic: p}`, `{var: X}`, `{not: f}`;
* `{and: [f, g, ...]}`, `{or: [f, g, ...]}`, grouped to the left;
* `{box: {action: a, of: f}}`, `{diamond: {action: a, of: f}}`, where the action
  may be missing;
* `{mu: {var: X, of: f}}`, `{nu: {var: X, of: f}}`;
* the path operators `ax ex af ef ag eg` with one operand and
  `implies au eu aw ew` with a list of two.

An error names the place of the node at fault.
-/

namespace MuProc

/-- What is wrong with a node that should be a formula. -/
inductive Misread where
  | emptyDocument
  | operatorCount (found : Nat)
  | unexpected (kind : String)
  | emptyFormula
  | unknownOperator (name : ByteString)
  | expectedName
  | expectedList
  | operandCount (found : Nat)
  | expectedMapping (label : String)
  | notScalar (label : String)
  | unexpectedKey (name : ByteString)
  | missing (label : String)
deriving DecidableEq, Repr

def Misread.reason : Misread → String
  | .emptyDocument => "empty document"
  | .operatorCount n =>
    "a formula must have exactly one operator key, found " ++ toString n
  | .unexpected k => "unexpected " ++ k
  | .emptyFormula => "empty formula"
  | .unknownOperator s => "unknown operator " ++ Text.quoted s
  | .expectedName => "expected a name"
  | .expectedList => "expected a list of formulas"
  | .operandCount n => "wrong number of operands: " ++ toString n
  | .expectedMapping l => "expected a mapping with " ++ Text.quoted l ++ " and \"of\""
  | .notScalar l => l ++ " must be a scalar"
  | .unexpectedKey s => "unexpected key " ++ Text.quoted s
  | .missing l => "missing " ++ Text.quoted l

/-- Why a node is no formula. -/
inductive DecodeError where
  | misread (line column : Int) (cause : Misread)
  /-- An alias stands for nothing. -/
  | danglingAlias
deriving DecidableEq, Repr

def DecodeError.message : DecodeError → String
  | .misread l c cause => "line " ++ toString l ++ ", column " ++ toString c ++ ": " ++ cause.reason
  | .danglingAlias => "alias without a target"

namespace Formula

open Yaml (Node NodeKind)

def misread {α : Type} (n : Node) (cause : Misread) : Except DecodeError α :=
  .error (.misread n.line n.column cause)

def kindName : NodeKind → String
  | .sequence => "sequence"
  | .mapping => "mapping"
  | .scalar => "scalar"
  | _ => "node"

/-- A scalar is a constant if it is an unquoted `true` or `false`, and a proposition
otherwise. -/
def ofScalar (n : Node) : Except DecodeError Formula :=
  if n.value = "true" ∧ (n.tag = "!!bool" ∨ n.tag = "") then .ok .tt
  else if n.value = "false" ∧ (n.tag = "!!bool" ∨ n.tag = "") then .ok .ff
  else if n.value = "" then misread n .emptyFormula
  else .ok (.atom n.value)

def nameOf (n : Node) : Except DecodeError Name :=
  if n.kind = .scalar ∧ n.value ≠ "" then .ok n.value else misread n .expectedName

/-- What is written below an operator. -/
inductive Shape where
  /-- A name. -/
  | name (make : Name → Formula)
  /-- One operand. -/
  | unary (make : Formula → Formula)
  /-- A list of exactly two operands. -/
  | binary (make : Formula → Formula → Formula)
  /-- A list of two operands or more, grouped to the left. -/
  | fold (make : Formula → Formula → Formula)
  /-- A labelled name and an operand. -/
  | scoped (label : String) (required : Bool) (make : Name → Formula → Formula)

def shape? : String → Option Shape
  | "atomic" => some (.name .atom)
  | "var" => some (.name .var)
  | "not" => some (.unary .not)
  | "and" => some (.fold .and)
  | "or" => some (.fold .or)
  | "box" => some (.scoped "action" false .box)
  | "diamond" => some (.scoped "action" false .dia)
  | "mu" => some (.scoped "var" true .mu)
  | "nu" => some (.scoped "var" true .nu)
  | "ax" => some (.unary .ax)
  | "ex" => some (.unary .ex)
  | "af" => some (.unary .af)
  | "ef" => some (.unary .ef)
  | "ag" => some (.unary .ag)
  | "eg" => some (.unary .eg)
  | "implies" => some (.binary .implies)
  | "au" => some (.binary .au)
  | "eu" => some (.binary .eu)
  | "aw" => some (.binary .aw)
  | "ew" => some (.binary .ew)
  | _ => none

/-- The parts of a labelled operand read so far; a repeated key overrides. -/
structure Scoped where
  label : Option Name := none
  body : Option Formula := none

/-- The operator applied to the parts of its labelled operand. -/
def Scoped.finish (s : Scoped) (n : Node) (label : String) (required : Bool)
    (make : Name → Formula → Formula) : Except DecodeError Formula :=
  match s.body with
  | none => misread n (.missing "of")
  | some f =>
    let name := s.label.getD ""
    if required ∧ name = "" then misread n (.missing label) else .ok (make name f)

/-- The formula of an operator and what is written below it: `whole` is the formula
of that node, `items` are the formulas of its children, and `entries` the parts of
it as a labelled operand. Only what the operator asks for is read. -/
def ofOperator (key arg : Node) (whole : Unit → Except DecodeError Formula)
    (items : Unit → Except DecodeError (List Formula))
    (entries : String → Except DecodeError Scoped) : Except DecodeError Formula :=
  let count := arg.content.length
  match shape? key.value.text with
  | none => misread key (.unknownOperator key.value)
  | some (.name make) => do return make (← nameOf arg)
  | some (.unary make) => do return make (← whole ())
  | some (.binary make) => do
    if arg.kind ≠ .sequence then misread arg .expectedList
    else match ← (if count = 2 then items () else misread arg (.operandCount count)) with
      | [f, g] => return make f g
      | _ => misread arg (.operandCount count)
  | some (.fold make) => do
    if arg.kind ≠ .sequence then misread arg .expectedList
    else match ← (if 2 ≤ count then items () else misread arg (.operandCount count)) with
      | f :: fs => return fs.foldl make f
      | [] => misread arg (.operandCount count)
  | some (.scoped label required make) => do
    if arg.kind ≠ .mapping then misread arg (.expectedMapping label)
    else (← entries label).finish arg label required make

mutual

def ofNode : Node → Except DecodeError Formula
  | .mk .document _ _ _ _ [n] _ => ofNode n
  | .mk .document t v l c ns a => misread (.mk .document t v l c ns a) .emptyDocument
  | .mk .alias _ _ _ _ _ (some n) => ofNode n
  | .mk .alias _ _ _ _ _ none => .error .danglingAlias
  | .mk .scalar t v l c ns a => ofScalar (.mk .scalar t v l c ns a)
  | .mk .mapping _ _ _ _ [key, .mk k t v l c ns a] _ =>
    ofOperator key (.mk k t v l c ns a) (fun _ => ofNode (.mk k t v l c ns a))
      (fun _ => ofNodes ns) (fun label => ofEntries label {} ns)
  | .mk .mapping t v l c ns a =>
    misread (.mk .mapping t v l c ns a) (.operatorCount (ns.length / 2))
  | .mk k t v l c ns a => misread (.mk k t v l c ns a) (.unexpected (kindName k))
termination_by structural n => n

def ofNodes : List Node → Except DecodeError (List Formula)
  | [] => .ok []
  | n :: ns => do
    let f ← ofNode n
    let fs ← ofNodes ns
    return f :: fs
termination_by structural ns => ns

/-- The parts of a labelled operand: keys and values in turn. -/
def ofEntries (label : String) (s : Scoped) : List Node → Except DecodeError Scoped
  | key :: value :: rest => do
    let s ← (if key.value = label then
        if value.kind = .scalar then .ok { s with label := some value.value }
        else misread value (.notScalar label)
      else if key.value = "of" then do return { s with body := some (← ofNode value) }
      else misread key (.unexpectedKey key.value))
    ofEntries label s rest
  | _ => .ok s
termination_by structural ns => ns

end

end Formula

end MuProc
