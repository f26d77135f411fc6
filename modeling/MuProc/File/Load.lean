import MuProc.File.Decode
import MuProc.File.Directory
import MuProc.Yaml.Tree
import MuProc.Catalog.Builtin

/-!
# Loading models

A model is a built-in one, or it is read from the text of a model file.
-/

namespace MuProc

/-- Why a text is no model file, or describes no model. -/
inductive LoadError where
  | syntactic (e : Yaml.SyntaxError)
  /-- The text has no document. -/
  | empty
  | types (es : List TypeError)
  | formula (e : DecodeError)
  | unusable (u : ModelFile.Unusable)
  | file (e : FileError)
deriving DecidableEq, Repr

def TypeError.messages (es : List TypeError) : String :=
  "yaml: unmarshal errors:\n  " ++ "\n  ".intercalate (es.map TypeError.message)

def LoadError.reason : LoadError → String
  | .syntactic e => e.message
  | .empty => "EOF"
  | .types es => TypeError.messages es
  | .formula e => e.message
  | .unusable u => u.message
  | .file e => e.message

def LoadError.message (e : LoadError) : String :=
  match e with
  | .file e => e.message
  | e => "decoding model: " ++ e.reason

/-- Whether there is no way to go on, not even with a report. -/
def LoadError.isFatal : LoadError → Bool
  | .unusable u => u.isFatal
  | _ => false

def LoadError.ofHalt : ModelFile.Halt → LoadError
  | .formula e => .formula e
  | .unusable u => .unusable u

/-- The model file that a document tree describes. -/
def ModelFile.ofNode (n : Yaml.Node) : Except LoadError ModelFile := do
  let (f, p) ← ((Decoder.file n).run {}).mapError LoadError.ofHalt
  if p.errors.isEmpty then return f.getD {} else throw (.types p.errors.toList)

def ModelFile.parse (text : String) : Except LoadError ModelFile := do
  match ← (Yaml.parse text).mapError LoadError.syntactic with
  | none => throw .empty
  | some n => ModelFile.ofNode n

def Spec.parse (text : String) : Except LoadError Spec := do
  let f ← ModelFile.parse text
  f.spec.mapError .file

/-- The formula in a text; there is none in an empty document or one that is null. -/
def Formula.parse (text : String) : Except LoadError (Option Formula) := do
  match ← (Yaml.parse text).mapError LoadError.syntactic with
  | none => return none
  | some n =>
    let (f, p) ← ((ModelFile.Decoder.formulaDocument n).run { strict := false }).mapError
      LoadError.ofHalt
    if p.errors.isEmpty then return f else throw (.types p.errors.toList)

/-- Why there is no model of a name. -/
inductive FindError where
  /-- There is no built-in model and no file of that name. -/
  | unreadable (path : String) (fault : ReadFault)
  | load (path : String) (e : LoadError)
deriving DecidableEq, Repr

def FindError.message : FindError → String
  | .unreadable path fault => "reading model " ++ path ++ ": " ++ fault.message path
  | .load path e => "loading model " ++ path ++ ": " ++ e.message

/-- Whether there is no way to go on, not even with a report. -/
def FindError.isFatal : FindError → Bool
  | .load _ e => e.isFatal
  | _ => false

/-- The built-in model of a name, or the one in the file of that name. -/
def Spec.find (name : String) (read : String → Except ReadFault String) : Except FindError Spec :=
  match Catalog.find? name with
  | some s => .ok s
  | none =>
    match read name with
    | .error fault => .error (.unreadable name fault)
    | .ok text => (Spec.parse text).mapError (.load name)

end MuProc
