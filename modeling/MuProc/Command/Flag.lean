import MuProc.Text.Integer
import MuProc.Text.Quoted

/-!
# Flags

The flags of the command line and the settings they change. A switch is on when it is
named, and may be given a truth value behind an equals sign; a number is given behind
an equals sign or as the next argument. A later flag overrides an earlier one.
-/

namespace MuProc.Command

/-- The flags. -/
inductive Flag where
  | debug
  | nodeSize
  | cacheSize
  | checkInvariants
  | metrics
  | fence
  | noDescriptions
  | help
deriving DecidableEq, Repr

namespace Flag

def name : Flag → String
  | .debug => "debug"
  | .nodeSize => "nodesize"
  | .cacheSize => "cachesize"
  | .checkInvariants => "check-invariants"
  | .metrics => "metrics"
  | .fence => "fence"
  | .noDescriptions => "no-descriptions"
  | .help => "help"

def summary : Flag → String
  | .debug => "enable debug logging"
  | .nodeSize => "initial node table size of the decision diagram"
  | .cacheSize => "initial cache size of the decision diagram"
  | .checkInvariants => "verify that every solver update is monotone"
  | .metrics => "print solver metrics in Prometheus text format after checking"
  | .fence => "wrap the diagram in a markdown code fence"
  | .noDescriptions => "disable completion descriptions"
  | .help => "show what a command does"

/-- Whether a flag is a switch, which needs no value. -/
def isSwitch : Flag → Bool
  | .nodeSize | .cacheSize => false
  | _ => true

def title : Flag → String
  | .help => "-h, --help"
  | f => "--" ++ f.name

def shared : List Flag :=
  [.debug, .nodeSize, .cacheSize, .checkInvariants, .metrics]

/-- The flag of a name among those that are known. -/
def find? (known : List Flag) (name : String) : Option Flag :=
  known.find? (·.name = name)

end Flag

/-- What the flags say. -/
structure Settings where
  debug : Bool := false
  nodeSize : Int := 10000
  cacheSize : Int := 5000
  checkInvariants : Bool := false
  metrics : Bool := false
  fence : Bool := false
  noDescriptions : Bool := false
  help : Bool := false
deriving DecidableEq, Repr, Inhabited

/-- Why a text is no value of a flag. -/
inductive ValueError where
  | number (fault : Text.IntegerFault) (text : String)
  | truth (text : String)
deriving DecidableEq, Repr

def ValueError.message : ValueError → String
  | .number .malformed s => "strconv.ParseInt: parsing " ++ Text.quoted s ++ ": invalid syntax"
  | .number .outOfRange s => "strconv.ParseInt: parsing " ++ Text.quoted s ++ ": value out of range"
  | .truth s => "strconv.ParseBool: parsing " ++ Text.quoted s ++ ": invalid syntax"

def numberValue (s : String) : Except ValueError Int :=
  (Text.integer s.toList).mapError (.number · s)

def truthValue (s : String) : Except ValueError Bool :=
  if s ∈ ["1", "t", "T", "true", "TRUE", "True"] then .ok true
  else if s ∈ ["0", "f", "F", "false", "FALSE", "False"] then .ok false
  else .error (.truth s)

/-- Sets a flag to the value that a text stands for. -/
def Settings.set (s : Settings) (flag : Flag) (value : String) : Except ValueError Settings :=
  match flag with
  | .debug => do return { s with debug := ← truthValue value }
  | .nodeSize => do return { s with nodeSize := ← numberValue value }
  | .cacheSize => do return { s with cacheSize := ← numberValue value }
  | .checkInvariants => do return { s with checkInvariants := ← truthValue value }
  | .metrics => do return { s with metrics := ← truthValue value }
  | .fence => do return { s with fence := ← truthValue value }
  | .noDescriptions => do return { s with noDescriptions := ← truthValue value }
  | .help => do return { s with help := ← truthValue value }

end MuProc.Command
