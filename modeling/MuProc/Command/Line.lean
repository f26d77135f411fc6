import MuProc.Command.Flag
import MuProc.Command.Suggestion

/-!
# Command lines

A command line names a command, its flags in any order and its arguments. Flags may
stand in front of the command as well; `--` ends them.
-/

namespace MuProc.Command

def program : String :=
  "modalmu"

/-- The shells that commands can be completed in. -/
inductive Shell where
  | bash
  | zsh
  | fish
  | powershell
deriving DecidableEq, Repr

namespace Shell

def name : Shell → String
  | .bash => "bash"
  | .zsh => "zsh"
  | .fish => "fish"
  | .powershell => "powershell"

def find? (name : String) : Option Shell :=
  [bash, zsh, fish, powershell].find? (·.name = name)

end Shell

/-- What can be asked for. -/
inductive Verb where
  | check
  | dot
  | mermaid
  | models
  | help
  /-- The completion script of a shell, or the list of the shells. -/
  | completion (shell : Option Shell)
  /-- The ways to go on with a command line, which the completion scripts ask for. -/
  | continuations
deriving DecidableEq, Repr

namespace Verb

def name : Verb → String
  | .check => "check"
  | .dot => "dot"
  | .mermaid => "mermaid"
  | .models => "models"
  | .help => "help"
  | .completion none => "completion"
  | .completion (some shell) => shell.name
  | .continuations => "__complete"

/-- The words that lead to a command, from the program on. -/
def path : Verb → String
  | .completion (some shell) => program ++ " completion " ++ shell.name
  | v => program ++ " " ++ v.name

def all : List Verb :=
  [.check, .dot, .mermaid, .models, .help, .completion none]

def find? (name : String) : Option Verb :=
  if name = "__complete" ∨ name = "__completeNoDesc" then some .continuations
  else all.find? (·.name = name)

def summary : Verb → String
  | .check => "Check every property of a model"
  | .dot => "Print the expanded state graph of a model in Graphviz DOT"
  | .mermaid => "Print the expanded state graph of a model as a Mermaid state diagram"
  | .models => "List the built-in models"
  | .help => "Help about any command"
  | .completion none => "Generate the autocompletion script for the specified shell"
  | .completion (some shell) => "Generate the autocompletion script for " ++ shell.name
  | .continuations => "Request shell completion choices for the specified command-line"

def flags : Verb → List Flag
  | .mermaid => Flag.shared ++ [.fence, .help]
  | .completion (some _) => Flag.shared ++ [.noDescriptions, .help]
  | _ => Flag.shared ++ [.help]

/-- The commands that a mistyped name may have meant. -/
def suggestions (typed : String) : List Verb :=
  all.filter fun v => v ≠ .help ∧ isClose typed v.name

end Verb

/-- What is wrong with a command line. -/
inductive UsageError where
  | badFlag (arg : String)
  | unknownFlag (name : String)
  /-- The first of the letters behind a single dash is unknown. -/
  | unknownLetter (first : Char) (letters : String)
  | missingValue (arg : String)
  | badValue (flag : Flag) (value : String) (cause : ValueError)
  | argumentCount (found : Nat)
  | noArguments
  | unknownCommand (name : String)
  | unexpectedArgument (verb : Verb) (arg : String)
deriving DecidableEq, Repr

/-- The character whose code is the first byte of a character. -/
def leadByte (c : Char) : Char :=
  match (String.singleton c).toUTF8.toList with
  | b :: _ => Char.ofNat b.toNat
  | [] => c

/-- The report of what is wrong with a command line. -/
def UsageError.message : UsageError → String
  | .badFlag arg => "bad flag syntax: " ++ arg
  | .unknownFlag name => "unknown flag: --" ++ name
  | .unknownLetter first letters =>
    "unknown shorthand flag: " ++ Text.quotedChar (leadByte first) ++ " in -" ++ letters
  | .missingValue arg => "flag needs an argument: " ++ arg
  | .badValue flag value cause =>
    "invalid argument " ++ Text.quoted value ++ " for " ++ Text.quoted flag.title ++ " flag: " ++
      cause.message
  | .argumentCount n => "accepts 1 arg(s), received " ++ toString n
  | .noArguments => "requires at least 1 arg(s), only received 0"
  | .unknownCommand name =>
    "unknown command " ++ Text.quoted name ++ " for " ++ Text.quoted program ++
      question ((Verb.suggestions name).map Verb.name)
  | .unexpectedArgument verb arg =>
    "unknown command " ++ Text.quoted arg ++ " for " ++ Text.quoted verb.path

/-! ### The command -/

/-- Whether an argument is taken for a flag with its value in the next argument while the
command is looked for. That holds for all flags without an equals sign, except the
switches that every command knows. -/
def takesNext (arg : String) : Bool :=
  match arg.toList with
  | '-' :: '-' :: name =>
    !name.contains '=' && !((Flag.find? Flag.shared (String.ofList name)).any Flag.isSwitch)
  | ['-', c] => c ≠ '=' && c.utf8Size = 1
  | _ => false

/-- The first argument that is neither a flag nor the value of one. -/
def firstWord? : List String → Option String
  | [] => none
  | arg :: rest =>
    if arg = "--" then none
    else if takesNext arg then
      match rest with
      | _ :: next :: rest => firstWord? (next :: rest)
      | _ => none
    else if arg ≠ "" ∧ arg.toList.head? ≠ some '-' then some arg
    else firstWord? rest

/-- The arguments without the first one that is a given word, values of flags apart. -/
def withoutWord (word : String) : List String → List String
  | [] => []
  | arg :: rest =>
    if arg = "--" then arg :: rest
    else if takesNext arg then
      match rest with
      | value :: rest => arg :: value :: withoutWord word rest
      | [] => [arg]
    else if arg = word then rest
    else arg :: withoutWord word rest

/-! ### The flags -/

/-- Sets a flag, with the error that the command line reports. -/
def Settings.put (s : Settings) (flag : Flag) (value : String) : Except UsageError Settings :=
  (s.set flag value).mapError (.badValue flag value)

/-- Reads the letters behind a single dash; the only one is `h`, for help. Letters that
begin with `test.` belong to whoever tests the program, and say nothing to it. -/
def readLetters (s : Settings) : List Char → Except UsageError Settings
  | [] => .ok s
  | 't' :: 'e' :: 's' :: 't' :: '.' :: _ => .ok s
  | 'h' :: '=' :: c :: cs => s.put .help (String.ofList (c :: cs))
  | 'h' :: cs => readLetters { s with help := true } cs
  | c :: cs => .error (.unknownLetter c (String.ofList (c :: cs)))

/-- Reads the flags among the arguments; the others are left. -/
def readFlags (known : List Flag) (s : Settings) :
    List String → Except UsageError (Settings × List String)
  | [] => .ok (s, [])
  | arg :: rest =>
    match arg.toList with
    | ['-', '-'] => .ok (s, rest)
    | '-' :: '-' :: '-' :: _ | '-' :: '-' :: '=' :: _ => .error (.badFlag arg)
    | '-' :: '-' :: text =>
      let name := String.ofList (text.takeWhile (· ≠ '='))
      match Flag.find? known name, text.dropWhile (· ≠ '=') with
      | none, _ => .error (.unknownFlag name)
      | some flag, _ :: value => do readFlags known (← s.put flag (String.ofList value)) rest
      | some flag, [] =>
        if flag.isSwitch then do readFlags known (← s.put flag "true") rest
        else match rest with
          | value :: rest => do readFlags known (← s.put flag value) rest
          | [] => .error (.missingValue arg)
    | '-' :: c :: cs => do readFlags known (← readLetters s (c :: cs)) rest
    | _ => do
      let (s, others) ← readFlags known s rest
      return (s, arg :: others)

/-! ### The request -/

/-- What a command line asks for. -/
inductive Request where
  | usage
  | check (model : String) (settings : Settings)
  | dot (model : String)
  | mermaid (model : String) (fence : Bool)
  | models
deriving DecidableEq, Repr

def oneArgument : List String → Except UsageError String
  | [arg] => .ok arg
  | args => .error (.argumentCount args.length)

/-- The request of a command with its settings and arguments. -/
def Verb.request (verb : Verb) (s : Settings) (args : List String) : Except UsageError Request :=
  if s.help then .ok .usage
  else match verb with
    | .check => do return .check (← oneArgument args) s
    | .dot => do return .dot (← oneArgument args)
    | .mermaid => do return .mermaid (← oneArgument args) s.fence
    | .models =>
      match args with
      | [] => .ok .models
      | arg :: _ => .error (.unexpectedArgument verb arg)
    | .completion (some _) =>
      match args with
      | [] => .ok .usage
      | arg :: _ => .error (.unexpectedArgument verb arg)
    | .help | .completion none => .ok .usage
    | .continuations => if args.isEmpty then .error .noArguments else .ok .usage

/-- The command for a shell, if the arguments of `completion` name one, and what is left of
them. -/
def Verb.withShell (verb : Verb) (args : List String) : Verb × List String :=
  match verb, firstWord? args with
  | .completion none, some word =>
    match Shell.find? word with
    | some shell => (.completion (some shell), withoutWord word args)
    | none => (verb, args)
  | _, _ => (verb, args)

/-- Reads a command line. Without a command, only the flags are checked. -/
def Request.ofArguments (args : List String) : Except UsageError Request :=
  match firstWord? args with
  | none => do
    let _ ← readFlags (Flag.shared ++ [.help]) {} args
    return .usage
  | some word =>
    match Verb.find? word with
    | none => .error (.unknownCommand word)
    | some .continuations => Verb.continuations.request {} (withoutWord word args)
    | some verb => do
      let (verb, args) := verb.withShell (withoutWord word args)
      let (s, rest) ← readFlags verb.flags {} args
      verb.request s rest

end MuProc.Command
