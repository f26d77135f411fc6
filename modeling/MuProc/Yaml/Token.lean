/-!
# Tokens

The lexical units of a document with their places. Block structure, which the text
expresses by indentation, is explicit in the tokens: a block collection has a
start and an end token, and every key of a mapping is announced by a key token.
-/

namespace MuProc.Yaml

/-- A place in a text. All numbers count from zero. -/
structure Mark where
  line : Nat := 0
  column : Nat := 0
  index : Nat := 0
deriving DecidableEq, Repr, Inhabited

/-- The place some characters further on the same line. -/
def Mark.forward (m : Mark) (n : Nat) : Mark :=
  { m with column := m.column + n, index := m.index + n }

/-- The place behind a line end of some characters. -/
def Mark.nextLine (m : Mark) (n : Nat) : Mark :=
  { line := m.line + 1, column := 0, index := m.index + n }

/-- Why a text is no document. -/
structure SyntaxError where
  mark : Mark
  reason : String
deriving DecidableEq, Repr

def SyntaxError.message (e : SyntaxError) : String :=
  "yaml: line " ++ toString (e.mark.line + 1) ++ ": " ++ e.reason

def isBreak (c : Char) : Bool :=
  c = '\n' || c = '\r' || c = '\u0085' || c = '\u2028' || c = '\u2029'

/-- Whether a character separates words within a line. -/
def isBlank (c : Char) : Bool :=
  c = ' ' || c = '\t'

def isNameChar (c : Char) : Bool :=
  c.isAlphanum || c = '_' || c = '-'

/-- Whether a text is at its end or goes on with a separator. -/
def atSeparator : List Char → Bool
  | [] => true
  | c :: _ => isBlank c || isBreak c

/-- Whether a line starts with `---` or `...`, which stands between documents. -/
def documentMarker? : List Char → Option Char
  | '-' :: '-' :: '-' :: rest => if atSeparator rest then some '-' else none
  | '.' :: '.' :: '.' :: rest => if atSeparator rest then some '.' else none
  | _ => none

def hexValue? (c : Char) : Option Nat :=
  if '0' ≤ c ∧ c ≤ '9' then some (c.toNat - 48)
  else if 'a' ≤ c ∧ c ≤ 'f' then some (c.toNat - 87)
  else if 'A' ≤ c ∧ c ≤ 'F' then some (c.toNat - 55)
  else none

/-- What a token is. -/
inductive TokenKind where
  | streamStart
  | streamEnd
  /-- The version of the language that a document asks for. -/
  | version (major minor : Nat)
  /-- An abbreviation for the beginning of tags. -/
  | tagHandle (handle tagStart : String)
  | documentStart
  | documentEnd
  | blockSequenceStart
  | blockMappingStart
  | blockEnd
  | flowSequenceStart
  | flowSequenceEnd
  | flowMappingStart
  | flowMappingEnd
  | blockEntry
  | flowEntry
  | key
  | value
  | alias (name : String)
  | anchor (name : String)
  | tag (handle suffix : String)
  | scalar (text : String) (plain : Bool)
deriving DecidableEq, Repr, Inhabited

/-- A token with its place. -/
structure Token where
  kind : TokenKind
  start : Mark
  stop : Mark
deriving DecidableEq, Repr, Inhabited

end MuProc.Yaml
