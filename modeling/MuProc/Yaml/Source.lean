import MuProc.Yaml.Token

/-!
# Texts that are read piece by piece

A text is taken in pieces of 512 bytes, and a piece is only taken when one of its
characters is asked for. A character that is not allowed makes its whole piece
unreadable, so what stands far behind the first document does no harm.

A byte order mark in front of the text does not count. While the characters at hand
begin with a further one, the first character of every line is left out.
-/

namespace MuProc.Yaml

/-- Whether a character may occur in a document: tabs, line ends and characters that
can be shown. -/
def isAllowed (c : Char) : Bool :=
  let n := c.toNat
  n = 0x09 || n = 0x0a || n = 0x0d || (0x20 ≤ n && n ≤ 0x7e) || n = 0x85 ||
    (0xa0 ≤ n && n ≤ 0xfffd) || 0x10000 ≤ n

def orderMark : Char := '\ufeff'

/-- The text still to be read. -/
structure Source where
  rest : List Char
  mark : Mark := {}
  /-- How many characters are at hand. -/
  ready : Nat := 0
  /-- The lengths of the pieces that were not taken yet. -/
  pieces : List Nat := []
  /-- Whether an unreadable piece follows them. -/
  blocked : Bool := false
  /-- Whether the characters at hand began with a byte order mark. -/
  marked : Bool := false
  /-- How many lines ended since something else than a blank was read. -/
  lines : Nat := 0
  /-- The length of the whole text, which bounds the rounds of every loop. -/
  length : Nat
deriving Repr

abbrev Scan := StateT Source (Except SyntaxError)

namespace Source

def pieceSize : Nat := 512

/-- Cuts a text into pieces: `used` bytes and `count` characters are in the current
one. The answer tells whether an unreadable piece follows. -/
def cut : (used count : Nat) → List Char → List Nat × Bool
  | _, count, [] => (if count = 0 then [] else [count], false)
  | used, count, c :: rest =>
    if used + c.utf8Size ≤ pieceSize then
      if isAllowed c then cut (used + c.utf8Size) (count + 1) rest else ([], true)
    else
      let (pieces, blocked) := if isAllowed c then cut c.utf8Size 1 rest else ([], true)
      (count :: pieces, blocked)

def ofText (text : String) : Source :=
  let start cs used :=
    let (pieces, blocked) := cut used 0 cs
    { rest := cs, pieces, blocked, length := cs.length : Source }
  match text.toList with
  | c :: rest => if c = orderMark then start rest c.utf8Size else start (c :: rest) 0
  | [] => start [] 0

/-- Takes pieces until there are `n` characters at hand. The end of the text counts
as one more character. -/
def fill (s : Source) (n : Nat) : List Nat → Nat → Except SyntaxError Source
  | [], ready =>
    if s.blocked then .error ⟨s.mark, "control characters are not allowed"⟩
    else .ok { s with ready := ready + 1, pieces := [], marked := s.rest.head? = some orderMark }
  | k :: pieces, ready =>
    if n ≤ ready + k then
      .ok { s with ready := ready + k, pieces, marked := s.rest.head? = some orderMark }
    else fill s n pieces (ready + k)

def skip (s : Source) : Source :=
  { s with
    rest := s.rest.tail
    mark := s.mark.forward 1
    ready := s.ready - 1
    lines := if s.rest.head?.any isBlank then s.lines else 0 }

def skipLine (s : Source) (n : Nat) : Source :=
  { s with
    rest := s.rest.drop n
    mark := s.mark.nextLine n
    ready := s.ready - n
    lines := s.lines + 1 }

end Source

namespace Scan

def fail {α : Type} (reason : String) : Scan α := do
  throw ⟨(← get).mark, reason⟩

def need (n : Nat) : Scan Unit := do
  let s ← get
  if s.ready < n then set (← s.fill n s.pieces s.ready)

def next? : Scan (Option Char) := do
  return (← get).rest.head?

def skip : Scan Unit :=
  modify Source.skip

def skips : Nat → Scan Unit
  | 0 => return
  | n + 1 => do
    skip
    skips n

/-- Reads over a line end. The answer is the character it stands for: all but two
kinds of line ends count as the same one. -/
def lineEnd : Scan Char := do
  need 2
  match (← get).rest with
  | '\r' :: '\n' :: _ =>
    modify (·.skipLine 2)
    return '\n'
  | c :: _ =>
    modify (·.skipLine 1)
    return if c = '\u2028' ∨ c = '\u2029' then c else '\n'
  | [] => return '\n'

/-- Reads characters with a property; the characters before are in `acc`, last one
first. -/
def takeLoop (p : Char → Bool) : (fuel : Nat) → (acc : List Char) → Scan (List Char)
  | 0, acc => return acc.reverse
  | fuel + 1, acc => do
    match ← next? with
    | some c =>
      if p c then
        skip
        need 1
        takeLoop p fuel (c :: acc)
      else return acc.reverse
    | none => return acc.reverse

/-- Reads as many characters with a property as there are. -/
def takeWhile (p : Char → Bool) : Scan (List Char) := do
  need 1
  takeLoop p (← get).length []

def skipToLineEnd : Scan Unit := do
  let _ ← takeWhile (!isBreak ·)

end Scan

end MuProc.Yaml
