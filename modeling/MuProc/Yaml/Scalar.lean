import MuProc.Yaml.Source

/-!
# Scalars

The texts of plain, single-quoted and double-quoted scalars. A scalar may go over
several lines: a single line end inside it stands for a space, and of several in a
row the first is dropped.
-/

namespace MuProc.Yaml

/-- What separates the last word of a scalar from the next one: blanks, or line ends.
The first line end is apart from the others, and absent if it is escaped. -/
inductive Gap where
  | none
  | blanks (rev : List Char)
  | breaks (first : Option Char) (rev : List Char)
deriving Repr

namespace Gap

/-- The characters of a gap once another word follows, last one first. -/
def fill : Gap → List Char
  | .none => []
  | .blanks rev => rev
  | .breaks (some '\n') [] => [' ']
  | .breaks (some '\n') rev => rev
  | .breaks first rev => rev ++ first.toList

/-- A gap with one more blank, which only counts before the end of the line. -/
def blank (g : Gap) (c : Char) : Gap :=
  match g with
  | .none => .blanks [c]
  | .blanks rev => .blanks (c :: rev)
  | .breaks first rev => .breaks first rev

def lineEnd (g : Gap) (c : Char) : Gap :=
  match g with
  | .breaks first rev => .breaks first (c :: rev)
  | _ => .breaks (some c) []

def isBroken : Gap → Bool
  | .breaks _ _ => true
  | _ => false

def isNone : Gap → Bool
  | .none => true
  | _ => false

end Gap

namespace Scan

/-- Whether the next line starts with a marker between documents. -/
def atMarker : Scan Bool := do
  let s ← get
  return s.mark.column = 0 && (documentMarker? s.rest).isSome

/-- Whether a character ends a plain scalar: a colon before a separator, and inside
flow collections also their own signs. -/
def endsPlain (flow : Bool) (c : Char) (rest : List Char) : Bool :=
  (c = ':' && atSeparator rest) ||
    (flow && (c = ',' || c = '?' || c = '[' || c = ']' || c = '\x7b' || c = '\x7d'))

/-- Whether a plain scalar ends behind a gap. Outside flow collections its lines are
indented by at least `indent`. -/
def endsAtGap (flow : Bool) (indent : Nat) : Scan Bool := do
  let s ← get
  if !flow && s.mark.column < indent then return true
  need 4
  return s.rest.head? = some '#' || (← atMarker)

/-- Reads a plain scalar; the text so far is in `acc`, last character first. The answer
tells also whether the text goes on in another line. -/
def plainLoop (flow : Bool) (indent : Nat) :
    (fuel : Nat) → (acc : List Char) → Gap → Scan (String × Bool)
  | 0, acc, gap => return (String.ofList acc.reverse, gap.isBroken)
  | fuel + 1, acc, gap => do
    let s ← get
    match s.rest with
    | [] =>
      if !gap.isNone then let _ ← endsAtGap flow indent
      return (String.ofList acc.reverse, gap.isBroken)
    | c :: rest =>
      if isBreak c then
        let d ← lineEnd
        need 1
        plainLoop flow indent fuel acc (gap.lineEnd d)
      else if isBlank c then
        if gap.isBroken ∧ s.mark.column < indent ∧ c = '\t' then
          fail "found a tab character that violates indentation"
        skip
        need 1
        plainLoop flow indent fuel acc (gap.blank c)
      else
        let done ← if gap.isNone then pure false else endsAtGap flow indent
        if done || endsPlain flow c rest then
          return (String.ofList acc.reverse, gap.isBroken)
        skip
        need 2
        plainLoop flow indent fuel (c :: (gap.fill ++ acc)) .none

def plain (flow : Bool) (indent : Nat) : Scan (String × Bool) := do
  plainLoop flow indent ((← get).length + 1) [] .none

/-- The character with the given hexadecimal code. -/
def hexChar (digits : List Char) : Scan Char := do
  match digits.foldlM (fun n d => do return 16 * n + (← hexValue? d)) 0 with
  | none => fail "did not find expected hexdecimal number"
  | some n =>
    if n < 0xd800 ∨ (0xdfff < n ∧ n < 0x110000) then return Char.ofNat n
    else fail "found invalid Unicode character escape code"

def escape? (c : Char) : Option Char :=
  match c with
  | '0' => some '\x00'
  | 'a' => some '\x07'
  | 'b' => some '\x08'
  | 't' | '\t' => some '\t'
  | 'n' => some '\n'
  | 'v' => some '\x0b'
  | 'f' => some '\x0c'
  | 'r' => some '\r'
  | 'e' => some '\x1b'
  | ' ' | '"' | '\'' | '\\' => some c
  | 'N' => some '\u0085'
  | '_' => some '\u00a0'
  | 'L' => some '\u2028'
  | 'P' => some '\u2029'
  | _ => none

/-- The number of hexadecimal digits behind a letter that stands for a code. -/
def codeLength? (c : Char) : Option Nat :=
  match c with
  | 'x' => some 2
  | 'u' => some 4
  | 'U' => some 8
  | _ => none

/-- Reads an escape sequence from its backslash on, where `c` follows. -/
def escaped (c : Char) : Scan Char := do
  match codeLength? c with
  | some n =>
    skips 2
    need n
    let digits := (← get).rest.take n
    if digits.length < n then fail "did not find expected hexdecimal number"
    let d ← hexChar digits
    skips n
    return d
  | none =>
    match escape? c with
    | some d =>
      skips 2
      return d
    | none => fail "found unknown escape character"

/-- Makes sure that no marker between documents stands inside a quoted scalar. -/
def checkMarker : Scan Unit := do
  need 4
  if ← atMarker then fail "found unexpected document indicator"

/-- Reads a quoted scalar behind its opening quote; the text so far is in `acc`, last
character first. A single quote inside single quotes is written twice. -/
def quotedLoop (single : Bool) : (fuel : Nat) → (acc : List Char) → Gap → Scan String
  | 0, _, _ => fail "found unexpected end of stream"
  | fuel + 1, acc, gap => do
    match (← get).rest with
    | [] => fail "found unexpected end of stream"
    | c :: rest =>
      if isBreak c then
        let d ← lineEnd
        need 1
        quotedLoop single fuel acc (gap.lineEnd d)
      else if isBlank c then
        skip
        need 1
        quotedLoop single fuel acc (gap.blank c)
      else
        if !gap.isNone then checkMarker
        let acc := gap.fill ++ acc
        if single ∧ c = '\'' ∧ rest.head? = some '\'' then
          skips 2
          need 2
          quotedLoop single fuel (c :: acc) .none
        else if c = (if single then '\'' else '"') then
          skip
          return String.ofList acc.reverse
        else if !single ∧ c = '\\' then
          match rest.head? with
          | none => fail "found unknown escape character"
          | some d =>
            if isBreak d then
              need 3
              skip
              let _ ← lineEnd
              need 1
              quotedLoop single fuel acc (.breaks .none [])
            else
              let e ← escaped d
              need 2
              quotedLoop single fuel (e :: acc) .none
        else
          skip
          need 2
          quotedLoop single fuel (c :: acc) .none

def quoted (single : Bool) : Scan String := do
  skip
  checkMarker
  quotedLoop single ((← get).length + 1) [] .none

end Scan

end MuProc.Yaml
