import MuProc.Yaml.Source

/-!
# Comments

Blanks, line ends and comments between tokens are read over. Of the comments between
two tokens it is kept where they stand, because a block collection ends at a comment
that is indented like the collection itself. Comments in lines that follow one another
form a group; one looks for the next of them some hundred characters ahead at most, and
not behind a line end of several bytes.
-/

namespace MuProc.Yaml

/-- A group of comments. -/
structure CommentGroup where
  /-- The place behind its first character. -/
  start : Mark
  /-- The place of its end. -/
  stop : Nat
  /-- The place from which on it was looked for. -/
  since : Nat
deriving DecidableEq, Repr

/-- What stands around comments. -/
structure Surroundings where
  /-- The column of the innermost block collection. -/
  indent : Nat
  /-- Whether the token in front is the colon behind a key. -/
  afterColon : Bool

/-- The groups of comments found so far. -/
structure Comments where
  /-- The complete groups, last one first. -/
  groups : List CommentGroup := []
  /-- The place from which on the next group is looked for. -/
  since : Nat
  /-- The place behind the first character of the group that is being read. -/
  start : Option Mark := none
  /-- The line behind the last token. -/
  nextLine : Option Nat := none
  /-- Whether there was no empty line yet. -/
  close : Bool := true
  /-- Whether the last line was empty. -/
  afterEmpty : Bool := false

namespace Comments

def complete (c : Comments) (stop : Nat) : Comments :=
  match c.start with
  | none => c
  | some start => { c with
      groups := ⟨start, stop, c.since⟩ :: c.groups
      since := stop
      start := none }

/-- Whether the group that is being read belongs to what is in front of it and not to
what follows: it starts in the line behind a token that is no colon, or further left
than the block. -/
def belongsBefore (c : Comments) (a : Surroundings) : Bool :=
  c.start.any fun m => (c.nextLine = some m.line && !a.afterColon) || m.column ≤ a.indent

/-- Notes an empty line, or the end of the text, at a place. The first one completes a
group that belongs to what is in front of it. -/
def emptyLine (c : Comments) (a : Surroundings) (index : Nat) : Comments :=
  let c := if c.close && !c.afterEmpty && c.belongsBefore a then c.complete index else c
  { c with close := false, afterEmpty := true }

/-- Notes something in a line at a place. It completes a group that starts in another
column if it stands further left than the block. -/
def word (c : Comments) (a : Surroundings) (m : Mark) : Comments :=
  if m.column ≤ a.indent ∧ c.start.any (·.column ≠ m.column) then c.complete m.index else c

/-- Notes a comment behind whose first character lies the given place. -/
def comment (c : Comments) (m : Mark) : Comments :=
  { c with start := c.start <|> some m, afterEmpty := false }

/-- Completes all groups before something at a place that is no comment. -/
def finish (c : Comments) (a : Surroundings) (m : Mark) : Comments :=
  (c.word a { m with column := m.column + 1 }).complete (m.index - 1)

end Comments

namespace Scan

/-- Reads over blanks and line ends up to the place with the given index. -/
def skipTo (index : Nat) : (fuel : Nat) → Scan Unit
  | 0 => return
  | fuel + 1 => do
    need 1
    let s ← get
    if s.mark.index < index then
      if s.rest.head?.any isBreak then
        let _ ← lineEnd
      else skip
      skipTo index fuel

/-- Reads over comments with only blanks and line ends between them. The characters
`cs` lie `ahead` of the current place, and `m` is the place they stand at. -/
def skipComments (a : Surroundings) :
    (fuel : Nat) → (ahead : Nat) → (m : Mark) → (cs : List Char) → Comments → Scan Comments
  | 0, _, m, _, found => return found.complete (m.index - 1)
  | fuel + 1, ahead, m, cs, found => do
    if 512 ≤ ahead then return found.complete (m.index - 1)
    need (ahead + 1)
    match cs with
    | [] => return (found.emptyLine a m.index).complete (m.index - 1)
    | c :: rest =>
      if isBlank c then skipComments a fuel (ahead + 1) (m.forward 1) rest found
      else if isBreak c then
        let found := found.emptyLine a m.index
        if 1 < c.utf8Size then return found.finish a (m.nextLine 1)
        skipComments a fuel (ahead + 1) (m.nextLine 1) rest found
      else if c ≠ '#' then return found.finish a m
      else
        let place := { m with column := m.column + 1 }
        let found := (found.word a place).comment place
        skipTo m.index (ahead + 1)
        skipToLineEnd
        let s ← get
        let next : Mark := { line := s.mark.line, column := 0, index := s.mark.index + 1 }
        if s.rest.head?.any (1 < ·.utf8Size) then return found.finish a next
        skipComments a fuel 1 next s.rest.tail found

/-- How many characters further on a comment starts, if there are only blanks before
it. -/
def commentAhead : (fuel : Nat) → (distance : Nat) → List Char → Scan (Option Nat)
  | 0, _, _ => return none
  | fuel + 1, n, cs => do
    need (n + 1)
    match cs with
    | c :: rest =>
      if isBlank c then commentAhead fuel (n + 1) rest
      else return if c = '#' then some n else none
    | [] => return none

/-- Reads over a comment behind a token on the same line. -/
def skipLineComment : Scan Unit := do
  let s ← get
  if s.lines = 0 then
    if let some n ← commentAhead 512 0 s.rest then
      skipTo (s.mark.index + n) (n + 1)
      skipToLineEnd

/-- The line behind the last token, seen from a comment. There is none if the token
stands in the first line. -/
def lineBehind (token : Mark) (s : Source) : Option Nat :=
  if token.line = 0 then none
  else some (s.mark.line + 1 - s.lines + if s.lines = 0 ∧ 1 < s.mark.column then 1 else 0)

/-- Reads over blanks, comments and line ends. Tabs count as blanks inside flow
collections and where no key may start. The answer tells whether a key may start at
the next token, and which comments were found from the place `start` on, last one
first. -/
def skipSpace (a : Surroundings) (flow : Bool) (start : Mark) :
    (fuel : Nat) → (keyAllowed : Bool) → List CommentGroup → Scan (Bool × List CommentGroup)
  | 0, keyAllowed, groups => return (keyAllowed, groups)
  | fuel + 1, keyAllowed, groups => do
    need 1
    let s ← get
    if s.mark.column = 0 ∧ s.marked then skip
    let _ ← takeWhile fun c => c = ' ' || (c = '\t' && (flow || !keyAllowed))
    let groups ← if (← next?) ≠ some '#' then pure groups else do
      let s ← get
      let found ← skipComments a (2 * s.length + 2) 0 s.mark s.rest
        { groups, since := start.index, nextLine := lineBehind start s, close := s.lines ≤ 1 }
      pure found.groups
    if (← next?).any isBreak then
      let _ ← lineEnd
      skipSpace a flow start fuel (keyAllowed || !flow) groups
    else return (keyAllowed, groups)

end Scan

end MuProc.Yaml
