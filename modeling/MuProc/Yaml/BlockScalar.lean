import MuProc.Yaml.Source

/-!
# Block scalars

A literal or folded scalar is a header, then lines that are indented further than the
block around it. Lines of a literal scalar are kept as they are; in a folded one a
line end between two lines that do not start with a blank stands for a space. What
becomes of the line ends behind the last line is chosen in the header.
-/

namespace MuProc.Yaml

/-- What becomes of the line ends behind the last line of a block scalar. -/
inductive Chomping where
  /-- One is kept. -/
  | clip
  /-- All are dropped. -/
  | strip
  /-- All are kept. -/
  | keep
deriving DecidableEq, Repr

namespace Scan

/-- Reads a sign that tells what becomes of the last line ends. -/
def chomping? : Scan (Option Chomping) := do
  need 1
  match ← next? with
  | some '+' =>
    skip
    return some .keep
  | some '-' =>
    skip
    return some .strip
  | _ => return none

/-- Reads a digit for the indentation of the lines. -/
def increment? : Scan (Option Nat) := do
  need 1
  match ← next? with
  | some c =>
    if c = '0' then fail "found an indentation indicator equal to 0"
    else if c.isDigit then
      skip
      return some (c.toNat - 48)
    else return none
  | none => return none

/-- Reads the header behind its first character, with the signs in any order. -/
def blockHeader : Scan (Chomping × Option Nat) := do
  let first ← chomping?
  let increment ← increment?
  let second ← if first.isNone ∧ increment.isSome then chomping? else pure none
  let _ ← takeWhile isBlank
  if (← next?) = some '#' then skipToLineEnd
  match ← next? with
  | none => pure ()
  | some c =>
    if isBreak c then let _ ← lineEnd
    else fail "did not find expected comment or line break"
  return ((first <|> second).getD .clip, increment)

/-- Reads the line ends in front of the next line that is not empty, and its
indentation. Without a known indentation, the answer has the largest one seen; the
line ends are in `acc`, last one first. -/
def blockBreaks (indent : Option Nat) :
    (fuel : Nat) → (widest : Nat) → (acc : List Char) → Scan (Nat × List Char)
  | 0, widest, acc => return (widest, acc)
  | fuel + 1, widest, acc => do
    spaces (← get).length
    let column := (← get).mark.column
    if (← next?) = some '\t' ∧ indent.all (column < ·) then
      fail "found a tab character where an indentation space is expected"
    if (← next?).any isBreak then
      let d ← lineEnd
      blockBreaks indent fuel (max widest column) (d :: acc)
    else return (max widest column, acc)
where
  /-- Reads the spaces of an indentation. -/
  spaces : Nat → Scan Unit
    | 0 => return
    | fuel + 1 => do
      need 1
      let s ← get
      if s.rest.head? = some ' ' ∧ indent.all (s.mark.column < ·) then
        skip
        spaces fuel

/-- Reads the lines of a block scalar. The text so far is in `acc`, the line end of the
last line in `lead` and the empty lines behind it in `trail`, each with its last
character first. `blank` tells whether the last line started with a blank. -/
def blockLines (literal : Bool) (indent : Nat) :
    (fuel : Nat) → (acc lead trail : List Char) → (blank : Bool) →
      Scan (List Char × List Char × List Char)
  | 0, acc, lead, trail, _ => return (acc, lead, trail)
  | fuel + 1, acc, lead, trail, blank => do
    need 1
    let s ← get
    match s.rest with
    | [] => return (acc, lead, trail)
    | c :: _ =>
      if s.mark.column ≠ indent then return (acc, lead, trail)
      let folded := !literal && !blank && !isBlank c && lead = ['\n']
      let joined := if !folded then lead else if trail.isEmpty then [' '] else []
      let line ← takeWhile (!isBreak ·)
      let acc := line.reverse ++ trail ++ joined ++ acc
      let lead ← if (← next?).isSome then do pure [← lineEnd] else pure []
      let (_, trail) ← blockBreaks (some indent) s.length 0 []
      blockLines literal indent fuel acc lead trail (isBlank c)

/-- Reads a block scalar inside a block at column `outer`. -/
def blockScalar (literal : Bool) (outer : Int) : Scan String := do
  skip
  let (chomping, increment) ← blockHeader
  let known := increment.map fun n => (max outer 0).toNat + n
  let (widest, breaks) ← blockBreaks known (← get).length 0 []
  let indent := known.getD (max (max widest (outer + 1).toNat) 1)
  let (acc, lead, trail) ← blockLines literal indent (← get).length [] [] breaks false
  let text := match chomping with
    | .strip => acc
    | .clip => lead ++ acc
    | .keep => trail ++ lead ++ acc
  return String.ofList text.reverse

end Scan

end MuProc.Yaml
