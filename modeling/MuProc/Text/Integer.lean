/-!
# Integers

An integer is written with an optional sign, then `0x`, `0o`, `0b` or just `0` for a
base other than ten, then its digits. A single underscore may stand between two
digits, or between the sign of the base and a digit. Integers have 64 bits.
-/

namespace MuProc.Text

/-- Why a text is no integer. -/
inductive IntegerFault where
  | malformed
  | outOfRange
deriving DecidableEq, Repr

def digitValue? (c : Char) : Option Nat :=
  if '0' ≤ c ∧ c ≤ '9' then some (c.toNat - 48)
  else if 'a' ≤ c ∧ c ≤ 'z' then some (c.toNat - 87)
  else if 'A' ≤ c ∧ c ≤ 'Z' then some (c.toNat - 55)
  else none

/-- The base of an unsigned integer, and its digits. -/
def splitBase : List Char → Nat × List Char
  | '0' :: 'x' :: d :: ds | '0' :: 'X' :: d :: ds => (16, d :: ds)
  | '0' :: 'o' :: d :: ds | '0' :: 'O' :: d :: ds => (8, d :: ds)
  | '0' :: 'b' :: d :: ds | '0' :: 'B' :: d :: ds => (2, d :: ds)
  | '0' :: ds => (8, ds)
  | ds => (10, ds)

/-- Appends digits to a number, leaving underscores out. The first digit that does
not belong to the base or exceeds the range decides what is wrong. -/
def appendDigits (base : Nat) : Nat → List Char → Except IntegerFault Nat
  | n, [] => .ok n
  | n, c :: cs =>
    if c = '_' then appendDigits base n cs
    else match digitValue? c with
      | none => .error .malformed
      | some d =>
        if base ≤ d then .error .malformed
        else if Nat.pow 2 64 ≤ n * base + d then .error .outOfRange
        else appendDigits base (n * base + d) cs

/-- Whether every underscore stands between two digits; `after` says whether there
is a digit in front. -/
def underscoresFit : (after : Bool) → List Char → Bool
  | after, [] => after
  | after, '_' :: cs => after && underscoresFit false cs
  | _, _ :: cs => underscoresFit true cs

def magnitude (cs : List Char) : Except IntegerFault Nat := do
  if cs.isEmpty then throw .malformed
  let (base, ds) := splitBase cs
  let n ← appendDigits base 0 ds
  if underscoresFit (base ≠ 10) ds then return n else throw .malformed

/-- The value of an unsigned integer in a known base, which has digits only. -/
def magnitudeIn (base : Nat) (cs : List Char) : Except IntegerFault Nat :=
  if cs.isEmpty ∨ '_' ∈ cs then .error .malformed else appendDigits base 0 cs

/-- The value of an integer, given how its unsigned part is read. -/
def signed (magnitude : List Char → Except IntegerFault Nat) :
    List Char → Except IntegerFault Int
  | '-' :: ds => do
    let n ← magnitude ds
    if n ≤ Nat.pow 2 63 then return .negOfNat n else throw .outOfRange
  | '+' :: ds => do
    let n ← magnitude ds
    if n < Nat.pow 2 63 then return .ofNat n else throw .outOfRange
  | ds => do
    let n ← magnitude ds
    if n < Nat.pow 2 63 then return .ofNat n else throw .outOfRange

def integer (cs : List Char) : Except IntegerFault Int :=
  signed magnitude cs

def integerIn (base : Nat) (cs : List Char) : Except IntegerFault Int :=
  signed (magnitudeIn base) cs

end MuProc.Text
