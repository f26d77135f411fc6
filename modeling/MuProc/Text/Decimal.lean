/-!
# Decimal numbers

A decimal number has a sign, digits with a point before, between or behind them, and
an exponent; the point, the sign and the exponent may be missing. What matters about
a number is whether it has a nearest double-precision value: it must not exceed the
largest one by half a unit in its last place or more.
-/

namespace MuProc.Text

/-- The size of a decimal number: `mantissa * 10 ^ exponent`. -/
structure Decimal where
  mantissa : Nat
  exponent : Int
deriving DecidableEq, Repr

namespace Decimal

def unsigned : List Char → List Char
  | '+' :: rest | '-' :: rest => rest
  | cs => cs

def digits (cs : List Char) : Nat :=
  cs.foldl (fun n c => n * 10 + (c.toNat - 48)) 0

/-- The size of an exponent. Digits are not read once it has reached ten thousand,
which is far outside the range of numbers in either direction. -/
def exponentSize (cs : List Char) : Nat :=
  cs.foldl (fun n c => if n < 10000 then n * 10 + (c.toNat - 48) else n) 0

/-- The value of an exponent with its mark; it may be missing. -/
def exponent? : List Char → Option Int
  | [] => some 0
  | c :: cs =>
    let ds := unsigned cs
    if (c = 'e' ∨ c = 'E') ∧ !ds.isEmpty ∧ ds.all Char.isDigit then
      some (if cs.head? = some '-' then -(exponentSize ds : Int) else exponentSize ds)
    else none

/-- The number with the given digits before and behind the point, if there are any. -/
def ofParts? (whole fraction rest : List Char) : Option Decimal :=
  if whole.isEmpty ∧ fraction.isEmpty then none
  else (exponent? rest).map fun e =>
    { mantissa := digits (whole ++ fraction), exponent := e - fraction.length }

def ofText? (cs : List Char) : Option Decimal :=
  let cs := unsigned cs
  let whole := cs.takeWhile Char.isDigit
  match cs.dropWhile Char.isDigit with
  | '.' :: rest => ofParts? whole (rest.takeWhile Char.isDigit) (rest.dropWhile Char.isDigit)
  | rest => ofParts? whole [] rest

/-- The least number that is too large: the largest double-precision number is
`2 ^ 1024 - 2 ^ 971`, and what lies half a unit of its last place above it or more is
rounded beyond it. -/
def limit : Nat :=
  Nat.pow 2 1024 - Nat.pow 2 970

/-- Whether a number is below the limit. The limit has 309 digits, so only numbers
with about as many digits before the point are compared exactly. -/
def isFinite (d : Decimal) : Bool :=
  let size := (toString d.mantissa).length + d.exponent
  if d.mantissa = 0 ∨ size < 309 then true
  else if 310 ≤ size then false
  else d.mantissa * Nat.pow 10 d.exponent.toNat < limit * Nat.pow 10 (-d.exponent).toNat

/-- Whether every underscore stands between two digits; `after` says whether there is
a digit in front. -/
def separatorsFit : (after : Bool) → List Char → Bool
  | _, [] => true
  | _, ['_'] => false
  | after, '_' :: c :: cs => after && c.isDigit && separatorsFit true cs
  | _, c :: cs => separatorsFit c.isDigit cs

end Decimal

/-- Whether a text is a decimal number in the range of double-precision numbers. -/
def isDecimal (cs : List Char) : Bool :=
  (Decimal.ofText? cs).any Decimal.isFinite

/-- The same, where underscores may stand between digits. -/
def isSeparatedDecimal (cs : List Char) : Bool :=
  Decimal.separatorsFit false cs && isDecimal (cs.filter (· ≠ '_'))

end MuProc.Text
