import MuProc.Text.Integer
import MuProc.Text.Decimal
import MuProc.Yaml.Timestamp

/-!
# Types of plain scalars

A plain scalar is a truth value, nothing, a number or a text, depending on how it is
written. The value itself stays the text as written.
-/

namespace MuProc.Yaml

/-- Whether a text is an integer of at most 64 bits, with or without a sign. -/
def isInteger (cs : List Char) : Bool :=
  (Text.integer cs).isOk || (Text.magnitude cs).isOk

/-- Whether a text is an integer whose digits, behind the mark of the base, have a
sign of their own. -/
def isMarkedInteger : List Char → Bool
  | '0' :: 'b' :: ds => (Text.integerIn 2 ds).isOk
  | '-' :: '0' :: 'b' :: ds => (Text.integerIn 2 ('-' :: ds)).isOk
  | '0' :: 'o' :: ds => (Text.integerIn 8 ds).isOk
  | '-' :: '0' :: 'o' :: ds => (Text.integerIn 8 ('-' :: ds)).isOk
  | _ => false

/-- Whether a text is an integer that fits into 64 bits together with its sign. -/
def isSignedInteger (s : String) : Bool :=
  let plain := s.toList.filter (· ≠ '_')
  (Text.integer plain).isOk || isMarkedInteger plain

/-- The type of a plain scalar that begins with a digit or a sign. Underscores in
numbers do not count. -/
def numberTag (cs : List Char) : String :=
  let plain := cs.filter (· ≠ '_')
  if Timestamp.accepts cs then "!!timestamp"
  else if isInteger plain then "!!int"
  else if Text.isDecimal plain then "!!float"
  else if isMarkedInteger plain then "!!int"
  else "!!str"

def plainTag (s : String) : String :=
  if s ∈ ["true", "True", "TRUE", "false", "False", "FALSE"] then "!!bool"
  else if s ∈ ["", "~", "null", "Null", "NULL"] then "!!null"
  else if s ∈ [".nan", ".NaN", ".NAN", ".inf", ".Inf", ".INF", "+.inf", "+.Inf", "+.INF",
      "-.inf", "-.Inf", "-.INF"] then "!!float"
  else if s = "<<" then "!!merge"
  else match s.toList with
    | c :: cs =>
      if c = '.' then if Text.isSeparatedDecimal (c :: cs) then "!!float" else "!!str"
      else if c.isDigit ∨ c = '+' ∨ c = '-' then numberTag (c :: cs)
      else "!!str"
    | [] => "!!null"

end MuProc.Yaml
