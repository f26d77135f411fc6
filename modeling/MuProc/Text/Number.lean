/-!
# Numbers in samples

A counter is written as the shortest decimal of its value: positionally below one
million, and from there on as digits with a decimal exponent of at least two
digits.
-/

namespace MuProc.Text

def exponentText (e : Nat) : String :=
  if e < 10 then "e+0" ++ toString e else "e+" ++ toString e

/-- The digits of a number without the zeros at its end. -/
def significantDigits (n : Nat) : List Char :=
  ((toString n).toList.reverse.dropWhile (· = '0')).reverse

def counterText (n : Nat) : String :=
  if n < 1000000 then toString n
  else
    let e := (toString n).length - 1
    match significantDigits n with
    | [] => "0"
    | [d] => String.ofList [d] ++ exponentText e
    | d :: ds => String.ofList (d :: '.' :: ds) ++ exponentText e

end MuProc.Text
