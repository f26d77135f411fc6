import MuProc.Text.ByteString

/-!
# Base 64

Bytes written in an alphabet of 64 characters, four for every three bytes. Equals signs
fill up the last four characters, and line breaks do not count.
-/

namespace MuProc.Text

def sextet? (c : Char) : Option Nat :=
  if 'A' ≤ c ∧ c ≤ 'Z' then some (c.toNat - 65)
  else if 'a' ≤ c ∧ c ≤ 'z' then some (c.toNat - 71)
  else if '0' ≤ c ∧ c ≤ '9' then some (c.toNat + 4)
  else if c = '+' then some 62
  else if c = '/' then some 63
  else none

def bytesOfBase64? : List Char → Option (List Nat)
  | [] => some []
  | [w, x, '=', '='] => do
    let n := 64 * (← sextet? w) + (← sextet? x)
    return [n / 16]
  | [w, x, y, '='] => do
    let n := 4096 * (← sextet? w) + 64 * (← sextet? x) + (← sextet? y)
    return [n / 1024, n / 4 % 256]
  | w :: x :: y :: z :: rest => do
    let n := 262144 * (← sextet? w) + 4096 * (← sextet? x) + 64 * (← sextet? y) + (← sextet? z)
    return n / 65536 :: n / 256 % 256 :: n % 256 :: (← bytesOfBase64? rest)
  | _ => none

def ofBase64? (s : String) : Option ByteString :=
  (bytesOfBase64? (s.toList.filter fun c => c ≠ '\n' && c ≠ '\r')).map fun bytes =>
    ⟨bytes.map UInt8.ofNat⟩

end MuProc.Text
