import MuProc.Text.ByteString
import MuProc.Text.Printable

/-!
# Quoted text

Names that may hold any byte are shown between double quotes, and a single
character between single ones. Printable characters stand for themselves; the quote
and the backslash are escaped, the usual controls have one-letter escapes, and every
other character is written as its code point in lower-case hexadecimal: two digits
after `\x`, four after `\u` or eight after `\U`. A byte that belongs to no character is
written as two digits after `\x`.
-/

namespace MuProc.Text

def hexDigit (n : Nat) : Char :=
  if n < 10 then Char.ofNat (n + 48) else Char.ofNat (n + 87)

/-- The last `width` hexadecimal digits of `n`, most significant first. -/
def hexDigits : Nat → Nat → List Char
  | 0, _ => []
  | width + 1, n => hexDigits width (n / 16) ++ [hexDigit (n % 16)]

/-- The escape of a character that is not printable and has no letter escape. -/
def escapeCode (c : Char) : List Char :=
  let n := c.toNat
  if n < 0x80 then '\\' :: 'x' :: hexDigits 2 n
  else if n < 0x10000 then '\\' :: 'u' :: hexDigits 4 n
  else '\\' :: 'U' :: hexDigits 8 n

def escapeChar (quote c : Char) : List Char :=
  if c = quote then ['\\', quote]
  else if c = '\\' then ['\\', '\\']
  else if isPrintable c then [c]
  else match c.toNat with
    | 7 => ['\\', 'a']
    | 8 => ['\\', 'b']
    | 12 => ['\\', 'f']
    | 10 => ['\\', 'n']
    | 13 => ['\\', 'r']
    | 9 => ['\\', 't']
    | 11 => ['\\', 'v']
    | _ => escapeCode c

def escapeByte (b : UInt8) : List Char :=
  '\\' :: 'x' :: hexDigits 2 b.toNat

def escapeSymbol (quote : Char) : Symbol → List Char
  | .char c => escapeChar quote c
  | .stray b => escapeByte b

/-- A text between double quotes, with every symbol escaped as needed. -/
def quoted (s : ByteString) : String :=
  String.ofList ('"' :: s.symbols.flatMap (escapeSymbol '"') ++ ['"'])

/-- A character between single quotes, escaped as needed. -/
def quotedChar (c : Char) : String :=
  let quote := Char.ofNat 39
  String.ofList (quote :: escapeChar quote c ++ [quote])

end MuProc.Text
