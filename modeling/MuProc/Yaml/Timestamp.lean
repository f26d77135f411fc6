/-!
# Points in time

A date is a year of four digits, a month and a day, with hyphens between them. A time
of day may follow: hours, minutes and seconds with colons between them, maybe with a
fraction. Behind a `T` the time needs a zone, behind blanks it has none. Apart from
the year, numbers have one or two digits.
-/

namespace MuProc.Yaml.Timestamp

def short? : List Char → Option (Nat × List Char)
  | a :: b :: rest =>
    if a.isDigit ∧ b.isDigit then some ((a.toNat - 48) * 10 + (b.toNat - 48), rest)
    else if a.isDigit then some (a.toNat - 48, b :: rest)
    else none
  | [a] => if a.isDigit then some (a.toNat - 48, []) else none
  | [] => none

def pair? : List Char → Option (Nat × List Char)
  | a :: b :: rest =>
    if a.isDigit ∧ b.isDigit then some ((a.toNat - 48) * 10 + (b.toNat - 48), rest) else none
  | _ => none

def mark? (c : Char) : List Char → Option (List Char)
  | d :: rest => if c = d then some rest else none
  | [] => none

def isLeap (year : Nat) : Bool :=
  year % 4 = 0 && (year % 100 ≠ 0 || year % 400 = 0)

def daysIn (year month : Nat) : Nat :=
  if month = 2 then if isLeap year then 29 else 28
  else if month ∈ [4, 6, 9, 11] then 30
  else 31

def date? (cs : List Char) : Option (List Char) := do
  let digits := cs.takeWhile Char.isDigit
  guard (digits.length = 4)
  let year := digits.foldl (fun n c => n * 10 + (c.toNat - 48)) 0
  let rest ← mark? '-' (cs.drop 4)
  let (month, rest) ← short? rest
  guard (1 ≤ month ∧ month ≤ 12)
  let rest ← mark? '-' rest
  let (day, rest) ← short? rest
  guard (1 ≤ day ∧ day ≤ daysIn year month)
  return rest

/-- Reads over a fraction of a second, if there is one. -/
def skipFraction : List Char → List Char
  | c :: d :: rest =>
    if (c = '.' ∨ c = ',') ∧ d.isDigit then rest.dropWhile Char.isDigit else c :: d :: rest
  | cs => cs

/-- Reads a time of day and gives what follows it. -/
def clock? (cs : List Char) : Option (List Char) := do
  let (hour, rest) ← short? cs
  guard (hour < 24)
  let (minute, rest) ← short? (← mark? ':' rest)
  guard (minute < 60)
  let (second, rest) ← short? (← mark? ':' rest)
  guard (second < 60)
  return skipFraction rest

/-- Reads a zone: `Z`, or a distance with a sign. The distance may reach a whole day
and a whole hour. -/
def zone? : List Char → Option (List Char)
  | 'Z' :: rest => some rest
  | '+' :: rest | '-' :: rest => do
    let (hours, rest) ← pair? rest
    let (minutes, rest) ← pair? (← mark? ':' rest)
    guard (hours ≤ 24 ∧ minutes ≤ 60)
    return rest
  | _ => none

def accepts (cs : List Char) : Bool :=
  match date? cs with
  | some [] => true
  | some ('T' :: rest) | some ('t' :: rest) => ((clock? rest).bind zone?) = some []
  | some (' ' :: rest) => clock? (rest.dropWhile (· = ' ')) = some []
  | _ => false

end MuProc.Yaml.Timestamp
