import MuProc.Text.LowerCase

/-!
# Suggestions

Names that are close to a mistyped one: at most two bytes have to be inserted, left out
or replaced, or the typed text is the beginning of the name. Upper and lower case
count as the same.
-/

namespace MuProc.Command

/-- The next row of the table of edit distances: entry `j` is the distance to the first
`j` items of `t`. Given are the entries to the left and above to the left, and the rest
of the row above. -/
def distanceRow {α : Type} [DecidableEq α] (a : α) :
    (t : List α) → (left corner : Nat) → (above : List Nat) → List Nat
  | b :: t, left, corner, up :: above =>
    let d := min (min (left + 1) (up + 1)) (if a = b then corner else corner + 1)
    d :: distanceRow a t d up above
  | _, _, _, _ => []

/-- The least number of items to insert, leave out or replace to get from one list to the
other. -/
def distance {α : Type} [DecidableEq α] (s t : List α) : Nat :=
  let first := List.range (t.length + 1)
  let last := s.foldl (fun row a =>
    match row with
    | corner :: above => (corner + 1) :: distanceRow a t (corner + 1) corner above
    | [] => []) first
  last.getLastD 0

def isClose (typed name : String) : Bool :=
  let typed := Text.lowered typed
  distance typed.toUTF8.toList name.toUTF8.toList ≤ 2 || typed.toList.isPrefixOf name.toList

/-- The question whether one of the names was meant, or nothing if there are none. -/
def question (names : List String) : String :=
  if names.isEmpty then ""
  else "\n\nDid you mean this?\n" ++ String.join (names.map fun n => "\t" ++ n ++ "\n")

end MuProc.Command
