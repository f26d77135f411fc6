import MuProc.Text.Quoted

/-!
# Type errors

What can be wrong with the values and the keys of a document whose form is right. These
errors are collected and reported together.
-/

namespace MuProc

/-- A value of the wrong type, or a key that should not be there. -/
inductive TypeError where
  | mismatch (line : Int) (tag : String) (value : ByteString) (type : String)
  | unknownField (line : Int) (field type : String)
  | repeatedField (line : Int) (field type : String)
  | repeatedKey (line : Int) (key : ByteString) (first : Int)
deriving DecidableEq, Repr

namespace TypeError

/-- How a value is shown: not at all for collections, and shortened to its first bytes if
it is long. -/
def shownValue (tag : String) (value : ByteString) : String :=
  if tag = "!!seq" ∨ tag = "!!map" then value.text
  else if 10 < value.bytes.length then
    " `" ++ ByteString.text ⟨value.bytes.take 7⟩ ++ "...`"
  else " `" ++ value.text ++ "`"

def message : TypeError → String
  | .mismatch l tag value type =>
    "line " ++ toString l ++ ": cannot unmarshal " ++ tag ++ shownValue tag value ++
      " into " ++ type
  | .unknownField l field type =>
    "line " ++ toString l ++ ": field " ++ field ++ " not found in type " ++ type
  | .repeatedField l field type =>
    "line " ++ toString l ++ ": field " ++ field ++ " already set in type " ++ type
  | .repeatedKey l key first =>
    "line " ++ toString l ++ ": mapping key " ++ Text.quoted key ++ " already defined at line " ++
      toString first

end TypeError

end MuProc
