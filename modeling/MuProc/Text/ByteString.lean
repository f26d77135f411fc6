/-!
# Byte strings

Processes, propositions and actions have names, and a name may hold any bytes. Bytes that
encode a character are shown as this character. A byte that belongs to no character is shown
as a replacement character, and it still tells names apart.
-/

namespace MuProc

/-- A text that may hold any bytes. -/
structure ByteString where
  bytes : List UInt8
deriving DecidableEq, Repr, Inhabited, Hashable

/-- What a byte string is made of: characters, and bytes that belong to none. -/
inductive Symbol where
  | char (c : Char)
  | stray (b : UInt8)
deriving DecidableEq, Repr

namespace Symbol

def bytes : Symbol → List UInt8
  | .char c => String.utf8EncodeChar c
  | .stray b => [b]

def shown : Symbol → Char
  | .char c => c
  | .stray _ => '\ufffd'

end Symbol

namespace ByteString

def ofText (s : String) : ByteString :=
  ⟨s.toList.flatMap String.utf8EncodeChar⟩

instance : Coe String ByteString :=
  ⟨ofText⟩

instance : Append ByteString :=
  ⟨fun s t => ⟨s.bytes ++ t.bytes⟩⟩

def join (l : List ByteString) : ByteString :=
  ⟨l.flatMap bytes⟩

def intercalate (separator : ByteString) (l : List ByteString) : ByteString :=
  join (l.intersperse separator)

/-- The character whose encoding the bytes begin with. -/
def leadingChar? (bytes : List UInt8) : Option Char :=
  (bytes.take 4).toByteArray.utf8DecodeChar? 0

/-- The symbols of some bytes. The first ones, as many as `inside` says, belong to a
character before. -/
def symbolsOf : (inside : Nat) → List UInt8 → List Symbol
  | _, [] => []
  | inside + 1, _ :: bytes => symbolsOf inside bytes
  | 0, b :: bytes =>
    match leadingChar? (b :: bytes) with
    | some c => .char c :: symbolsOf (c.utf8Size - 1) bytes
    | none => .stray b :: symbolsOf 0 bytes

def symbols (s : ByteString) : List Symbol :=
  symbolsOf 0 s.bytes

/-- The text as it is shown. -/
def text (s : ByteString) : String :=
  String.ofList (s.symbols.map Symbol.shown)

/-- Byte strings in ascending order of their bytes. -/
def sorted (l : List ByteString) : List ByteString :=
  l.mergeSort fun a b => decide (a.bytes ≤ b.bytes)

end ByteString

/-! ### Single bytes -/

namespace Ascii

@[match_pattern]
abbrev quote : UInt8 := 34

@[match_pattern]
abbrev dot : UInt8 := 46

@[match_pattern]
abbrev backslash : UInt8 := 92

end Ascii

/-- The name of a process, a proposition or an action. -/
abbrev Name := ByteString

end MuProc
