import MuProc.Text.ByteString
import MuProc.Yaml.Source

/-!
# Tags and directives

A tag is written in full between `!<` and `>`, or as a handle and a suffix, where the
handle abbreviates the beginning of the tag. A directive in front of a document gives
the version of the language or the meaning of a handle.
-/

namespace MuProc.Yaml.Scan

def isTagChar (c : Char) : Bool :=
  isNameChar c || ";/?:@&=+$,.!~*'()[]%".toList.contains c

/-- The number of octets of a character, given its first one. -/
def octetCount (octet : Nat) : Nat :=
  if octet < 0x80 then 1
  else if octet < 0xc0 then 0
  else if octet < 0xe0 then 2
  else if octet < 0xf0 then 3
  else if octet < 0xf8 then 4
  else 0

/-- Reads an octet that is written as a percent sign and two digits. -/
def octet : Scan Nat := do
  need 3
  match (← get).rest with
  | '%' :: a :: b :: _ =>
    match hexValue? a, hexValue? b with
    | some a, some b =>
      skips 3
      return 16 * a + b
    | _, _ => fail "did not find URI escaped octet"
  | _ => fail "did not find URI escaped octet"

/-- Reads the octets of a character behind its first one. -/
def trailingOctets : (count : Nat) → Scan (List Nat)
  | 0 => return []
  | n + 1 => do
    let o ← octet
    if o / 64 ≠ 2 then fail "found an incorrect trailing UTF-8 octet"
    return o :: (← trailingOctets n)

/-- Reads a character whose octets are written with percent signs. Octets that are no
character are shown as replacement characters. -/
def octets : Scan (List Char) := do
  let o ← octet
  let count := octetCount o
  if count = 0 then fail "found an incorrect leading UTF-8 octet"
  let all := o :: (← trailingOctets (count - 1))
  return (ByteString.text ⟨all.map UInt8.ofNat⟩).toList

/-- Reads the characters of a tag; those before are in `acc`, last one first. -/
def tagLoop : (fuel : Nat) → (acc : List Char) → Scan (List Char)
  | 0, acc => return acc.reverse
  | fuel + 1, acc => do
    need 1
    match ← next? with
    | some c =>
      if c = '%' then tagLoop fuel ((← octets).reverse ++ acc)
      else if isTagChar c then
        skip
        tagLoop fuel (c :: acc)
      else return acc.reverse
    | none => return acc.reverse

/-- Reads the characters of a tag behind `start`, which may be empty. -/
def tagText (start : List Char) : Scan (List Char) := do
  let found ← tagLoop ((← get).length + 1) []
  if start.isEmpty ∧ found.isEmpty then fail "did not find expected tag URI"
  return start.drop 1 ++ found

/-- Reads a handle, or the beginning of a tag that has none. -/
def handle : Scan (List Char) := do
  need 1
  if (← next?) ≠ some '!' then fail "did not find expected '!'"
  skip
  let name ← takeWhile isNameChar
  if (← next?) = some '!' then
    skip
    return '!' :: name ++ ['!']
  return '!' :: name

def checkSeparator : Scan Unit := do
  need 1
  if !atSeparator (← get).rest then fail "did not find expected whitespace or line break"

/-- Reads a tag in full behind its first two characters. -/
def verbatimTag : Scan TokenKind := do
  let suffix ← tagText []
  if (← next?) ≠ some '>' then fail "did not find the expected '>'"
  skip
  return .tag "" (String.ofList suffix)

/-- Reads a tag. A lone exclamation mark is a tag without a handle. -/
def tag : Scan TokenKind := do
  need 2
  let kind ← match (← get).rest with
    | _ :: '<' :: _ => do
      skips 2
      verbatimTag
    | _ => do
      let start ← handle
      if 1 < start.length ∧ start.getLast? = some '!' then
        pure (.tag (String.ofList start) (String.ofList (← tagText [])))
      else
        let suffix ← tagText start
        pure (if suffix.isEmpty then .tag "" "!" else .tag "!" (String.ofList suffix))
  checkSeparator
  return kind

def versionNumber : Scan Nat := do
  let ds ← takeWhile Char.isDigit
  if ds.isEmpty then fail "did not find expected version number"
  if 2 < ds.length then fail "found extremely long version number"
  return ds.foldl (fun n c => n * 10 + (c.toNat - 48)) 0

def version : Scan TokenKind := do
  let _ ← takeWhile isBlank
  let major ← versionNumber
  if (← next?) ≠ some '.' then fail "did not find expected digit or '.' character"
  skip
  return .version major (← versionNumber)

/-- Reads a handle and the beginning of tags that it abbreviates. -/
def tagHandle : Scan TokenKind := do
  let _ ← takeWhile isBlank
  let h ← handle
  if h.getLast? ≠ some '!' then fail "did not find expected '!'"
  if !(← next?).any isBlank then fail "did not find expected whitespace"
  let _ ← takeWhile isBlank
  let start ← tagText []
  checkSeparator
  return .tagHandle (String.ofList h) (String.ofList start)

def directive : Scan TokenKind := do
  skip
  let name ← takeWhile isNameChar
  if name.isEmpty then fail "could not find expected directive name"
  if !atSeparator (← get).rest then fail "found unexpected non-alphabetical character"
  let kind ← match String.ofList name with
    | "YAML" => version
    | "TAG" => tagHandle
    | _ => fail "found unknown directive name"
  let _ ← takeWhile isBlank
  if (← next?) = some '#' then skipToLineEnd
  match ← next? with
  | none => pure ()
  | some c =>
    if isBreak c then let _ ← lineEnd
    else fail "did not find expected comment or line break"
  return kind

end MuProc.Yaml.Scan
