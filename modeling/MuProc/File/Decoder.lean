import MuProc.File.TypeError
import MuProc.Formula.Decode
import MuProc.Text.Base64
import MuProc.Yaml.Tag

/-!
# Reading values from documents

Values are read from a document tree. Values of the wrong type and repeated keys are
noted, and reading goes on. A null leaves a value as it is, and a null or a value of the
wrong type in a list is left out. Aliases are followed, as long as a document does not
consist of them almost entirely.
-/

namespace MuProc

namespace ModelFile

open Yaml (Node)

/-- What was done to decode a document so far. -/
structure Progress where
  errors : Array TypeError := #[]
  /-- How many nodes were visited. -/
  visits : Nat := 0
  /-- How many of them inside aliases. -/
  aliased : Nat := 0
  /-- How many aliases lie around the current node. -/
  depth : Nat := 0
  /-- Whether fields that are not known are errors. -/
  strict : Bool := true

/-- The share of visits inside aliases that is too large, as a fraction: more than 99 in
100 visits up to 400000 of them, and ever fewer up to 4000000, where 10 in 100 are the
limit. -/
def Progress.limit (visits : Nat) : Nat × Nat :=
  if visits ≤ 400000 then (99, 100)
  else if 4000000 ≤ visits then (10, 100)
  else (99 * 3600000 - 89 * (visits - 400000), 360000000)

/-- Whether a document consists of aliases almost entirely. Small ones are exempt. -/
def Progress.isExcessive (p : Progress) : Bool :=
  let (num, den) := limit p.visits
  100 < p.aliased && 1000 < p.visits && num * p.visits < den * p.aliased

/-- Why a document cannot be decoded at all. -/
inductive Unusable where
  /-- An alias stands inside the node it stands for. -/
  | cyclic (anchor : ByteString)
  | excessiveAliases
  /-- Something else than mappings is merged into a record. -/
  | mergeValue
  /-- A scalar is not what its tag says. -/
  | tagMismatch (found : String) (value : ByteString) (tag : String)
  /-- A scalar is not the bytes that its tag says. -/
  | badBytes
  /-- A mapping of values of whatever type has a collection as a key. -/
  | invalidKey
  /-- A collection is among the keys that are collected for merging. -/
  | collectionKey
  /-- Something that has a type of its own stands in place of a formula. -/
  | notFormula
deriving DecidableEq, Repr

/-- The report of a document that cannot be decoded. -/
def Unusable.message : Unusable → String
  | .cyclic anchor => "yaml: anchor '" ++ anchor.text ++ "' value contains itself"
  | .excessiveAliases => "yaml: document contains excessive aliasing"
  | .mergeValue => "yaml: map merge requires map or sequence of maps as the value"
  | .tagMismatch found value tag =>
    "yaml: cannot decode " ++ found ++ " `" ++ value.text ++ "` as a " ++ tag
  | .badBytes => "yaml: !!binary value contains invalid base64 data"
  | .invalidKey => "yaml: invalid map key"
  | .collectionKey => "unhashable key"
  | .notFormula => "value is not a formula"

/-- Whether there is no way to go on, not even with a report. -/
def Unusable.isFatal : Unusable → Bool
  | .collectionKey | .notFormula => true
  | _ => false

/-- Why decoding stops. -/
inductive Halt where
  | formula (e : DecodeError)
  | unusable (u : Unusable)
deriving DecidableEq, Repr

abbrev Decoder := StateT Progress (Except Halt)

namespace Decoder

def note (e : TypeError) : Decoder Unit :=
  modify fun p => { p with errors := p.errors.push e }

def halt {α : Type} (u : Unusable) : Decoder α :=
  throw (.unusable u)

def count : Decoder Unit := do
  let p ← get
  let p := { p with
    visits := p.visits + 1
    aliased := if p.depth = 0 then p.aliased else p.aliased + 1 }
  if p.isExcessive then halt .excessiveAliases
  set p

def inside {α : Type} (m : Decoder α) : Decoder α := do
  modify fun p => { p with depth := p.depth + 1 }
  let a ← m
  modify fun p => { p with depth := p.depth - 1 }
  return a

/-- Visits a node, and the node it stands for if it is an alias. -/
def visit {α : Type} (body : Node → Decoder α) : Node → Decoder α
  | .mk .alias _ _ _ _ _ (some n) => do
    count
    inside (visit body n)
  | .mk .alias _ name _ _ _ none => do
    count
    halt (.cyclic name)
  | n => do
    count
    body n

def mismatch {α : Type} (n : Node) (type : String) : Decoder (Option α) := do
  note (.mismatch n.line n.tag n.value type)
  return none

def keysIn : List Node → List Node
  | key :: _ :: rest => key :: keysIn rest
  | _ => []

/-- The keys of a mapping that occurred before, with their first places. -/
def repeatedKeys : List Node → List TypeError
  | key :: _ :: rest =>
    (keysIn rest).filterMap (fun other =>
      if key.kind = other.kind ∧ key.value = other.value then
        some (.repeatedKey other.line other.value key.line)
      else none) ++ repeatedKeys rest
  | _ => []

/-- Notes the repeated keys of a mapping; the answer is whether there are none. -/
def checkKeys (n : Node) : Decoder Bool := do
  if n.kind ≠ .mapping then return true
  let errors := repeatedKeys n.content
  modify fun p => { p with errors := p.errors ++ errors }
  return errors.isEmpty

/-- The types whose values are written in a way of their own. A scalar of any other type
is a text. -/
def writtenTypes : List String :=
  ["!!bool", "!!int", "!!float", "!!null", "!!timestamp"]

/-- The text of a scalar. A tag in front of it has to fit to what is written; an integer of
moderate size also fits to a tag of other numbers. -/
def scalarText (n : Node) : Decoder Name := do
  if n.tag ∈ writtenTypes then
    let found := Yaml.plainTag n.value.text
    if n.tag ≠ found ∧
        ¬(n.tag = "!!float" ∧ found = "!!int" ∧ Yaml.isSignedInteger n.value.text) then
      halt (.tagMismatch found n.value n.tag)
    return n.value
  else if n.tag = "!!binary" then
    match Text.ofBase64? n.value.text with
    | some s => return s
    | none => halt .badBytes
  else return n.value

/-- A scalar, given what to do with its type and its text; there is nothing to do for a
null. A collection that is called a null misses the type `nullable`. -/
def scalar {α : Type} (type nullable : String) (value : String → Name → Option α) :
    Node → Decoder (Option α) :=
  visit fun n => do
    if !(← checkKeys n) then return none
    if n.kind ≠ .scalar then mismatch n (if n.tag = "!!null" then nullable else type)
    else
      let s ← scalarText n
      if n.tag = "!!null" then return none
      match value n.tag s with
      | some a => return some a
      | none => mismatch n type

/-- A text. Numbers and truth values count as the text they are written as. -/
def text : Node → Decoder (Option Name) :=
  scalar "string" "string" fun _ s => some s

/-- The words for yes and no that are understood where a truth value is wanted. -/
def truthWord? (s : String) : Option Bool :=
  if s ∈ ["y", "Y", "yes", "Yes", "YES", "on", "On", "ON"] then some true
  else if s ∈ ["n", "N", "no", "No", "NO", "off", "Off", "OFF"] then some false
  else none

/-- A truth value; some more words are understood than the usual ones. -/
def flag : Node → Decoder (Option Bool) :=
  scalar "bool" "*bool" fun tag s =>
    if tag = "!!bool" then some (s.text ∈ ["true", "True", "TRUE"])
    else if tag ∈ writtenTypes then none
    else truthWord? s.text

def isNull (n : Node) : Decoder Bool := do
  if n.kind ≠ .scalar then return false
  let _ ← scalarText n
  return n.tag = "!!null"

/-- The members of a list that can be read; the others are left out. -/
def members {α : Type} (member : Node → Decoder (Option α)) : List Node → Decoder (List α)
  | [] => return []
  | n :: ns => do
    let a ← member n
    let as ← members member ns
    return a.toList ++ as

/-- A list; the inner answer is missing for a null. -/
def list {α : Type} (type : String) (member : Node → Decoder (Option α)) :
    Node → Decoder (Option (Option (List α))) :=
  visit fun n => do
    if !(← checkKeys n) then return none
    if n.kind = .sequence then return some (some (← members member n.content))
    else if ← isNull n then return some none
    else mismatch n type

end Decoder

end ModelFile

end MuProc
