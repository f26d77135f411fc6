import MuProc.File.Decoder

/-!
# Reading records

A record is a mapping whose keys are the names of its fields. It takes the fields it does
not have itself from the mappings under its key `<<`, which are merged into it one after
the other. To know which fields it has, all its keys are read once more, as values of
whatever type.
-/

namespace MuProc.ModelFile.Decoder

open Yaml (Node)

/-- A key of a mapping, as far as keys are compared with each other. -/
inductive Key where
  /-- A text. -/
  | name (n : Name)
  /-- A value that is written in a way of its own. -/
  | value (tag : String) (text : ByteString)
  | collection
deriving DecidableEq, Repr

/-- Whether a key merges other mappings into its own. -/
def isMergeKey (key : Node) : Bool :=
  key.kind = .scalar && key.value = "<<" && key.tag = "!!merge"

def typeOf : Node → String
  | .mk .alias _ _ _ _ _ (some n) => typeOf n
  | n => n.tag

def hasTextKeys (content : List Node) : Bool :=
  (keysIn content).all fun key => typeOf key = "!!str" || typeOf key = "!!merge"

def scalarKey (n : Node) : Decoder Key := do
  let s ← scalarText n
  return if n.tag ∈ writtenTypes then .value n.tag n.value else .name s

/-! ### Values of whatever type -/

mutual

/-- Reads a value of whatever type. The answer is what it is as a key, if it is right in
itself. While keys are collected for merging, `taken` has those that are known already. -/
def untyped (taken : Option (List Key)) : Node → Decoder (Option Key × Option (List Key))
  | .mk .alias _ _ _ _ _ (some n) => do
    count
    inside (untyped taken n)
  | .mk .alias _ name _ _ _ none => do
    count
    halt (.cyclic name)
  | .mk .sequence _ _ _ _ items _ => do
    count
    return (some .collection, ← untypedItems taken items)
  | .mk .mapping t v l c content n => do
    count
    if ← checkKeys (.mk .mapping t v l c content n) then
      let texts := hasTextKeys content
      let taken ← untypedEntries texts taken content
      if (keysIn content).any isMergeKey then
        let known ← match taken with
          | some known => pure known
          | none => untypedKeys [] content
        let known ← untypedMerges texts known content
        return (some .collection, taken.map fun _ => known)
      return (some .collection, taken)
    else return (none, taken)
  | n => do
    count
    return (some (← scalarKey n), taken)
termination_by structural n => n

/-- Reads the members of a list of values of whatever type. -/
def untypedItems (taken : Option (List Key)) : List Node → Decoder (Option (List Key))
  | [] => return taken
  | n :: ns => do
    let (_, taken) ← untyped taken n
    untypedItems taken ns
termination_by structural ns => ns

/-- Reads the entries of a mapping of values of whatever type, which has only texts as
keys if `texts` is set. A key that is taken is passed over. -/
def untypedEntries (texts : Bool) (taken : Option (List Key)) :
    List Node → Decoder (Option (List Key))
  | key :: value :: rest => do
    if isMergeKey key then untypedEntries texts taken rest
    else
      let k ← if texts then do pure ((← text key).map .name)
        else do pure (← untyped none key).1
      match k with
      | none => untypedEntries texts taken rest
      | some .collection => halt (if taken.isSome then .collectionKey else .invalidKey)
      | some k =>
        if taken.any (·.contains k) then untypedEntries texts taken rest
        else
          let _ ← untyped none value
          untypedEntries texts (taken.map (k :: ·)) rest
  | _ => return taken
termination_by structural ns => ns

/-- Reads the keys of a mapping once more, into those that are known. -/
def untypedKeys (known : List Key) : List Node → Decoder (List Key)
  | key :: _ :: rest => do
    let (k, taken) ← untyped (some known) key
    let known := taken.getD known
    match k with
    | none => untypedKeys known rest
    | some .collection => halt .collectionKey
    | some k => untypedKeys (k :: known) rest
  | _ => return known
termination_by structural ns => ns

/-- Merges a mapping, or a list of mappings if `list` is set, into a mapping of values of
whatever type. -/
def untypedMerge (texts list : Bool) (known : List Key) : Node → Decoder (List Key)
  | .mk .mapping t v l c content n => do
    count
    if ← checkKeys (.mk .mapping t v l c content n) then
      let taken ← untypedEntries texts (some known) content
      untypedMerges texts (taken.getD known) content
    else return known
  | .mk .alias _ _ _ _ _ (some n) => do
    if n.kind ≠ .mapping then halt .mergeValue
    count
    inside (untypedMerge texts false known n)
  | .mk .alias _ name _ _ _ none => do
    count
    halt (.cyclic name)
  | .mk .sequence _ _ _ _ items _ =>
    if list then untypedMergeItems texts known items else halt .mergeValue
  | _ => halt .mergeValue
termination_by structural n => n

/-- Merges mappings into a mapping of values of whatever type one after the other. -/
def untypedMergeItems (texts : Bool) (known : List Key) : List Node → Decoder (List Key)
  | [] => return known
  | n :: ns => do
    let known ← untypedMerge texts false known n
    untypedMergeItems texts known ns
termination_by structural ns => ns

/-- Merges what stands under the merge key of a mapping of values of whatever type. -/
def untypedMerges (texts : Bool) (known : List Key) : List Node → Decoder (List Key)
  | key :: value :: rest =>
    if isMergeKey key then untypedMerge texts true known value
    else untypedMerges texts known rest
  | _ => return known
termination_by structural ns => ns

end

/-! ### Records -/

/-- How a record of a named type changes by a field; there is no answer for a field that
it does not have. Some records are read as a whole, without looking at fields, unless
they are called a null. -/
structure Fields (α : Type) where
  type : String
  set? : String → Node → Option (α → Decoder α)
  whole? : Option (Node → Decoder α) := none

/-- The fields of a mapping: keys and values in turn. The fields read so far are in
`seen`. While mappings are merged into a record, `taken` has the keys that are known
already; those are passed over. -/
def ownFields {α : Type} (fs : Fields α) :
    (seen : List Name) → (taken : Option (List Key)) → List Node → α →
      Decoder (α × Option (List Key))
  | seen, taken, key :: value :: rest, a => do
    if isMergeKey key then ownFields fs seen taken rest a
    else match ← text key with
      | none => ownFields fs seen taken rest a
      | some name =>
        if taken.any (·.contains (.name name)) then ownFields fs seen taken rest a
        else
          let taken := taken.map (.name name :: ·)
          match fs.set? name.text value with
          | none =>
            if (← get).strict then note (.unknownField key.line name.text fs.type)
            ownFields fs seen taken rest a
          | some set =>
            if name ∈ seen then
              note (.repeatedField key.line name.text fs.type)
              ownFields fs seen taken rest a
            else ownFields fs (name :: seen) taken rest (← set a)
  | _, taken, _, a => return (a, taken)

mutual

/-- Merges a mapping, or a list of mappings if `list` is set, into a record. -/
def mergeNode {α : Type} (fs : Fields α) (list : Bool) (taken : List Key) :
    Node → α → Decoder (α × List Key)
  | .mk .mapping t v l c content n, a => do
    count
    match if t = "!!null" then none else fs.whole? with
    | some whole => return (← whole (.mk .mapping t v l c content n), taken)
    | none =>
      if ← checkKeys (.mk .mapping t v l c content n) then
        let (a, taken) ← ownFields fs [] (some taken) content a
        mergeEntries fs (taken.getD []) content a
      else return (a, taken)
  | .mk .alias _ _ _ _ _ (some n), a => do
    if n.kind ≠ .mapping then halt .mergeValue
    count
    inside (mergeNode fs false taken n a)
  | .mk .alias _ name _ _ _ none, _ => do
    count
    halt (.cyclic name)
  | .mk .sequence _ _ _ _ items _, a =>
    if list then mergeItems fs taken items a else halt .mergeValue
  | _, _ => halt .mergeValue
termination_by structural n => n

/-- Merges mappings into a record one after the other. -/
def mergeItems {α : Type} (fs : Fields α) (taken : List Key) :
    List Node → α → Decoder (α × List Key)
  | [], a => return (a, taken)
  | n :: ns, a => do
    let (a, taken) ← mergeNode fs false taken n a
    mergeItems fs taken ns a
termination_by structural ns => ns

/-- Merges what stands under the merge key of a mapping into a record. -/
def mergeEntries {α : Type} (fs : Fields α) (taken : List Key) :
    List Node → α → Decoder (α × List Key)
  | key :: value :: rest, a =>
    if isMergeKey key then mergeNode fs true taken value a else mergeEntries fs taken rest a
  | _, a => return (a, taken)
termination_by structural ns => ns

end

/-- The record with the given keys and values in turn. -/
def recordOf {α : Type} (start : α) (fs : Fields α) (content : List Node) : Decoder α := do
  let (a, _) ← ownFields fs [] none content start
  if !(keysIn content).any isMergeKey then return a
  let (a, _) ← mergeEntries fs (← untypedKeys [] content) content a
  return a

def record {α : Type} (start : α) (fs : Fields α) : Node → Decoder (Option α) :=
  visit fun n => do
    if !(← checkKeys n) then return none
    if n.kind = .mapping then return some (← recordOf start fs n.content)
    else if ← isNull n then return none
    else mismatch n fs.type

end MuProc.ModelFile.Decoder
