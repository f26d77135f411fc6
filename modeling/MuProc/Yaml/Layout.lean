import MuProc.Yaml.Scalar
import MuProc.Yaml.BlockScalar
import MuProc.Yaml.Comment
import MuProc.Yaml.Directive
import Std.Data.HashMap

/-!
# From text to tokens

Tokens are found one after the other, when they are asked for. The scanner keeps the
columns of the open block collections; a line that starts further left closes them.
Whether a scalar or a collection is a key of a mapping is only known when the colon
behind it is found, so the places where a key may have started are remembered, one
for each level of flow collections, and the key token is put in afterwards. A token
that may turn out to be a key is therefore handed out late; every other one is handed
out when the two tokens behind it are known.

The tokens lie in a window. Whenever it is full, it moves on to the next token that
was not handed out; if that is its first one already, it becomes larger.
-/

namespace MuProc.Yaml

/-- A place where a key may have started. -/
structure PossibleKey where
  /-- Whether it is still possible. -/
  possible : Bool := true
  /-- Whether something else than a key would be an error there. -/
  required : Bool := false
  /-- The number of tokens before it. -/
  token : Nat
  mark : Mark
deriving Repr, Inhabited

/-- The state of the scanner. -/
structure Scanner where
  source : Source
  /-- The tokens found so far. -/
  tokens : Array Token := #[]
  /-- How many tokens were handed out. -/
  taken : Nat := 0
  /-- How many tokens lie in front of the window. -/
  windowStart : Nat := 0
  /-- How many tokens the window can hold. -/
  windowSize : Nat := 0
  /-- The column of the innermost block collection. -/
  indent : Int := -1
  /-- The columns of the block collections around it. -/
  indents : List Int := []
  /-- The possible keys of the block and of the open flow collections, innermost last. -/
  keys : Array PossibleKey := #[{ possible := false, token := 0, mark := {} }]
  /-- The levels of the tokens that are held back because they may be keys. -/
  held : Std.HashMap Nat Nat := {}
  /-- Whether a key may start here. -/
  keyAllowed : Bool := true
deriving Repr

abbrev Layout := StateT Scanner (Except SyntaxError)

namespace Layout

def failAt {α : Type} (m : Mark) (reason : String) : Layout α :=
  throw ⟨m, reason⟩

def read {α : Type} (m : Scan α) : Layout α := do
  let s ← get
  let (a, source) ← (m.run s.source : Except SyntaxError _)
  set { s with source }
  return a

def here : Layout Mark := do
  return (← get).source.mark

/-- Whether the scanner is inside a flow collection. -/
def inFlow : Layout Bool := do
  return 1 < (← get).keys.size

/-- Allows or forbids that a key starts at the next token. -/
def allowKey (b : Bool) : Layout Unit :=
  modify fun s => { s with keyAllowed := b }

/-- The sizes that a small window takes one after the other. -/
def windowSizes : List Nat := [1, 2, 4, 8, 18, 37, 75, 151, 341]

/-- The size of a window that was too small. A large one becomes larger by a quarter and a
little more, and fills pages of 8192 bytes with tokens of 144 bytes. -/
def largerWindow (size : Nat) : Nat :=
  (windowSizes.find? (size < ·)).getD
    ((144 * (size + (size + 768) / 4) + 8191) / 8192 * 8192 / 144)

def makeRoom : Layout Unit :=
  modify fun s =>
    if s.tokens.size - s.windowStart < s.windowSize then s
    else if s.windowStart < s.taken then { s with windowStart := s.taken }
    else { s with windowSize := largerWindow s.windowSize }

def emit (kind : TokenKind) (start stop : Mark) : Layout Unit := do
  makeRoom
  modify fun s => { s with tokens := s.tokens.push { kind, start, stop } }

/-- Adds a token of the given length that starts here. -/
def emitSign (kind : TokenKind) (length : Nat) : Layout Unit := do
  let start ← here
  read (Scan.skips length)
  emit kind start (← here)

/-- Adds an empty token before the one with the given number. If that one was handed
out already, the new one comes last. -/
def insertAt (i : Nat) (kind : TokenKind) (mark : Mark) : Layout Unit := do
  makeRoom
  modify fun s =>
    let t : Token := { kind, start := mark, stop := mark }
    { s with tokens := if i < s.taken then s.tokens.push t else s.tokens.insertIdxIfInBounds i t }

def maxDepth : Nat := 10000

/-- Opens a block collection if the column lies to the right of the innermost one;
its first token is placed before token `i`. -/
def openBlock (column i : Nat) (kind : TokenKind) (mark : Mark) : Layout Unit := do
  let s ← get
  if !(← inFlow) ∧ s.indent < column then
    if maxDepth ≤ s.indents.length then failAt mark "exceeded max depth of 10000"
    set { s with indent := column, indents := s.indent :: s.indents }
    insertAt i kind mark

/-- The place where a block collection at a column ends: a comment in that column, if
only comments stand between it and the given place. The comments are given from the
last one on. -/
def blockStop (column : Int) : (stop : Nat) → Mark → List CommentGroup → Mark
  | _, mark, [] => mark
  | stop, mark, c :: rest =>
    if c.stop < stop then mark
    else blockStop column c.since (if c.start.column = column + 1 then c.start else mark) rest

/-- Closes the block collections that start to the right of a column. The last token of
the innermost one is at the given place, or at a comment before it. -/
def closeLoop (column : Int) (comments : List CommentGroup) (mark : Mark) (indent : Int) :
    List Int → Layout Unit
  | [] => modify fun s => { s with indent, indents := [] }
  | outer :: indents => do
    if indent ≤ column then modify fun s => { s with indent, indents := outer :: indents }
    else
      let mark := blockStop indent mark.index mark comments
      emit .blockEnd mark mark
      closeLoop column comments mark outer indents

/-- Closes the block collections that end at a column. -/
def closeBlocks (column : Int) (comments : List CommentGroup) (mark : Mark) : Layout Unit := do
  if !(← inFlow) then
    let s ← get
    closeLoop column comments { mark with index := mark.index - 1 } s.indent s.indents

def setKey (level : Nat) (k : PossibleKey) : Layout Unit :=
  modify fun s => { s with keys := s.keys.setIfInBounds level k }

def release (token : Nat) : Layout Unit :=
  modify fun s => { s with held := s.held.erase token }

/-- Whether the possible key of a level is still one: it fits into one line of moderate
length. -/
def isKey (level : Nat) : Layout Bool := do
  let s ← get
  match s.keys[level]? with
  | none => return false
  | some k =>
    if !k.possible then return false
    let m := s.source.mark
    if k.mark.line < m.line ∨ k.mark.index + 1024 < m.index then
      if k.required then failAt k.mark "could not find expected ':'"
      setKey level { k with possible := false }
      return false
    return true

def level : Layout Nat := do
  return (← get).keys.size - 1

/-- Gives up the possible key of the innermost level. -/
def dropKey : Layout Unit := do
  let i ← level
  if let some k := (← get).keys[i]? then
    if k.possible then
      if k.required then failAt k.mark "could not find expected ':'"
      setKey i { k with possible := false }
      release k.token

def saveKey : Layout Unit := do
  let s ← get
  if s.keyAllowed then
    dropKey
    let i ← level
    let token := s.tokens.size
    let required := !(← inFlow) && s.indent = s.source.mark.column
    setKey i { required, token, mark := s.source.mark }
    modify fun s => { s with held := s.held.insert token i }

def openFlow (kind : TokenKind) : Layout Unit := do
  saveKey
  let s ← get
  let m := s.source.mark
  set { s with keys := s.keys.push { possible := false, token := s.tokens.size, mark := m } }
  if maxDepth < (← level) then failAt m "exceeded max depth of 10000"
  allowKey true
  emitSign kind 1

def closeFlow (kind : TokenKind) : Layout Unit := do
  dropKey
  if ← inFlow then
    if let some k := (← get).keys.back? then release k.token
    modify fun s => { s with keys := s.keys.pop }
  allowKey false
  emitSign kind 1

/-- The comma between the members of a flow collection. -/
def flowEntry : Layout Unit := do
  dropKey
  allowKey true
  emitSign .flowEntry 1

/-- Opens a block collection at a sign, which needs a place where a key may start. -/
def startBlock (kind : TokenKind) (what : String) : Layout Unit := do
  if !(← inFlow) then
    let s ← get
    let m := s.source.mark
    if !s.keyAllowed then failAt m (what ++ " are not allowed in this context")
    openBlock m.column s.tokens.size kind m

/-- The dash in front of a member of a block sequence. -/
def blockEntry : Layout Unit := do
  startBlock .blockSequenceStart "block sequence entries"
  dropKey
  allowKey true
  emitSign .blockEntry 1

def explicitKey : Layout Unit := do
  startBlock .blockMappingStart "mapping keys"
  dropKey
  allowKey (!(← inFlow))
  emitSign .key 1

def mappingValue : Layout Unit := do
  let i ← level
  if ← isKey i then
    if let some k := (← get).keys[i]? then
      insertAt k.token .key k.mark
      openBlock k.mark.column k.token .blockMappingStart k.mark
      setKey i { k with possible := false }
      release k.token
      allowKey false
  else
    startBlock .blockMappingStart "mapping values"
    allowKey (!(← inFlow))
  emitSign .value 1

def endBlocks (comments : List CommentGroup) : Layout Unit := do
  closeBlocks (-1) comments (← here)
  dropKey
  allowKey false

def finish (comments : List CommentGroup) : Layout Unit := do
  modify fun s =>
    if s.source.mark.column = 0 then s
    else { s with source := { s.source with mark := s.source.mark.nextLine 0 } }
  endBlocks comments
  let m ← here
  emit .streamEnd m m

def endsName : List Char → Bool
  | [] => true
  | c :: _ => isBlank c || isBreak c || "?:,]\x7d%@`".toList.contains c

def anchor (make : String → TokenKind) : Layout Unit := do
  saveKey
  allowKey false
  let start ← here
  read Scan.skip
  let name ← read (Scan.takeWhile isNameChar)
  if name.isEmpty ∨ !endsName (← get).source.rest then
    failAt start "did not find expected alphabetic or numeric character"
  emit (make (String.ofList name)) start (← here)

def tag : Layout Unit := do
  saveKey
  allowKey false
  let start ← here
  let kind ← read Scan.tag
  emit kind start (← here)

def blockScalar (literal : Bool) : Layout Unit := do
  dropKey
  allowKey true
  let start ← here
  let text ← read (Scan.blockScalar literal (← get).indent)
  emit (.scalar text false) start (← here)

def quoted (single : Bool) : Layout Unit := do
  saveKey
  allowKey false
  let start ← here
  let text ← read (Scan.quoted single)
  emit (.scalar text false) start (← here)

/-- A plain scalar. A key may follow if the text goes on in another line. -/
def plain : Layout Unit := do
  saveKey
  allowKey false
  let start ← here
  let (text, broken) ← read (Scan.plain (← inFlow) ((← get).indent + 1).toNat)
  emit (.scalar text true) start (← here)
  if broken then allowKey true

/-- Whether a plain scalar may start with a character. -/
def startsPlain (flow : Bool) (c : Char) (rest : List Char) : Bool :=
  !("-?:,[]\x7b\x7d#&*!|>'\"%@`".toList.contains c || isBlank c || isBreak c) ||
    (c = '-' && !(rest.head?.any isBlank)) ||
    (!flow && (c = '?' || c = ':') && !atSeparator rest)

/-- The token that starts with the character `c`, and the comment behind it. -/
def content (c : Char) (rest : List Char) : Layout Unit := do
  let flow ← inFlow
  match c with
  | '[' => openFlow .flowSequenceStart
  | '\x7b' => openFlow .flowMappingStart
  | ']' => closeFlow .flowSequenceEnd
  | '\x7d' => closeFlow .flowMappingEnd
  | ',' => flowEntry
  | '*' => anchor .alias
  | '&' => anchor .anchor
  | '!' => tag
  | '\'' => quoted true
  | '"' => quoted false
  | _ =>
    if c = '-' ∧ atSeparator rest then blockEntry
    else if c = '?' ∧ (flow ∨ atSeparator rest) then explicitKey
    else if c = ':' ∧ (flow ∨ atSeparator rest) then mappingValue
    else if (c = '|' ∨ c = '>') ∧ !flow then blockScalar (c = '|')
    else if startsPlain flow c rest then plain
    else failAt (← here) "found character that cannot start any token"
  if (← get).tokens.back?.any (·.kind ≠ .blockEntry) then read Scan.skipLineComment

/-- Scans the next token, together with the ends of the blocks before it. -/
def fetch : Layout Unit := do
  read (Scan.need 1)
  let s ← get
  if s.tokens.isEmpty then emit .streamStart s.source.mark s.source.mark
  else
    let around := { indent := s.indent.toNat, afterColon := s.tokens.back?.any (·.kind = .value) }
    let (keyAllowed, comments) ← read (Scan.skipSpace around (← inFlow) s.source.mark
      (s.source.length + 1) s.keyAllowed [])
    allowKey keyAllowed
    let column := (← here).column
    closeBlocks column comments s.source.mark
    read (Scan.need 4)
    match (← get).source.rest with
    | [] => finish comments
    | c :: rest =>
      if column = 0 ∧ c = '%' then
        endBlocks comments
        let start ← here
        let kind ← read Scan.directive
        emit kind start (← here)
      else match (if column = 0 then documentMarker? (c :: rest) else none) with
        | some d =>
          endBlocks comments
          emitSign (if d = '-' then .documentStart else .documentEnd) 3
        | none => content c rest

def isReady : Layout Bool := do
  let s ← get
  if s.tokens.size ≤ s.taken + 2 then return false
  match s.held[s.taken]? with
  | none => return true
  | some level => return !(← isKey level)

def prepare : (fuel : Nat) → Layout Unit
  | 0 => return
  | fuel + 1 => do
    if !(← isReady) then
      fetch
      prepare fuel

/-- The next token. Every round but a few at the end of the text reads a character. -/
def peek : Layout Token := do
  prepare ((← get).source.length + 4)
  let s ← get
  match s.tokens[s.taken]? with
  | some t => return t
  | none => failAt s.source.mark "unexpected end of stream"

def skip : Layout Unit :=
  modify fun s => { s with taken := s.taken + 1 }

/-- The token that has taken the place of an earlier one in the window, which stood there
when `before` was the state. It is the same one unless the window has moved. -/
def successor (before : Scanner) (t : Token) : Layout Token := do
  let s ← get
  if s.windowStart = before.windowStart then return t
  return s.tokens[s.windowStart + (before.taken - before.windowStart)]?.getD t

end Layout

end MuProc.Yaml
