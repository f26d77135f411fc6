import Mathlib.Algebra.Group.Nat.Defs
import Mathlib.Data.List.TakeDrop
import MuProc.Proofs.ByteStrings
import MuProc.Proofs.Numbering

/-!
# Unique reading of written formulas

The written form of a formula has no tokens: prefix operators stand before their operand without
parentheses, a fixpoint opens with a parenthesis as a conjunction does, a variable may be spelled
`mu`, and a quoted proposition may hold every symbol of the notation. A reader that takes one
formula from the front of a text and returns the rest shows that nothing is ambiguous: it gives
back each formula whose names are words and whose actions do not close their own brackets.

Inside a parenthesis the reader takes `mu` for a variable first. What comes after the blank tells
a connective from the variable of a binder.
-/

namespace MuProc

/-! ### Symbols of the notation -/

namespace Ascii

@[match_pattern]
abbrev blank : UInt8 := 32

@[match_pattern]
abbrev negation : UInt8 := 33

@[match_pattern]
abbrev ampersand : UInt8 := 38

@[match_pattern]
abbrev opening : UInt8 := 40

@[match_pattern]
abbrev closing : UInt8 := 41

@[match_pattern]
abbrev less : UInt8 := 60

@[match_pattern]
abbrev greater : UInt8 := 62

@[match_pattern]
abbrev openBracket : UInt8 := 91

@[match_pattern]
abbrev closeBracket : UInt8 := 93

@[match_pattern]
abbrev bar : UInt8 := 124

end Ascii

namespace Text

/-! ### Quoted text -/

/-- The value of a lower-case hexadecimal digit. -/
def digitValue (d : UInt8) : Nat :=
  if d < 58 then d.toNat - 48 else d.toNat - 87

def hexValue (ds : List UInt8) : Nat :=
  ds.foldl (fun n d => 16 * n + digitValue d) 0

/-- How many hexadecimal digits follow a backslash and this letter. -/
def codeWidth : Char → Nat
  | 'x' => 2
  | 'u' => 4
  | 'U' => 8
  | _ => 0

/-- What a number behind a backslash and this letter stands for: a byte or a code point. -/
def codeBytes (e : Char) (n : Nat) : List UInt8 :=
  if e = 'x' then [.ofNat n] else String.utf8EncodeChar (.ofNat n)

/-- The byte that a backslash and this letter stand for, without a number. -/
def letterByte : Char → UInt8
  | 'a' => 7
  | 'b' => 8
  | 'f' => 12
  | 'n' => 10
  | 'r' => 13
  | 't' => 9
  | 'v' => 11
  | c => c.toUInt8

/-- The bytes that a backslash, the letter `e` and the text `bs` behind it stand for. -/
def escapeBytes (e : Char) (bs : List UInt8) : List UInt8 :=
  if codeWidth e = 0 then [letterByte e] else codeBytes e (hexValue (bs.take (codeWidth e)))

/-- Reads a quoted text behind its opening quote, up to its closing one, after `skip` bytes that
belong to an escape. -/
def readQuoted : (skip : Nat) → List UInt8 → Option (List UInt8 × List UInt8)
  | _, [] => none
  | skip + 1, _ :: bs => readQuoted skip bs
  | 0, Ascii.quote :: bs => some ([], bs)
  | 0, Ascii.backslash :: e :: bs =>
    (readQuoted (codeWidth (.ofUInt8 e)) bs).map fun r => (escapeBytes (.ofUInt8 e) bs ++ r.1, r.2)
  | 0, b :: bs => (readQuoted 0 bs).map fun r => (b :: r.1, r.2)

/-- A written text as bytes. -/
def encoded (cs : List Char) : List UInt8 :=
  cs.flatMap String.utf8EncodeChar

/-- The quoted text that follows begins with the bytes `u`, and goes on with what is read of
`rest`. -/
def Prefixed (u written : List UInt8) : Prop :=
  ∀ rest, readQuoted 0 (written ++ rest) = (readQuoted 0 rest).map fun r => (u ++ r.1, r.2)

variable {c : Char} {bs rest : List UInt8} {w n : Nat}

theorem encoded_append (cs ds : List Char) : encoded (cs ++ ds) = encoded cs ++ encoded ds :=
  List.flatMap_append

theorem exists_hexDigit (hn : n < 16) :
    ∃ d, String.utf8EncodeChar (hexDigit n) = [d] ∧ digitValue d = n := by
  have hall : ∀ k : Fin 16, ∃ d ∈ (String.utf8EncodeChar (hexDigit k)).head?,
      String.utf8EncodeChar (hexDigit k) = [d] ∧ digitValue d = k := by decide
  obtain ⟨d, -, hd⟩ := hall ⟨n, hn⟩
  exact ⟨d, hd⟩

/-- The last digit of a number stands behind those of the rest. -/
theorem exists_hexDigits (w n : Nat) :
    ∃ d, encoded (hexDigits (w + 1) n) = encoded (hexDigits w (n / 16)) ++ [d] ∧
      digitValue d = n % 16 := by
  obtain ⟨d, hd, hvalue⟩ := exists_hexDigit (Nat.mod_lt n (by decide))
  refine ⟨d, ?_, hvalue⟩
  rw [hexDigits, encoded_append, ← hd, encoded, encoded, List.flatMap_singleton]

theorem length_hexDigits : (encoded (hexDigits w n)).length = w := by
  induction w generalizing n with
  | zero => rfl
  | succ w ih =>
    obtain ⟨d, hd, -⟩ := exists_hexDigits w n
    rw [hd, List.length_append, ih, List.length_singleton]

theorem hexValue_hexDigits : hexValue (encoded (hexDigits w n)) = n % 16 ^ w := by
  induction w generalizing n with
  | zero => rw [Nat.pow_zero, Nat.mod_one]; rfl
  | succ w ih =>
    obtain ⟨d, hd, hlast⟩ := exists_hexDigits w n
    have hfront : hexValue (encoded (hexDigits w (n / 16))) = n / 16 % 16 ^ w := ih
    rw [hexValue] at hfront ⊢
    rw [hd, List.foldl_append, List.foldl_cons, List.foldl_nil, hfront, hlast, Nat.pow_succ',
      Nat.mod_mul]
    omega

theorem readQuoted_skip (hbs : bs.length = w) :
    readQuoted w (bs ++ rest) = readQuoted 0 rest := by
  induction w generalizing bs with
  | zero => rw [List.length_eq_zero_iff.mp hbs, List.nil_append]
  | succ w ih =>
    obtain ⟨d, ds, rfl⟩ := List.exists_cons_of_length_eq_add_one hbs
    rw [List.cons_append, readQuoted]
    exact ih (by simpa using hbs)

theorem readQuoted_backslash (e : UInt8) : readQuoted 0 (Ascii.backslash :: e :: bs) =
    (readQuoted (codeWidth (.ofUInt8 e)) bs).map
      fun r => (escapeBytes (.ofUInt8 e) bs ++ r.1, r.2) :=
  rfl

theorem readQuoted_escape {e : Char} (he : e.toNat < 128) (ds : List Char) :
    readQuoted 0 (encoded ('\\' :: e :: ds) ++ rest) =
      (readQuoted (codeWidth e) (encoded ds ++ rest)).map
        fun r => (escapeBytes e (encoded ds ++ rest) ++ r.1, r.2) := by
  have hletter : Char.ofUInt8 (.ofNat e.toNat) = e := by
    rw [← Char.toNat_inj]
    show (UInt8.ofNat e.toNat).toUInt32.toNat = e.toNat
    rw [UInt8.toNat_toUInt32, UInt8.toNat_ofNat']
    omega
  have hbytes : encoded ('\\' :: e :: ds) ++ rest =
      Ascii.backslash :: .ofNat e.toNat :: (encoded ds ++ rest) := by
    rw [encoded, List.flatMap_cons, List.flatMap_cons, ByteString.utf8EncodeChar_of_lt he]
    rfl
  rw [hbytes, readQuoted_backslash, hletter]

/-- A number in hexadecimal is read back where its digits have room for it. -/
theorem prefixed_code {e : Char} (he : e.toNat < 128) (hw : codeWidth e ≠ 0)
    (hn : n < 16 ^ codeWidth e) :
    Prefixed (codeBytes e n) (encoded ('\\' :: e :: hexDigits (codeWidth e) n)) := by
  intro rest
  have hbytes : escapeBytes e (encoded (hexDigits (codeWidth e) n) ++ rest) = codeBytes e n := by
    rw [escapeBytes, if_neg hw, List.take_left' length_hexDigits, hexValue_hexDigits,
      Nat.mod_eq_of_lt hn]
  rw [readQuoted_escape he, readQuoted_skip length_hexDigits, hbytes]

/-- A character of one byte is read back where a letter stands for it. -/
theorem prefixed_letter {e : Char} (he : e.toNat < 128 ∧ codeWidth e = 0)
    (hc : c.toNat = (letterByte e).toNat) (hlt : (letterByte e).toNat < 128) :
    Prefixed (String.utf8EncodeChar c) (encoded ['\\', e]) := by
  intro rest
  rw [readQuoted_escape he.1, escapeBytes, if_pos he.2, he.2,
    ByteString.utf8EncodeChar_of_lt (hc ▸ hlt), hc, UInt8.ofNat_toNat]
  rfl

/-- Bytes other than quotes and backslashes stand for themselves. -/
theorem prefixed_raw {u : List UInt8} (hquote : Ascii.quote ∉ u)
    (hbackslash : Ascii.backslash ∉ u) : Prefixed u u := by
  intro rest
  induction u with
  | nil => simp
  | cons b u ih =>
    rw [List.mem_cons, not_or] at hquote hbackslash
    rw [List.cons_append, readQuoted, ih hquote.2 hbackslash.2, Option.map_map]
    · rfl
    · exact Ne.symm hquote.1
    · rintro - - rfl -
      exact hbackslash.1 rfl

theorem toNat_lt_hex (c : Char) : c.toNat < 16 ^ 8 := by
  have hvalid : c.toNat.isValidChar := c.valid
  rcases hvalid with h | h <;> omega

theorem codeBytes_toNat {e : Char} (h : e ≠ 'x') :
    codeBytes e c.toNat = String.utf8EncodeChar c := by
  rw [codeBytes, if_neg h, Char.ofNat_toNat]

theorem prefixed_escapeCode (c : Char) :
    Prefixed (String.utf8EncodeChar c) (encoded (escapeCode c)) := by
  rw [escapeCode]
  split
  · next h =>
    have hcode : c.toNat < 16 ^ codeWidth 'x' := Nat.lt_trans h (by decide)
    rw [ByteString.utf8EncodeChar_of_lt h]
    exact prefixed_code (by decide) (by decide) hcode
  · split
    · next h =>
      rw [← codeBytes_toNat (e := 'u') (by decide)]
      exact prefixed_code (by decide) (by decide) h
    · rw [← codeBytes_toNat (e := 'U') (by decide)]
      exact prefixed_code (by decide) (by decide) (toNat_lt_hex c)

/-- A printable character other than a quote or a backslash stands for itself. -/
theorem prefixed_char (hquote : c ≠ '"') (hbackslash : c ≠ '\\') :
    Prefixed (String.utf8EncodeChar c) (encoded [c]) := by
  have hne {d : Char} (h : c ≠ d) : c.toNat ≠ d.toNat := fun hnat => h (Char.toNat_inj.mp hnat)
  rw [encoded, List.flatMap_singleton]
  exact prefixed_raw (ByteString.notMem_utf8EncodeChar (by decide) (hne hquote))
    (ByteString.notMem_utf8EncodeChar (by decide) (hne hbackslash))

theorem prefixed_escapeChar (c : Char) :
    Prefixed (String.utf8EncodeChar c) (encoded (escapeChar '"' c)) := by
  rw [escapeChar]
  split
  · next h => exact prefixed_letter (by decide) (by rw [h]; rfl) (by decide)
  · next hquote =>
    split
    · next h => exact prefixed_letter (by decide) (by rw [h]; rfl) (by decide)
    · next hbackslash =>
      split
      · exact prefixed_char hquote hbackslash
      · split
        all_goals first
          | exact prefixed_letter (by decide) ‹_› (by decide)
          | exact prefixed_escapeCode c

/-- A written symbol is read back, whatever comes behind it. -/
theorem prefixed_escapeSymbol (s : Symbol) :
    Prefixed s.bytes (encoded (escapeSymbol '"' s)) := by
  cases s with
  | char c => exact prefixed_escapeChar c
  | stray b =>
    have hbytes : codeBytes 'x' b.toNat = [b] := by
      rw [codeBytes, if_pos rfl, UInt8.ofNat_toNat]
    show Prefixed [b] _
    rw [← hbytes]
    exact prefixed_code (by decide) (by decide) b.toNat_lt

/-- A quoted text is read back up to its closing quote. -/
theorem readQuoted_quoted (s : ByteString) (rest : List UInt8) :
    ∃ written, (ByteString.ofText (quoted s)).bytes = Ascii.quote :: written ∧
      readQuoted 0 (written ++ rest) = some (s.bytes, rest) := by
  have hsymbols (l : List Symbol) :
      readQuoted 0 (encoded (l.flatMap (escapeSymbol '"')) ++ Ascii.quote :: rest) =
        some (l.flatMap Symbol.bytes, rest) := by
    induction l with
    | nil => rfl
    | cons a l ih =>
      rw [List.flatMap_cons, List.flatMap_cons, encoded_append, List.append_assoc,
        prefixed_escapeSymbol, ih]
      rfl
  refine ⟨encoded (s.symbols.flatMap (escapeSymbol '"')) ++ [Ascii.quote], ?_, ?_⟩
  · rw [ByteString.bytes_ofText, quoted, String.toList_ofList]
    exact encoded_append ('"' :: s.symbols.flatMap (escapeSymbol '"')) ['"']
  · rw [List.append_assoc]
    show readQuoted 0 (_ ++ Ascii.quote :: rest) = _
    rw [hsymbols, ByteString.bytes_symbols]

end Text

namespace Formula

/-! ### Names -/

/-- A byte of a word: a digit, an underscore, or a part of a letter of any script. -/
def isWordByte (b : UInt8) : Bool :=
  (Char.ofUInt8 b).isAlphanum || b = 95 || 128 ≤ b

/-- A name that is written as one word and is no constant. -/
def IsName (x : Name) : Prop :=
  x ≠ "" ∧ x ≠ "true" ∧ x ≠ "false" ∧ x.bytes.all isWordByte

/-- Variables and binders are named by words, and no action closes the bracket around it. -/
def Readable : Formula → Prop
  | .tt | .ff | .atom _ => True
  | .not f => f.Readable
  | .and f g | .or f g => f.Readable ∧ g.Readable
  | .box a f | .dia a f =>
    (Ascii.closeBracket ∉ a.bytes ∧ Ascii.greater ∉ a.bytes) ∧ f.Readable
  | .mu x f | .nu x f => IsName x ∧ f.Readable
  | .var x => IsName x

instance : DecidablePred IsName := fun x =>
  inferInstanceAs (Decidable (x ≠ "" ∧ x ≠ "true" ∧ x ≠ "false" ∧ x.bytes.all isWordByte))

instance decidableReadable : (f : Formula) → Decidable f.Readable
  | .tt | .ff | .atom _ => .isTrue trivial
  | .not f => decidableReadable f
  | .and f g | .or f g =>
    @instDecidableAnd _ _ (decidableReadable f) (decidableReadable g)
  | .box a f | .dia a f =>
    @instDecidableAnd (Ascii.closeBracket ∉ a.bytes ∧ Ascii.greater ∉ a.bytes) _ inferInstance
      (decidableReadable f)
  | .mu x f | .nu x f => @instDecidableAnd (IsName x) _ inferInstance (decidableReadable f)
  | .var x => inferInstanceAs (Decidable (IsName x))

/-- A text that does not go on with a word. -/
def Stops (bs : List UInt8) : Prop :=
  ∀ b ∈ bs.head?, isWordByte b = false

/-! ### The reader -/

def ofWord (x : Name) : Formula :=
  if x = "true" then .tt else if x = "false" then .ff else .var x

def binder? : Formula → Option (Name → Formula → Formula)
  | .var x => if x = "mu" then some .mu else if x = "nu" then some .nu else none
  | _ => none

/-- Reads on behind an opening parenthesis and what was read as the formula `f`. It passes over
closing brackets without a look at them: the texts it is for were written by `text`. -/
def readInside (read : List UInt8 → Option (Formula × List UInt8)) (f : Formula) :
    List UInt8 → Option (Formula × List UInt8)
  | Ascii.blank :: Ascii.ampersand :: Ascii.ampersand :: Ascii.blank :: bs => do
    let (g, bs) ← read bs
    return (.and f g, bs.drop 1)
  | Ascii.blank :: Ascii.bar :: Ascii.bar :: Ascii.blank :: bs => do
    let (g, bs) ← read bs
    return (.or f g, bs.drop 1)
  | bs => do
    -- The word read as `f` opens a binder: a blank, its variable, and `.(` come next.
    let bind ← binder? f
    let (x, bs) := (bs.drop 1).span isWordByte
    let (g, bs) ← read (bs.drop 2)
    return (bind ⟨x⟩ g, bs.drop 2)

/-- Reads an action up to the bracket that closes it, and the operand of its modality. -/
def readModality (read : List UInt8 → Option (Formula × List UInt8)) (stop : UInt8)
    (modality : Name → Formula → Formula) (bs : List UInt8) : Option (Formula × List UInt8) := do
  let (a, bs) := bs.span (· ≠ stop)
  let (f, bs) ← read (bs.drop 1)
  return (modality ⟨a⟩ f, bs)

/-- Takes one formula from the front of a text, at most `n` operators deep. -/
def read : (n : Nat) → List UInt8 → Option (Formula × List UInt8)
  | 0, _ => none
  | _ + 1, Ascii.quote :: bs => do
    let (p, bs) ← Text.readQuoted 0 bs
    return (.atom ⟨p⟩, bs)
  | n + 1, Ascii.negation :: bs => do
    let (f, bs) ← read n bs
    return (.not f, bs)
  | n + 1, Ascii.openBracket :: bs => readModality (read n) Ascii.closeBracket .box bs
  | n + 1, Ascii.less :: bs => readModality (read n) Ascii.greater .dia bs
  | n + 1, Ascii.opening :: bs => do
    let (f, bs) ← read n bs
    readInside (read n) f bs
  | _ + 1, bs =>
    let (x, bs) := bs.span isWordByte
    if x = [] then none else some (ofWord ⟨x⟩, bs)

variable {f g : Formula} {n : Nat} {x : Name} {bs rest : List UInt8}

/-! ### Words -/

theorem span_append {p : UInt8 → Bool} {l : List UInt8} (hl : l.all p)
    (hrest : ∀ b ∈ rest.head?, p b = false) : (l ++ rest).span p = (l, rest) := by
  rw [List.all_eq_true] at hl
  have htake : rest.takeWhile p = [] := by
    cases rest with
    | nil => rfl
    | cons b bs => rw [List.takeWhile_cons_of_neg]; simpa using hrest
  have hdrop : rest.dropWhile p = rest := by
    cases rest with
    | nil => rfl
    | cons b bs => rw [List.dropWhile_cons_of_neg]; simpa using hrest
  rw [List.span_eq_takeWhile_dropWhile, List.takeWhile_append_of_pos hl,
    List.dropWhile_append_of_pos hl, htake, hdrop, List.append_nil]

/-- An action ends at the bracket that closes it. -/
theorem span_action {a : Name} {stop : UInt8} (ha : stop ∉ a.bytes) :
    (a.bytes ++ stop :: rest).span (· ≠ stop) = (a.bytes, stop :: rest) := by
  refine span_append (List.all_eq_true.mpr fun b hb => ?_) (by simp)
  have hne : b ≠ stop := fun h => ha (h ▸ hb)
  simpa using hne

theorem stops_cons {b : UInt8} (hb : isWordByte b = false) : Stops (b :: bs) := by
  simpa [Stops] using hb

theorem exists_wordByte (hx : x ≠ "") (hword : x.bytes.all isWordByte) :
    ∃ b bs, x.bytes = b :: bs ∧ isWordByte b := by
  have hne : x.bytes ≠ [] := fun h => hx (ByteString.ext h)
  obtain ⟨b, bs, hbs⟩ := List.exists_cons_of_ne_nil hne
  exact ⟨b, bs, hbs, List.all_eq_true.mp hword b (hbs ▸ List.mem_cons_self ..)⟩

/-- A word is read to its end. -/
theorem read_word (hn : 0 < n) (hx : x ≠ "") (hword : x.bytes.all isWordByte)
    (hrest : Stops rest) : read n (x.bytes ++ rest) = some (ofWord x, rest) := by
  obtain ⟨n, rfl⟩ := Nat.exists_eq_add_one.mpr hn
  have hspan : (x.bytes ++ rest).span isWordByte = (x.bytes, rest) := span_append hword hrest
  obtain ⟨b, bs, hbs, hb⟩ := exists_wordByte hx hword
  -- No symbol that opens another form is a byte of a word.
  have hopen (s : UInt8) (hs : isWordByte s = false) : b ≠ s := by
    rintro rfl
    rw [hs] at hb
    cases hb
  rw [hbs, List.cons_append] at hspan ⊢
  rw [read]
  · rw [hspan]
    show (if b :: bs = [] then none else some (ofWord ⟨b :: bs⟩, rest)) = _
    rw [if_neg (List.cons_ne_nil b bs), ← hbs]
  · exact fun bs' h => hopen Ascii.quote (by decide) (List.cons.inj h).1
  · exact fun bs' h => hopen Ascii.negation (by decide) (List.cons.inj h).1
  · exact fun bs' h => hopen Ascii.openBracket (by decide) (List.cons.inj h).1
  · exact fun bs' h => hopen Ascii.less (by decide) (List.cons.inj h).1
  · exact fun bs' h => hopen Ascii.opening (by decide) (List.cons.inj h).1

theorem read_name (hn : 0 < n) (hx : IsName x) (hrest : Stops rest) :
    read n (x.bytes ++ rest) = some (.var x, rest) := by
  obtain ⟨hne, htrue, hfalse, hword⟩ := hx
  rw [read_word hn hne hword hrest, ofWord, if_neg htrue, if_neg hfalse]

/-! ### Formulas -/

theorem bytes_and (f g : Formula) (rest : List UInt8) : (and f g).text.bytes ++ rest =
    Ascii.opening :: (f.text.bytes ++ Ascii.blank :: Ascii.ampersand :: Ascii.ampersand ::
      Ascii.blank :: (g.text.bytes ++ Ascii.closing :: rest)) := by
  show Ascii.opening :: f.text.bytes ++ [Ascii.blank, Ascii.ampersand, Ascii.ampersand,
    Ascii.blank] ++ g.text.bytes ++ [Ascii.closing] ++ rest = _
  simp

theorem bytes_or (f g : Formula) (rest : List UInt8) : (or f g).text.bytes ++ rest =
    Ascii.opening :: (f.text.bytes ++ Ascii.blank :: Ascii.bar :: Ascii.bar ::
      Ascii.blank :: (g.text.bytes ++ Ascii.closing :: rest)) := by
  show Ascii.opening :: f.text.bytes ++ [Ascii.blank, Ascii.bar, Ascii.bar, Ascii.blank] ++
    g.text.bytes ++ [Ascii.closing] ++ rest = _
  simp

theorem bytes_box (a : Name) (f : Formula) (rest : List UInt8) : (box a f).text.bytes ++ rest =
    Ascii.openBracket :: (a.bytes ++ Ascii.closeBracket :: (f.text.bytes ++ rest)) := by
  show Ascii.openBracket :: a.bytes ++ [Ascii.closeBracket] ++ f.text.bytes ++ rest = _
  simp

theorem bytes_dia (a : Name) (f : Formula) (rest : List UInt8) : (dia a f).text.bytes ++ rest =
    Ascii.less :: (a.bytes ++ Ascii.greater :: (f.text.bytes ++ rest)) := by
  show Ascii.less :: a.bytes ++ [Ascii.greater] ++ f.text.bytes ++ rest = _
  simp

/-- What is written behind the keyword of a binder. -/
def binding (x : Name) (f : Formula) (rest : List UInt8) : List UInt8 :=
  Ascii.blank :: (x.bytes ++ Ascii.dot :: Ascii.opening ::
    (f.text.bytes ++ Ascii.closing :: Ascii.closing :: rest))

theorem bytes_mu (x : Name) (f : Formula) (rest : List UInt8) : (mu x f).text.bytes ++ rest =
    Ascii.opening :: ((ByteString.ofText "mu").bytes ++ binding x f rest) := by
  show Ascii.opening :: (ByteString.ofText "mu").bytes ++ [Ascii.blank] ++ x.bytes ++
    [Ascii.dot, Ascii.opening] ++ f.text.bytes ++ [Ascii.closing, Ascii.closing] ++ rest = _
  simp [binding]

theorem bytes_nu (x : Name) (f : Formula) (rest : List UInt8) : (nu x f).text.bytes ++ rest =
    Ascii.opening :: ((ByteString.ofText "nu").bytes ++ binding x f rest) := by
  show Ascii.opening :: (ByteString.ofText "nu").bytes ++ [Ascii.blank] ++ x.bytes ++
    [Ascii.dot, Ascii.opening] ++ f.text.bytes ++ [Ascii.closing, Ascii.closing] ++ rest = _
  simp [binding]

theorem read_quote (hp : Text.readQuoted 0 bs = some (x.bytes, rest)) :
    read (n + 1) (Ascii.quote :: bs) = some (.atom x, rest) := by
  show (Text.readQuoted 0 bs).bind _ = _
  rw [hp]
  rfl

theorem read_negation (hf : read n bs = some (f, rest)) :
    read (n + 1) (Ascii.negation :: bs) = some (.not f, rest) := by
  show (read n bs).bind _ = _
  rw [hf]
  rfl

theorem readModality_eq {stop : UInt8} {modality : Name → Formula → Formula} {a : Name}
    (ha : stop ∉ a.bytes) (hf : read n bs = some (f, rest)) :
    readModality (read n) stop modality (a.bytes ++ stop :: bs) = some (modality a f, rest) := by
  rw [readModality, span_action ha]
  show (read n bs).bind _ = _
  rw [hf]
  rfl

theorem read_opening (hf : read n bs = some (f, rest)) :
    read (n + 1) (Ascii.opening :: bs) = readInside (read n) f rest := by
  show (read n bs).bind _ = _
  rw [hf]
  rfl

/-- The two connectives differ in their symbol only. -/
theorem read_connective {symbol : UInt8} {connective : Formula → Formula → Formula}
    {right : List UInt8}
    (hconnective : (symbol = Ascii.ampersand ∧ connective = .and) ∨
      (symbol = Ascii.bar ∧ connective = .or))
    (hf : read n bs = some (f, Ascii.blank :: symbol :: symbol :: Ascii.blank :: right))
    (hg : read n right = some (g, Ascii.closing :: rest)) :
    read (n + 1) (Ascii.opening :: bs) = some (connective f g, rest) := by
  rw [read_opening hf]
  rcases hconnective with ⟨rfl, rfl⟩ | ⟨rfl, rfl⟩
  · show (read n right).bind _ = _
    rw [hg]
    rfl
  · show (read n right).bind _ = _
    rw [hg]
    rfl

/-- Both binders are read alike: their keyword is taken for a variable first. -/
theorem read_binder {k : Name} {bind : Name → Formula → Formula}
    (hn : 0 < n) (hk : IsName k) (hbind : binder? (.var k) = some bind) (hx : IsName x)
    (hf : read n bs = some (f, Ascii.closing :: Ascii.closing :: rest)) :
    read (n + 1) (Ascii.opening ::
      (k.bytes ++ Ascii.blank :: (x.bytes ++ Ascii.dot :: Ascii.opening :: bs))) =
        some (bind x f, rest) := by
  have hname : (x.bytes ++ Ascii.dot :: Ascii.opening :: bs).span isWordByte =
      (x.bytes, Ascii.dot :: Ascii.opening :: bs) :=
    span_append hx.2.2.2 (stops_cons (by decide))
  obtain ⟨b, ds, hbs, hb⟩ := exists_wordByte hx.1 hx.2.2.2
  -- The name of a variable does not begin as a connective does.
  have hconnective {s : UInt8} (hs : isWordByte s = false) : b ≠ s := by
    rintro rfl
    rw [hs] at hb
    cases hb
  rw [read_opening (read_name hn hk (stops_cons (by decide))), readInside]
  · rw [hbind, List.drop_one, List.tail_cons, hname]
    show (read n bs).bind _ = _
    rw [hf]
    rfl
  · rw [hbs]
    rintro ds' h
    exact hconnective (s := Ascii.ampersand) (by decide) (List.cons.inj (List.cons.inj h).2).1
  · rw [hbs]
    rintro ds' h
    exact hconnective (s := Ascii.bar) (by decide) (List.cons.inj (List.cons.inj h).2).1

/-- A formula is read back from the front of a text that does not continue a word. -/
theorem read_text (hf : f.Readable) (hn : f.size ≤ n) (hrest : Stops rest) :
    read n (f.text.bytes ++ rest) = some (f, rest) := by
  -- The induction follows the reader, so that one hypothesis serves both operands of a pair.
  induction n generalizing f rest with
  | zero => exact absurd f.size_pos (Nat.not_lt.mpr hn)
  | succ n ih =>
    have hclosing (bs : List UInt8) : Stops (Ascii.closing :: bs) := stops_cons (by decide)
    have hblank (bs : List UInt8) : Stops (Ascii.blank :: bs) := stops_cons (by decide)
    cases f with
    | tt => exact read_word (x := "true") (Nat.succ_pos n) (by decide) (by decide) hrest
    | ff => exact read_word (x := "false") (Nat.succ_pos n) (by decide) (by decide) hrest
    | var x => exact read_name (Nat.succ_pos n) hf hrest
    | atom p =>
      obtain ⟨written, hwritten, hread⟩ := Text.readQuoted_quoted p rest
      rw [text, hwritten]
      exact read_quote hread
    | not f => exact read_negation (ih hf (Nat.le_of_succ_le_succ hn) hrest)
    | and f g =>
      have hn : f.size ≤ n ∧ g.size ≤ n := by rw [size] at hn; omega
      rw [bytes_and]
      exact read_connective (.inl ⟨rfl, rfl⟩) (ih hf.1 hn.1 (hblank _))
        (ih hf.2 hn.2 (hclosing rest))
    | or f g =>
      have hn : f.size ≤ n ∧ g.size ≤ n := by rw [size] at hn; omega
      rw [bytes_or]
      exact read_connective (.inr ⟨rfl, rfl⟩) (ih hf.1 hn.1 (hblank _))
        (ih hf.2 hn.2 (hclosing rest))
    | box a f =>
      rw [bytes_box]
      exact readModality_eq hf.1.1 (ih hf.2 (Nat.le_of_succ_le_succ hn) hrest)
    | dia a f =>
      rw [bytes_dia]
      exact readModality_eq hf.1.2 (ih hf.2 (Nat.le_of_succ_le_succ hn) hrest)
    | mu x f =>
      have hn : f.size ≤ n := Nat.le_of_succ_le_succ hn
      rw [bytes_mu]
      exact read_binder (Nat.lt_of_lt_of_le f.size_pos hn) (by decide) rfl hf.1
        (ih hf.2 hn (hclosing _))
    | nu x f =>
      have hn : f.size ≤ n := Nat.le_of_succ_le_succ hn
      rw [bytes_nu]
      exact read_binder (Nat.lt_of_lt_of_le f.size_pos hn) (by decide) rfl hf.1
        (ih hf.2 hn (hclosing _))

/-- Two formulas have the same written form only where they are the same tree. -/
theorem text_eq_iff {a b : Formula} (ha : a.Readable) (hb : b.Readable) :
    a.text = b.text ↔ equal a b := by
  rw [equal_iff]
  refine ⟨fun h => ?_, fun h => h ▸ rfl⟩
  have hstop : Stops [] := by simp [Stops]
  have hreadA := read_text ha (Nat.le_add_right a.size b.size) hstop
  have hreadB := read_text hb (Nat.le_add_left b.size a.size) hstop
  rw [h, hreadB] at hreadA
  simpa using hreadA.symm

/-- A conjunction that begins with the variable `mu` and goes on with a proposition made of the
symbols of a fixpoint is not written as the fixpoint. A byte that belongs to no character is not
written as the character that it is shown as. -/
theorem text_ne_fixpoint :
    (Readable (.and (.var "mu") (.atom "x.(\"a\"))")) ∧
      Readable (.mu "x" (.or (.atom "a") (.box "&& <b" (.var "x")))) ∧
      text (.and (.var "mu") (.atom "x.(\"a\"))")) ≠
        text (.mu "x" (.or (.atom "a") (.box "&& <b" (.var "x"))))) ∧
    Readable (.atom ⟨[255]⟩) ∧ Readable (.atom "\ufffd") ∧
      text (.atom ⟨[255]⟩) ≠ text (.atom "\ufffd") := by
  refine ⟨⟨by decide, by decide, fun h => ?_⟩, by decide, by decide, fun h => ?_⟩
  · exact absurd ((text_eq_iff (by decide) (by decide)).mp h) (by decide)
  · exact absurd ((text_eq_iff (by decide) (by decide)).mp h) (by decide)

end Formula

end MuProc
