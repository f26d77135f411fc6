import MuProc.Text.ByteString
import Mathlib.Data.List.TakeDrop
import Mathlib.Tactic.Common

/-!
# Symbols of byte strings

The symbols of a byte string are all of it: their bytes, one after the other, are the bytes of
the string. A text has the symbols of its characters, so texts that differ are different byte
strings, and a text is shown as it is.
-/

namespace MuProc.ByteString

variable {bytes : List UInt8} {c : Char} {s t : String} {a b : ByteString}

/-! ### Symbols -/

theorem leadingChar?_eq_some_iff :
    leadingChar? bytes = some c ↔ ∃ rest, bytes = String.utf8EncodeChar c ++ rest := by
  constructor
  · intro h
    obtain ⟨l, hl⟩ := ByteArray.exists_of_utf8DecodeChar?_eq_some h
    have htake : bytes.take 4 = String.utf8EncodeChar c ++ l.data.toList := by
      simpa using congrArg (·.data.toList) hl
    refine ⟨l.data.toList ++ bytes.drop 4, ?_⟩
    rw [← List.append_assoc, ← htake, List.take_append_drop]
  · rintro ⟨rest, rfl⟩
    have hlen : (String.utf8EncodeChar c).length ≤ 4 := by
      rw [String.length_utf8EncodeChar]
      exact c.utf8Size_le_four
    rw [leadingChar?, List.take_append, List.take_of_length_le hlen, List.toByteArray_append]
    exact ByteArray.utf8DecodeChar?_utf8EncodeChar_append

theorem symbolsOf_drop (inside : Nat) (bytes : List UInt8) :
    symbolsOf inside bytes = symbolsOf 0 (bytes.drop inside) := by
  induction inside generalizing bytes with
  | zero => rfl
  | succ inside ih =>
    cases bytes with
    | nil => simp [symbolsOf]
    | cons b bytes => rw [symbolsOf, ih, List.drop_succ_cons]

/-- The symbols of bytes that begin with a character are this character and those of the rest. -/
theorem symbolsOf_append (c : Char) (rest : List UInt8) :
    symbolsOf 0 (String.utf8EncodeChar c ++ rest) = .char c :: symbolsOf 0 rest := by
  have hlen : (String.utf8EncodeChar c).length = c.utf8Size := String.length_utf8EncodeChar c
  have hlead : leadingChar? (String.utf8EncodeChar c ++ rest) = some c :=
    leadingChar?_eq_some_iff.mpr ⟨rest, rfl⟩
  obtain ⟨b, bs, hbs⟩ := List.exists_cons_of_length_pos (hlen ▸ c.utf8Size_pos)
  rw [hbs, List.cons_append] at hlead ⊢
  have hbslen : bs.length = c.utf8Size - 1 := by
    rw [← hlen, hbs, List.length_cons, Nat.add_sub_cancel]
  rw [symbolsOf, hlead]
  show Symbol.char c :: symbolsOf (c.utf8Size - 1) (bs ++ rest) = _
  rw [symbolsOf_drop, List.drop_left' hbslen]

theorem bytes_symbolsOf (bytes : List UInt8) :
    (symbolsOf 0 bytes).flatMap Symbol.bytes = bytes := by
  induction hn : bytes.length using Nat.strongRecOn generalizing bytes with
  | ind n ih =>
    cases bytes with
    | nil => rfl
    | cons b bytes =>
      cases hc : leadingChar? (b :: bytes) with
      | some c =>
        obtain ⟨rest, hrest⟩ := leadingChar?_eq_some_iff.mp hc
        have hlt : rest.length < n := by
          have hsize := c.utf8Size_pos
          rw [← hn, hrest, List.length_append, String.length_utf8EncodeChar]
          omega
        rw [hrest, symbolsOf_append, List.flatMap_cons, ih _ hlt rest rfl, Symbol.bytes]
      | none =>
        rw [symbolsOf, hc]
        have hlt : bytes.length < n := by
          rw [← hn, List.length_cons]
          exact Nat.lt_succ_self _
        rw [List.flatMap_cons, ih _ hlt bytes rfl, Symbol.bytes, List.singleton_append]

/-- The symbols of a byte string make up its bytes. -/
theorem bytes_symbols (a : ByteString) : a.symbols.flatMap Symbol.bytes = a.bytes :=
  bytes_symbolsOf a.bytes

theorem symbols_ofText (s : String) : (ofText s).symbols = s.toList.map .char := by
  have hlist (cs : List Char) :
      symbolsOf 0 (cs.flatMap String.utf8EncodeChar) = cs.map .char := by
    induction cs with
    | nil => rfl
    | cons c cs ih => rw [List.flatMap_cons, symbolsOf_append, ih, List.map_cons]
  exact hlist s.toList

/-! ### Texts -/

@[simp] theorem text_ofText (s : String) : (ofText s).text = s := by
  have hshown (cs : List Char) : (cs.map Symbol.char).map Symbol.shown = cs := by
    rw [List.map_map]
    exact List.map_id' cs
  rw [text, symbols_ofText, hshown, String.ofList_toList]

theorem ofText_injective : Function.Injective ofText := fun s t h => by
  rw [← text_ofText s, h, text_ofText]

@[simp] theorem ofText_inj : ofText s = ofText t ↔ s = t :=
  ofText_injective.eq_iff

@[simp] theorem bytes_append (a b : ByteString) : (a ++ b).bytes = a.bytes ++ b.bytes := rfl

@[simp] theorem bytes_ofText (s : String) :
    (ofText s).bytes = s.toList.flatMap String.utf8EncodeChar := rfl

/-- A character of one byte is this byte. -/
theorem utf8EncodeChar_of_lt (h : c.toNat < 128) :
    String.utf8EncodeChar c = [UInt8.ofNat c.toNat] := by
  have hsize : c.utf8Size = 1 := by
    rw [Char.utf8Size_eq_one_iff, UInt32.le_iff_toNat_le]
    exact Nat.le_of_lt_succ h
  rw [String.utf8EncodeChar_eq_singleton hsize]
  rfl

/-- Every byte of a longer character lies beyond the characters of one byte. -/
theorem le_of_mem_utf8EncodeChar {b : UInt8} (hc : 128 ≤ c.toNat)
    (hb : b ∈ String.utf8EncodeChar c) : 128 ≤ b.toNat := by
  have hsize : ¬c.val.toNat ≤ 127 := Nat.not_le.mpr hc
  simp only [String.utf8EncodeChar, if_neg hsize] at hb
  split at hb
  · simp only [List.mem_cons, List.not_mem_nil, or_false] at hb
    rcases hb with rfl | rfl <;> simp <;> omega
  · split at hb
    · simp only [List.mem_cons, List.not_mem_nil, or_false] at hb
      rcases hb with rfl | rfl | rfl <;> simp <;> omega
    · simp only [List.mem_cons, List.not_mem_nil, or_false] at hb
      rcases hb with rfl | rfl | rfl | rfl <;> simp <;> omega

/-- A byte that is a character occurs in the encoding of no other one. -/
theorem notMem_utf8EncodeChar {b : UInt8} (hb : b.toNat < 128) (hc : c.toNat ≠ b.toNat) :
    b ∉ String.utf8EncodeChar c := by
  intro hmem
  rcases Nat.lt_or_ge c.toNat 128 with hlt | hge
  · rw [utf8EncodeChar_of_lt hlt, List.mem_singleton] at hmem
    rw [hmem, UInt8.toNat_ofNat'] at hc
    omega
  · exact absurd (le_of_mem_utf8EncodeChar hge hmem) (Nat.not_le.mpr hb)

theorem ext (h : a.bytes = b.bytes) : a = b := by
  cases a
  exact congrArg mk h

@[simp] theorem append_empty (a : ByteString) : a ++ ofText "" = a :=
  ext (List.append_nil a.bytes)

theorem append_assoc (a b c : ByteString) : a ++ b ++ c = a ++ (b ++ c) :=
  ext (List.append_assoc a.bytes b.bytes c.bytes)

theorem ofText_append (s t : String) : ofText (s ++ t) = ofText s ++ ofText t := by
  apply ext
  show (s ++ t).toList.flatMap _ = s.toList.flatMap _ ++ t.toList.flatMap _
  rw [String.toList_append, List.flatMap_append]

end MuProc.ByteString
