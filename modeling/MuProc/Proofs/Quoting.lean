import MuProc.Proofs.StateNames

/-!
# Quoted strings of a digraph

A digraph is made of quoted strings and of text outside of quotes. A quoted string ends at the
first quote that does not follow a backslash; a backslash before a quote makes the quote a part
of the string. Labels are written with a backslash before each of their quotes, identifiers as
they stand. A label is therefore read back unless it ends with a backslash, which takes in the
closing quote. An identifier is read back unless it ends so or has a quote in it.
-/

namespace MuProc.Dot

/-- What a reader of a digraph finds. -/
inductive Token where
  | mark (b : UInt8)
  | quoted (value : ByteString)
deriving DecidableEq

/-- Reads a digraph. Inside of a string, the value read so far is given. -/
def read : (value : Option (List UInt8)) → List UInt8 → Option (List Token)
  | none, [] => some []
  | none, Ascii.quote :: bs => read (some []) bs
  | none, b :: bs => (read none bs).map (.mark b :: ·)
  | some _, [] => none
  | some v, Ascii.quote :: bs => (read none bs).map (.quoted ⟨v⟩ :: ·)
  | some v, Ascii.backslash :: Ascii.quote :: bs => read (some (v ++ [Ascii.quote])) bs
  | some v, b :: bs => read (some (v ++ [b])) bs

variable {v t bs rest : List UInt8} {ts : List Token} {b : UInt8}

/-! ### Strings -/

theorem read_open : read none (Ascii.quote :: bs) = read (some []) bs := rfl

theorem read_end :
    read (some v) (Ascii.quote :: bs) = (read none bs).map (.quoted ⟨v⟩ :: ·) := rfl

theorem read_quote :
    read (some v) (Ascii.backslash :: Ascii.quote :: bs) =
      read (some (v ++ [Ascii.quote])) bs := rfl

theorem read_mark (hb : b ≠ Ascii.quote) :
    read none (b :: bs) = (read none bs).map (.mark b :: ·) := by
  rw [read]
  exact hb

theorem read_byte (hb : b ≠ Ascii.quote) (hbs : b = Ascii.backslash → bs.head? ≠ some Ascii.quote) :
    read (some v) (b :: bs) = read (some (v ++ [b])) bs := by
  rw [read]
  · exact hb
  · rintro ds rfl rfl
    exact hbs rfl rfl

/-- What was read of a string stays at the beginning of its value. -/
theorem exists_quoted (h : read (some v) bs = some ts) :
    ∃ u ts', ts = .quoted ⟨v ++ u⟩ :: ts' := by
  generalize hvalue : some v = value at h
  fun_induction read value bs generalizing v ts with
  | case1 => cases hvalue
  | case2 => cases hvalue
  | case3 => cases hvalue
  | case4 => cases h
  | case5 w bs =>
    obtain rfl := Option.some.inj hvalue
    obtain ⟨ts', -, rfl⟩ := Option.map_eq_some_iff.mp h
    exact ⟨[], ts', by rw [List.append_nil]⟩
  | case6 w bs ih =>
    obtain rfl := Option.some.inj hvalue
    obtain ⟨u, ts', rfl⟩ := ih rfl h
    exact ⟨Ascii.quote :: u, ts', by simp⟩
  | case7 w b bs _ _ ih =>
    obtain rfl := Option.some.inj hvalue
    obtain ⟨u, ts', rfl⟩ := ih rfl h
    exact ⟨b :: u, ts', by simp⟩

theorem read_ne (hb : b ≠ Ascii.quote) :
    read (some (v ++ [Ascii.quote])) bs ≠ some (.quoted ⟨v ++ b :: t⟩ :: ts) := by
  intro h
  obtain ⟨u, ts', hts⟩ := exists_quoted h
  have hvalue : v ++ b :: t = v ++ [Ascii.quote] ++ u :=
    ByteString.mk.inj (Token.quoted.inj (List.cons.inj hts).1)
  rw [List.append_assoc] at hvalue
  exact hb (List.cons.inj (List.append_cancel_left hvalue)).1

/-- A byte with others behind it does not decide how a text ends. -/
theorem getLast?_cons_ne_iff (h : b ≠ Ascii.backslash ∨ t ≠ []) :
    (b :: t).getLast? ≠ some Ascii.backslash ↔ t.getLast? ≠ some Ascii.backslash := by
  cases t with
  | nil => simpa using h
  | cons d t => rw [List.getLast?_cons_cons]

theorem read_close :
    read (some v) (Ascii.quote :: rest) = some (.quoted ⟨v⟩ :: ts) ↔ read none rest = some ts := by
  simp [read_end]

/-- A text that stands in quotes as it is. -/
theorem read_raw_iff (v t rest : List UInt8) (ts : List Token) :
    read (some v) (t ++ Ascii.quote :: rest) = some (.quoted ⟨v ++ t⟩ :: ts) ↔
      (Ascii.quote ∉ t ∧ t.getLast? ≠ some Ascii.backslash) ∧ read none rest = some ts := by
  induction t generalizing v with
  | nil => simpa using read_close
  | cons b t ih =>
    by_cases hquote : b = Ascii.quote
    · subst hquote
      -- the string ends here, with a value that is too short
      simp [read_end]
    · by_cases hhidden : b = Ascii.backslash ∧ (t ++ Ascii.quote :: rest).head? = some Ascii.quote
      · obtain ⟨rfl, hhead⟩ := hhidden
        obtain ⟨bs, hbs⟩ := List.head?_eq_some_iff.mp hhead
        rw [List.cons_append, hbs, read_quote]
        refine iff_of_false (read_ne hquote) ?_
        rintro ⟨⟨hmem, hlast⟩, -⟩
        cases t with
        | nil => exact hlast rfl
        | cons d t =>
          obtain rfl : d = Ascii.quote := (List.cons.inj hbs).1
          simp at hmem
      · have hhead (h : b = Ascii.backslash) :
            (t ++ Ascii.quote :: rest).head? ≠ some Ascii.quote :=
          fun h' => hhidden ⟨h, h'⟩
        have hlast : b ≠ Ascii.backslash ∨ t ≠ [] := by
          by_contra hno
          rw [not_or, not_not, not_not] at hno
          obtain ⟨hb, rfl⟩ := hno
          exact hhead hb rfl
        rw [List.cons_append, read_byte hquote hhead, List.append_cons v b t, ih,
          getLast?_cons_ne_iff hlast, List.mem_cons, not_or]
        simp [Ne.symm hquote]

/-- A byte of a label as it is written. -/
def escaped (b : UInt8) : List UInt8 :=
  if b = Ascii.quote then [Ascii.backslash, Ascii.quote] else [b]

theorem escaped_quote : escaped Ascii.quote = [Ascii.backslash, Ascii.quote] := rfl

theorem escaped_of_ne (h : b ≠ Ascii.quote) : escaped b = [b] := if_neg h

/-- No written label begins with a quote. -/
theorem head?_escaped_ne (h : t ≠ []) :
    (t.flatMap escaped ++ rest).head? ≠ some Ascii.quote := by
  cases t with
  | nil => exact absurd rfl h
  | cons b t =>
    rw [List.flatMap_cons]
    by_cases hb : b = Ascii.quote
    · rw [hb, escaped_quote, List.cons_append, List.cons_append, List.head?_cons, ne_eq,
        Option.some.injEq]
      decide
    · simpa [escaped_of_ne hb] using hb

/-- A text with a backslash before each of its quotes. -/
theorem read_escaped_iff (v t rest : List UInt8) (ts : List Token) :
    read (some v) (t.flatMap escaped ++ Ascii.quote :: rest) = some (.quoted ⟨v ++ t⟩ :: ts) ↔
      t.getLast? ≠ some Ascii.backslash ∧ read none rest = some ts := by
  induction t generalizing v with
  | nil => simpa using read_close
  | cons b t ih =>
    rw [List.flatMap_cons]
    by_cases hquote : b = Ascii.quote
    · subst hquote
      simp only [escaped_quote, List.cons_append, List.nil_append]
      rw [read_quote, List.append_cons v Ascii.quote t, ih,
        getLast?_cons_ne_iff (.inl (by decide))]
    · rw [escaped_of_ne hquote, List.singleton_append, List.cons_append]
      by_cases hlast : b ≠ Ascii.backslash ∨ t ≠ []
      · have hhead (h : b = Ascii.backslash) :
            (t.flatMap escaped ++ Ascii.quote :: rest).head? ≠ some Ascii.quote :=
          head?_escaped_ne (hlast.resolve_left (not_not_intro h))
        rw [read_byte hquote hhead, List.append_cons v b t, ih, getLast?_cons_ne_iff hlast]
      · rw [not_or, not_not, not_not] at hlast
        obtain ⟨rfl, rfl⟩ := hlast
        rw [List.flatMap_nil, List.nil_append, read_quote]
        exact iff_of_false (read_ne hquote) (by simp)

/-! ### Pieces -/

/-- A part of a digraph. -/
inductive Piece where
  | outside (text : ByteString)
  | identifier (text : ByteString)
  | label (text : ByteString)

namespace Piece

/-- The piece as it is written. -/
def bytes : Piece → List UInt8
  | .outside t => t.bytes
  | .identifier t => Ascii.quote :: (t.bytes ++ [Ascii.quote])
  | .label t => Ascii.quote :: (t.bytes.flatMap escaped ++ [Ascii.quote])

/-- What the piece stands for. -/
def tokens : Piece → List Token
  | .outside t => t.bytes.map .mark
  | .identifier t | .label t => [.quoted t]

/-- The piece can be read back. -/
def Clean : Piece → Prop
  | .outside t => Ascii.quote ∉ t.bytes
  | .identifier t => Ascii.quote ∉ t.bytes ∧ t.bytes.getLast? ≠ some Ascii.backslash
  | .label t => t.bytes.getLast? ≠ some Ascii.backslash

instance : DecidablePred Clean
  | .outside _ => inferInstanceAs (Decidable (¬ _))
  | .identifier _ => inferInstanceAs (Decidable (_ ∧ _))
  | .label _ => inferInstanceAs (Decidable (¬ _))

end Piece

theorem read_outside_iff :
    read none (t ++ rest) = some (t.map .mark ++ ts) ↔
      Ascii.quote ∉ t ∧ read none rest = some ts := by
  induction t with
  | nil => simp
  | cons b t ih =>
    by_cases hquote : b = Ascii.quote
    · subst hquote
      refine iff_of_false (fun h => ?_) (by simp)
      have hopen :
          read (some []) (t ++ rest) = some (.mark Ascii.quote :: (t.map .mark ++ ts)) := by
        simpa [read_open] using h
      obtain ⟨u, ts', hts⟩ := exists_quoted hopen
      cases hts
    · rw [List.cons_append, read_mark hquote, List.map_cons, List.cons_append]
      simpa [Ne.symm hquote] using ih

theorem read_piece_iff (p : Piece) :
    read none (p.bytes ++ rest) = some (p.tokens ++ ts) ↔ p.Clean ∧ read none rest = some ts := by
  cases p with
  | outside t => exact read_outside_iff
  | identifier t =>
    have hraw := read_raw_iff [] t.bytes rest ts
    simpa [Piece.bytes, Piece.tokens, Piece.Clean, read_open] using hraw
  | label t =>
    have hescaped := read_escaped_iff [] t.bytes rest ts
    simpa [Piece.bytes, Piece.tokens, Piece.Clean, read_open] using hescaped

/-- A text made of pieces is read as what they stand for exactly if each of them can be read
back. -/
theorem read_pieces_iff (ps : List Piece) :
    read none (ps.flatMap Piece.bytes) = some (ps.flatMap Piece.tokens) ↔ ∀ p ∈ ps, p.Clean := by
  induction ps with
  | nil => simp [read]
  | cons p ps ih =>
    rw [List.flatMap_cons, List.flatMap_cons, read_piece_iff, ih, List.forall_mem_cons]

/-! ### Digraphs -/

def statePieces (c : Graph.Captions) (s : State) : List Piece :=
  [.outside "  ", .identifier s.name, .outside (" [shape=" ++ Graph.shape s ++ ",label="),
    .label (c.state s), .outside "];\n"]

def edgePieces (c : Graph.Captions) (g : Graph) (e : Edge) : List Piece :=
  [.outside "  ", .identifier (g.nameOf e.source), .outside " -> ",
    .identifier (g.nameOf e.target), .outside " [label=", .label (c.edge e),
    .outside (",style=" ++ Graph.lineStyle e.step ++ "];\n")]

/-- The pieces of a digraph: the start, a statement for each state and one for each edge. -/
def pieces (g : Graph) (c : Graph.Captions) : List Piece :=
  .outside ("digraph ProcessSystem \x7b\n" ++ "  rankdir=LR;\n" ++ "  node [shape=circle];\n" ++
      "\n" ++ "  start [shape=point];\n" ++ "  start -> ") ::
    .identifier (g.nameOf g.initial) :: .outside " [label=" :: .identifier "start" ::
    .outside ("];\n" ++ "\n") :: g.states.toList.flatMap (statePieces c) ++
  .outside "\n" :: g.edges.flatMap (edgePieces c g) ++ [.outside "\x7d\n"]

theorem bytes_inQuotes (t : ByteString) :
    (Graph.inQuotes t).bytes = Ascii.quote :: (t.bytes ++ [Ascii.quote]) :=
  rfl

theorem bytes_escapeLabel (t : ByteString) :
    (Graph.escapeLabel t).bytes = t.bytes.flatMap escaped :=
  rfl

theorem bytes_join (l : List ByteString) : (ByteString.join l).bytes = l.flatMap (·.bytes) :=
  rfl

theorem bytes_dotState (c : Graph.Captions) (s : State) :
    (Graph.dotState c s).bytes = (statePieces c s).flatMap Piece.bytes := by
  simp only [Graph.dotState, statePieces, Piece.bytes, ByteString.bytes_append, bytes_inQuotes,
    bytes_escapeLabel, List.flatMap_cons, List.flatMap_nil, List.append_assoc, List.append_nil,
    List.cons_append]

theorem bytes_dotEdge (c : Graph.Captions) (g : Graph) (e : Edge) :
    (Graph.dotEdge c g e).bytes = (edgePieces c g e).flatMap Piece.bytes := by
  simp only [Graph.dotEdge, edgePieces, Piece.bytes, ByteString.bytes_append, bytes_inQuotes,
    bytes_escapeLabel, List.flatMap_cons, List.flatMap_nil, List.append_assoc, List.append_nil,
    List.cons_append]

theorem bytes_dot (g : Graph) (c : Graph.Captions) :
    (g.dot c).bytes = (pieces g c).flatMap Piece.bytes := by
  simp only [Graph.dot, pieces, Piece.bytes, ByteString.bytes_append, bytes_inQuotes, bytes_join,
    List.flatMap_map, bytes_dotState, bytes_dotEdge, List.flatMap_cons, List.flatMap_append,
    List.flatMap_assoc, List.flatMap_nil, List.append_assoc, List.append_nil, List.cons_append]

theorem clean_statePieces_iff (c : Graph.Captions) (s : State) :
    (∀ p ∈ statePieces c s, p.Clean) ↔
      (Piece.identifier s.name).Clean ∧ (Piece.label (c.state s)).Clean := by
  have hshape : (Piece.outside (" [shape=" ++ Graph.shape s ++ ",label=")).Clean := by
    unfold Graph.shape
    cases s.place <;> decide
  have hindent : (Piece.outside "  ").Clean := by decide
  have hend : (Piece.outside "];\n").Clean := by decide
  simp [statePieces, hshape, hindent, hend]

theorem clean_edgePieces_iff (c : Graph.Captions) (g : Graph) (e : Edge) :
    (∀ p ∈ edgePieces c g e, p.Clean) ↔
      (Piece.identifier (g.nameOf e.source)).Clean ∧ (Piece.identifier (g.nameOf e.target)).Clean ∧
        (Piece.label (c.edge e)).Clean := by
  have hstyle : (Piece.outside (",style=" ++ Graph.lineStyle e.step ++ "];\n")).Clean := by
    unfold Graph.lineStyle
    split
    · decide
    · split <;> decide
  have hindent : (Piece.outside "  ").Clean := by decide
  have harrow : (Piece.outside " -> ").Clean := by decide
  have hlabel : (Piece.outside " [label=").Clean := by decide
  simp [edgePieces, hstyle, hindent, harrow, hlabel]

theorem clean_pieces_iff (g : Graph) (c : Graph.Captions) :
    (∀ p ∈ pieces g c, p.Clean) ↔
      (Piece.identifier (g.nameOf g.initial)).Clean ∧
      (∀ s ∈ g.states.toList, (Piece.identifier s.name).Clean ∧ (Piece.label (c.state s)).Clean) ∧
      ∀ e ∈ g.edges, (Piece.identifier (g.nameOf e.source)).Clean ∧
        (Piece.identifier (g.nameOf e.target)).Clean ∧ (Piece.label (c.edge e)).Clean := by
  have hhead : (Piece.outside ("digraph ProcessSystem \x7b\n" ++ "  rankdir=LR;\n" ++
      "  node [shape=circle];\n" ++ "\n" ++ "  start [shape=point];\n" ++
      "  start -> ")).Clean := by
    decide
  have hlabel : (Piece.outside " [label=").Clean := by decide
  have hstart : (Piece.identifier "start").Clean := by decide
  have hend : (Piece.outside ("];\n" ++ "\n")).Clean := by decide
  have hline : (Piece.outside "\n").Clean := by decide
  have hclose : (Piece.outside "\x7d\n").Clean := by decide
  simp only [pieces, List.cons_append, List.forall_mem_cons, List.forall_mem_append,
    List.forall_mem_flatMap, clean_statePieces_iff, clean_edgePieces_iff, hhead, hlabel, hstart,
    hend, hline, hclose, true_and, List.not_mem_nil, false_implies, implies_true, and_true]

/-! ### Identifiers -/

variable {sys : ProcessSystem} {g : Graph}

theorem ne_of_mem_suffix {a : Spot} (h : b ∈ a.suffix.bytes) :
    b ≠ Ascii.quote ∧ b ≠ Ascii.backslash := by
  have hdigit {n : Nat} (h : b ∈ digits n) : b ≠ Ascii.quote ∧ b ≠ Ascii.backslash := by
    have hb := isDigit_of_mem h
    constructor
    · rintro rfl
      cases hb
    · rintro rfl
      cases hb
  cases a with
  | entry => cases h
  | exit =>
    rw [Spot.bytes_exit] at h
    simp only [List.mem_cons, List.not_mem_nil, or_false] at h
    rcases h with rfl | rfl | rfl | rfl | rfl <;> decide
  | position i k =>
    rw [Spot.bytes_position] at h
    simp only [List.cons_append, List.mem_cons, List.mem_append] at h
    rcases h with rfl | rfl | h | rfl | h
    · decide
    · decide
    · exact hdigit h
    · decide
    · exact hdigit h

/-- A suffix spoils no name. -/
theorem clean_append {p : Name} (h : (Piece.identifier p).Clean) (a : Spot) :
    (Piece.identifier (p ++ a.suffix)).Clean := by
  obtain ⟨hquote, hlast⟩ := h
  constructor
  · rw [ByteString.bytes_append, List.mem_append]
    rintro (hmem | hmem)
    · exact hquote hmem
    · exact (ne_of_mem_suffix hmem).1 rfl
  · rw [ByteString.bytes_append, List.getLast?_append]
    cases hsuffix : a.suffix.bytes.getLast? with
    | none => simpa using hlast
    | some b =>
      have hb := (ne_of_mem_suffix (List.mem_of_getLast? hsuffix)).2
      simpa using hb

theorem clean_nameOf (h : ∀ s ∈ g.states.toList, (Piece.identifier s.name).Clean) (v : Nat) :
    (Piece.identifier (g.nameOf v)).Clean := by
  unfold Graph.nameOf
  cases hs : g.states[v]? with
  | none => decide
  | some s => exact h s (Array.mem_toList_iff.mpr (Array.mem_of_getElem? hs))

/-- Identifiers can be read back exactly if the names of the processes can. -/
theorem clean_names_iff (hg : Graph.expand sys = .ok g) :
    (∀ s ∈ g.states.toList, (Piece.identifier s.name).Clean) ↔
      ∀ p ∈ g.processes, (Piece.identifier p).Clean := by
  constructor
  · intro h p hp
    obtain ⟨s, hs, hplace, rfl⟩ := Graph.mem_processes.mp hp
    have hname := h s hs
    rwa [State.name, hplace] at hname
  · intro h s hs
    obtain ⟨a, hname⟩ := Graph.exists_suffix hg hs
    rw [hname]
    exact clean_append (h _ (Graph.process_mem hg hs)) a

/-- What a digraph stands for. -/
def tokens (g : Graph) (c : Graph.Captions) : List Token :=
  (pieces g c).flatMap Piece.tokens

/-- Each quoted string of a digraph is read as the text it stands for, exactly if no name of a
process has a quote in it or a backslash at its end, and no label has a backslash at its end. -/
theorem read_dot_iff (hg : Graph.expand sys = .ok g) (c : Graph.Captions) :
    read none (g.dot c).bytes = some (tokens g c) ↔
      (∀ p ∈ g.processes,
        Ascii.quote ∉ p.bytes ∧ p.bytes.getLast? ≠ some Ascii.backslash) ∧
      (∀ s ∈ g.states.toList, (c.state s).bytes.getLast? ≠ some Ascii.backslash) ∧
      ∀ e ∈ g.edges, (c.edge e).bytes.getLast? ≠ some Ascii.backslash := by
  rw [bytes_dot, tokens, read_pieces_iff, clean_pieces_iff]
  constructor
  · rintro ⟨-, hstates, hedges⟩
    have hnames := (clean_names_iff hg).mp fun s hs => (hstates s hs).1
    exact ⟨hnames, fun s hs => (hstates s hs).2, fun e he => (hedges e he).2.2⟩
  · rintro ⟨hnames, hstates, hedges⟩
    have hclean := (clean_names_iff hg).mpr hnames
    have hnameOf := clean_nameOf hclean
    exact ⟨hnameOf _, fun s hs => ⟨hclean s hs, hstates s hs⟩,
      fun e he => ⟨hnameOf _, hnameOf _, hedges e he⟩⟩

/-- Labels full of quotes, and a name with a backslash in it. -/
theorem read_dot_iff_quotes :
    let sys := ProcessSystem.ofDefinitions "a\\b" [
      { name := "a\\b", rules := [[.act "\"" .must, .act "c\\\"" .may]] }]
    let captions : Graph.Captions :=
      { state := fun s => "\"" ++ s.name ++ "\"", edge := fun e => e.step.action }
    ∃ g, Graph.expand sys = .ok g ∧
      read none (g.dot captions).bytes = some (tokens g captions) := by
  intro sys captions
  have hg : Graph.expand sys = .ok (.ofSystem sys) := Graph.expand_eq_ok.mpr ⟨rfl, rfl⟩
  exact ⟨_, hg, (read_dot_iff hg captions).mpr (by decide)⟩

/-- A process with a quote in its name: its identifiers end too early. -/
theorem read_dot_broken :
    ¬ ∀ (sys : ProcessSystem) (g : Graph) (c : Graph.Captions), Graph.expand sys = .ok g →
      read none (g.dot c).bytes = some (tokens g c) := by
  intro h
  have hread := h (.ofDefinitions "a\"b" [{ name := "a\"b", rules := [[.act "c" .must]] }]) _
    Graph.captions (Graph.expand_eq_ok.mpr ⟨rfl, rfl⟩)
  rw [bytes_dot, tokens, read_pieces_iff, clean_pieces_iff] at hread
  exact absurd hread.1 (by decide)

end MuProc.Dot
