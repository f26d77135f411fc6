import MuProc.Process.Diagram
import MuProc.Proofs.ByteStrings
import MuProc.Proofs.ReadBack
import MuProc.Proofs.Verdicts
import Mathlib.Data.List.Nodup
import Std.Data.String.ToNat

/-!
# Names of states

The entry of a process has the name of the process, and its other states have a suffix behind
that name. No two suffixes can be confused, wherever the name of the process ends, so two states
share a name only if one of them is an entry and the other is not: a process may be named like
the exit or a position of another one. Such processes are accepted. Where there are none, names
tell states apart in diagrams and in the values that a check assigns.
-/

namespace MuProc

/-! ### Suffixes -/

/-- Where in its process a state lies, with the numbers of its rule and of the step before it. -/
inductive Spot where
  | entry
  | exit
  | position (rule pos : Nat)

/-- The bytes of a number as it is written. -/
def digits (n : Nat) : List UInt8 :=
  (ByteString.ofText (toString n)).bytes

def isDigit (b : UInt8) : Bool :=
  48 ≤ b && b ≤ 57

theorem isDigit_of_mem {n : Nat} {b : UInt8} (h : b ∈ digits n) : isDigit b = true := by
  obtain ⟨c, hc, hb⟩ := List.mem_flatMap.mp h
  rw [Nat.toString_eq_ofList_toDigits, String.toList_ofList] at hc
  have hdigit := Nat.isDigit_of_mem_toDigits (by decide) (by decide) hc
  obtain ⟨hlow, hhigh⟩ : 48 ≤ c.toNat ∧ c.toNat ≤ 57 := Char.isDigit_iff_toNat.mp hdigit
  rw [ByteString.utf8EncodeChar_of_lt (by omega), List.mem_singleton] at hb
  have hnat : b.toNat = c.toNat := by
    rw [hb, UInt8.toNat_ofNat']
    omega
  simp only [isDigit, Bool.and_eq_true, decide_eq_true_eq, UInt8.le_iff_toNat_le, hnat]
  exact ⟨hlow, hhigh⟩

theorem dot_notMem (n : Nat) : Ascii.dot ∉ digits n := by
  intro h
  exact absurd (isDigit_of_mem h) (by decide)

theorem dot_notMem_rule (n : Nat) : Ascii.dot ∉ 114 :: digits n := by
  rw [List.mem_cons, not_or]
  exact ⟨by decide, dot_notMem n⟩

theorem digits_injective {m n : Nat} (h : digits m = digits n) : m = n := by
  have htext := ByteString.ofText_injective (ByteString.ext h)
  rw [Nat.toString_eq_repr, Nat.toString_eq_repr] at htext
  exact Nat.repr_injective htext

namespace Spot

def place : Spot → Place
  | .entry => .entry
  | .exit => .exit
  | .position .. => .position

/-- What the name of a state has behind the name of its process. -/
def suffix : Spot → ByteString
  | .entry => ""
  | .exit => ".exit"
  | .position i k => ".r" ++ toString i ++ "." ++ toString (k + 1)

variable {a b : Spot}

theorem place_eq_entry_iff : a.place = .entry ↔ a = .entry := by
  cases a <;> simp [place]

theorem bytes_entry : entry.suffix.bytes = [] := rfl

theorem bytes_exit : exit.suffix.bytes = Ascii.dot :: [101, 120, 105, 116] := rfl

theorem bytes_position (i k : Nat) : (position i k).suffix.bytes =
    Ascii.dot :: (114 :: digits i ++ Ascii.dot :: digits (k + 1)) := by
  show [Ascii.dot, 114] ++ digits i ++ [Ascii.dot] ++ digits (k + 1) = _
  simp

/-- A suffix that is not empty begins with a dot and a letter. -/
theorem exists_letter (h : a ≠ .entry) :
    ∃ c rest, a.suffix.bytes = Ascii.dot :: c :: rest ∧ isDigit c = false := by
  cases a with
  | entry => exact absurd rfl h
  | exit => exact ⟨_, _, bytes_exit, by decide⟩
  | position i k => exact ⟨_, _, bytes_position i k, by decide⟩

/-- No suffix has another one at its end. -/
theorem eq_nil_of_append {cs : List UInt8} (h : a.suffix.bytes = cs ++ b.suffix.bytes)
    (hb : b ≠ .entry) : cs = [] := by
  obtain ⟨c, rest, hrest, hc⟩ := exists_letter hb
  rw [hrest] at h
  cases cs with
  | nil => rfl
  | cons d cs =>
    exfalso
    cases a with
    | entry => cases h
    | exit =>
      obtain ⟨-, htail⟩ := List.cons.inj (bytes_exit.symm.trans h)
      have hdot : Ascii.dot ∈ [101, 120, 105, 116] := htail ▸ List.mem_append_right cs (by simp)
      exact absurd hdot (by decide)
    | position i k =>
      -- the dot between the two numbers is the only other one, and a digit follows it
      obtain ⟨-, htail⟩ := List.cons.inj ((bytes_position i k).symm.trans h)
      obtain ⟨-, -, hdigits⟩ := (List.append_cons_inj_of_notMem
        (dot_notMem_rule i) (dot_notMem (k + 1))).mp htail
      have hmem : c ∈ digits (k + 1) := hdigits ▸ List.mem_cons_self ..
      rw [isDigit_of_mem hmem] at hc
      cases hc

theorem suffix_injective (h : a.suffix.bytes = b.suffix.bytes) : a = b := by
  cases a with
  | entry =>
    cases b with
    | entry => rfl
    | exit => cases h
    | position i k => rw [bytes_entry, bytes_position] at h; cases h
  | exit =>
    cases b with
    | entry => cases h
    | exit => rfl
    | position i k => rw [bytes_exit, bytes_position] at h; cases h
  | position i k =>
    cases b with
    | entry => rw [bytes_entry, bytes_position] at h; cases h
    | exit => rw [bytes_exit, bytes_position] at h; cases h
    | position i' k' =>
      rw [bytes_position, bytes_position, List.cons.injEq, List.append_cons_inj_of_notMem
        (dot_notMem_rule i) (dot_notMem (k + 1))] at h
      obtain ⟨-, hi, -, hk⟩ := h
      have hrule := digits_injective (List.cons.inj hi).2
      have hpos := digits_injective hk
      rw [hrule, Nat.add_right_cancel hpos]

/-- Names that agree are split alike, unless a process has the whole of the other name. -/
theorem eq_of_append {p q : Name} (h : p ++ a.suffix = q ++ b.suffix)
    (hentry : a = .entry ↔ b = .entry) : p = q ∧ a = b := by
  have happend : p.bytes ++ a.suffix.bytes = q.bytes ++ b.suffix.bytes := by
    rw [← ByteString.bytes_append, h, ByteString.bytes_append]
  have hsplit : p.bytes = q.bytes ∧ a.suffix.bytes = b.suffix.bytes := by
    by_cases hb : b = .entry
    · obtain rfl := hentry.mpr hb
      subst hb
      exact ⟨by simpa [bytes_entry] using happend, rfl⟩
    · have ha : a ≠ .entry := fun ha => hb (hentry.mp ha)
      rcases List.append_eq_append_iff.mp happend with ⟨cs, hq, hs⟩ | ⟨cs, hp, hs⟩
      · obtain rfl := eq_nil_of_append hs hb
        exact ⟨by simpa using hq.symm, by simpa using hs⟩
      · obtain rfl := eq_nil_of_append hs ha
        exact ⟨by simpa using hp, by simpa using hs.symm⟩
  exact ⟨ByteString.ext hsplit.1, suffix_injective hsplit.2⟩

end Spot

/-! ### States of a graph -/

namespace Graph

/-- The state of a lane at a spot. -/
def Lane.number? (l : Lane) : Spot → Option Nat
  | .entry => some l.entry
  | .exit => some l.exit
  | .position i k => l.chains[i]?.bind (·.positions[k]?)

variable {sys : ProcessSystem} {g : Graph} {lanes : List Lane} {s t : State} {p : Name} {v w : Nat}

/-- Every state stands at a spot of a lane, and has the suffix of that spot. -/
theorem exists_spot (h : Accounts sys (lanes.map (·.process)) ∅ [] lanes g)
    (hs : s ∈ g.states.toList) :
    ∃ v, g.states[v]? = some s ∧ ∃ l ∈ lanes, ∃ a, l.number? a = some v ∧
      s.process = l.process ∧ s.place = a.place ∧ s.name = l.process ++ a.suffix := by
  obtain ⟨v, hs⟩ := List.getElem?_of_mem hs
  rw [Array.getElem?_toList] at hs
  obtain ⟨l, hl, hprocess, hkind⟩ := h.state_cases hs
  have hlies := h.lies hl
  refine ⟨v, hs, l, hl, ?_⟩
  rcases hkind with ⟨hplace, rfl, -⟩ | ⟨hplace, rfl, -⟩ | ⟨hplace, -, i, c, hc, hv⟩
  · exact ⟨.entry, rfl, hprocess, hplace, by simp [State.name, hplace, hprocess, Spot.suffix]⟩
  · exact ⟨.exit, rfl, hprocess, hplace, by simp [State.name, hplace, hprocess, Spot.suffix]⟩
  · obtain ⟨k, hk⟩ := List.getElem?_of_mem hv
    have hstate := (hlies.chains i c hc).states k v hk
    obtain rfl := Option.some.inj (hs.symm.trans hstate)
    refine ⟨.position i k, by rw [Lane.number?, hc, Option.bind_some, hk], rfl, rfl, ?_⟩
    rw [Nat.zero_add]
    simp only [State.name, Spot.suffix, ByteString.append_assoc]
    rfl

theorem nodup_states (hg : expand sys = .ok g) : g.states.toList.Nodup := by
  obtain ⟨-, rfl⟩ := expand_eq_ok.mp hg
  have hids : (ofSystem sys).states.toList.map (·.id) = List.range (ofSystem sys).size := by
    apply List.ext_getElem?
    intro k
    rw [List.getElem?_map, Array.getElem?_toList]
    cases hs : (ofSystem sys).states[k]? with
    | none => simpa [size] using hs
    | some s =>
      have hk := (Array.getElem?_eq_some_iff.mp hs).1
      rw [Option.map_some, (ofSystem_wellFormed sys).1.id_eq k s hs]
      exact (List.getElem?_range hk).symm
  exact .of_map (·.id) (hids ▸ List.nodup_range)

theorem mem_processes :
    p ∈ g.processes ↔ ∃ s ∈ g.states.toList, s.place = .entry ∧ s.process = p := by
  simp [processes, and_assoc]

theorem name_entry (h : s.place = .entry) : s.name = s.process := by
  rw [State.name, h]

/-- Of two states with one name, one is an entry and the other is not. -/
theorem eq_of_name (hg : expand sys = .ok g) (hs : s ∈ g.states.toList)
    (ht : t ∈ g.states.toList) (hname : s.name = t.name)
    (hentry : s.place = .entry ↔ t.place = .entry) : s = t := by
  obtain ⟨hsys, rfl⟩ := expand_eq_ok.mp hg
  obtain ⟨lanes, h⟩ := ofSystem_lanes hsys
  obtain ⟨v, hv, l, hl, a, ha, -, hsa, hsname⟩ := exists_spot h hs
  obtain ⟨w, hw, m, hm, b, hb, -, htb, htname⟩ := exists_spot h ht
  have hspots : a = .entry ↔ b = .entry := by
    rwa [hsa, htb, Spot.place_eq_entry_iff, Spot.place_eq_entry_iff] at hentry
  rw [hsname, htname] at hname
  obtain ⟨hprocess, rfl⟩ := Spot.eq_of_append hname hspots
  obtain rfl := List.inj_on_of_nodup_map h.nodup hl hm hprocess
  obtain rfl := Option.some.inj (ha.symm.trans hb)
  exact Option.some.inj (hv.symm.trans hw)

theorem nodup_names_iff (hg : expand sys = .ok g) :
    (g.states.toList.map State.name).Nodup ↔
      ∀ p ∈ g.processes, ∀ s ∈ g.states.toList, s.place ≠ .entry → s.name ≠ p := by
  rw [List.nodup_map_iff_inj_on (nodup_states hg)]
  constructor
  · intro h p hp s hs hplace hname
    obtain ⟨t, ht, htplace, rfl⟩ := mem_processes.mp hp
    obtain rfl := h s hs t ht (hname.trans (name_entry htplace).symm)
    exact hplace htplace
  · intro h s hs t ht hname
    have hclash {s t : State} (hs : s ∈ g.states.toList) (ht : t ∈ g.states.toList)
        (hname : s.name = t.name) (hplace : s.place = .entry) : t.place = .entry := by
      by_contra hne
      have hp := mem_processes.mpr ⟨s, hs, hplace, rfl⟩
      exact h _ hp t ht hne (hname.symm.trans (name_entry hplace))
    exact eq_of_name hg hs ht hname ⟨hclash hs ht hname, hclash ht hs hname.symm⟩

theorem process_mem (hg : expand sys = .ok g) (hs : s ∈ g.states.toList) :
    s.process ∈ g.processes := by
  obtain ⟨hsys, rfl⟩ := expand_eq_ok.mp hg
  obtain ⟨lanes, h⟩ := ofSystem_lanes hsys
  obtain ⟨-, -, l, hl, -, -, hprocess, -⟩ := exists_spot h hs
  exact mem_processes.mpr ⟨_, Array.mem_toList_iff.mpr (Array.mem_of_getElem? (h.lies hl).entry),
    rfl, hprocess.symm⟩

theorem exists_suffix (hg : expand sys = .ok g) (hs : s ∈ g.states.toList) :
    ∃ a : Spot, s.name = s.process ++ a.suffix := by
  obtain ⟨hsys, rfl⟩ := expand_eq_ok.mp hg
  obtain ⟨lanes, h⟩ := ofSystem_lanes hsys
  obtain ⟨-, -, l, -, a, -, hprocess, -, hname⟩ := exists_spot h hs
  exact ⟨a, hprocess ▸ hname⟩

theorem names_getElem? (hv : v < g.size) :
    (g.states.toList.map State.name)[v]? = some (g.nameOf v) := by
  rw [List.getElem?_map, Array.getElem?_toList, nameOf, Array.getElem?_eq_getElem hv]
  rfl

theorem nameOf_inj (h : (g.states.toList.map State.name).Nodup) (hv : v < g.size)
    (hw : w < g.size) : g.nameOf v = g.nameOf w ↔ v = w := by
  have hlength : v < (g.states.toList.map State.name).length := by
    rw [List.length_map, Array.length_toList]
    exact hv
  rw [← List.getElem?_inj hlength h, names_getElem? hv, names_getElem? hw, Option.some.injEq]

end Graph

/-! ### Assigned values -/

theorem lookup_of_nodup {α β : Type} [BEq α] [LawfulBEq α] {l : List (α × β)} {a : α} {b : β}
    (h : (l.map Prod.fst).Nodup) (hmem : (a, b) ∈ l) : l.lookup a = some b := by
  induction l with
  | nil => cases hmem
  | cons x l ih =>
    rw [List.map_cons, List.nodup_cons] at h
    rw [List.lookup_cons]
    rcases List.mem_cons.mp hmem with rfl | hmem
    · simp
    · have hne : a ≠ x.1 := by
        intro heq
        exact h.1 (heq ▸ List.mem_map_of_mem hmem)
      rw [beq_false_of_ne hne]
      exact ih h.2 hmem

variable {sys : ProcessSystem} {idx : Index} {g : Graph} {r : Result} {v : Nat}

namespace Checked

theorem names_eq (h : Checked idx g r) :
    r.graph.nodes.toList.map (·.state.name) = g.states.toList.map State.name := by
  apply List.ext_getElem?
  intro v
  rw [List.getElem?_map, List.getElem?_map, Array.getElem?_toList, Array.getElem?_toList]
  cases hn : r.graph.nodes[v]? with
  | none =>
    have hsize : g.states.size ≤ v := by
      rw [Array.getElem?_eq_none_iff, h.built.size_eq] at hn
      exact hn
    rw [Array.getElem?_eq_none hsize]
    rfl
  | some n => rw [(h.built.isNode v n hn).state_eq, Option.map_some, Option.map_some]

theorem assign_size (h : Checked idx g r) : r.assign.size = g.size :=
  h.solved.sound.valid.size_eq.trans h.built.size_eq

theorem keys_eq (h : Checked idx g r) :
    r.assignments.map Prod.fst = g.states.toList.map State.name := by
  rw [Result.assignments, h.names_eq]
  apply List.map_fst_zip
  rw [List.length_map, Array.length_toList, Array.length_toList, h.assign_size]
  exact Nat.le_refl _

theorem mem_assignments (h : Checked idx g r) (hv : v < g.size) :
    ∃ t, r.assign[v]? = some t ∧ (g.nameOf v, t) ∈ r.assignments := by
  obtain ⟨t, hvalue⟩ : ∃ t, r.assign[v]? = some t :=
    ⟨_, Array.getElem?_eq_getElem (h.assign_size.symm ▸ hv)⟩
  refine ⟨t, hvalue, List.mem_of_getElem? (i := v) ?_⟩
  rw [Result.assignments, h.names_eq, List.getElem?_zip_eq_some]
  exact ⟨Graph.names_getElem? hv, Array.getElem?_toList.trans hvalue⟩

/-- With distinct names, the value kept for the name of a state is the value of that state. -/
theorem assignment?_nameOf (h : Checked idx g r)
    (hnames : (g.states.toList.map State.name).Nodup) (hv : v < g.size) :
    ∃ t, r.assign[v]? = some t ∧ r.assignment? (g.nameOf v) = some t := by
  obtain ⟨t, ht, hmem⟩ := h.mem_assignments hv
  refine ⟨t, ht, lookup_of_nodup ?_ (List.mem_reverse.mpr hmem)⟩
  rw [List.map_reverse, List.nodup_reverse, h.keys_eq]
  exact hnames

end Checked

/-- The names of the states are distinct exactly if no process is named like a state of another
kind than an entry. Then a diagram has an identifier for each state, and a check keeps a value
for each node, its own one. -/
theorem stateNames_distinct_iff (hg : Graph.expand sys = .ok g) :
    ((g.states.toList.map State.name).Nodup ↔
      ∀ p ∈ g.processes, ∀ s ∈ g.states.toList, s.place ≠ .entry → s.name ≠ p) ∧
    ((g.states.toList.map State.name).Nodup →
      (∀ v w, v < g.size → w < g.size → (g.nameOf v = g.nameOf w ↔ v = w)) ∧
      ∀ sys' f o r, CheckOptions.start o sys' = sys → check sys' f o = .ok r →
        r.graph.nodes.size = g.size ∧ (r.assignments.map Prod.fst).Nodup ∧
        r.assignments.length = g.size ∧
        ∀ v < g.size, ∃ t, r.assign[v]? = some t ∧ r.assignment? (g.nameOf v) = some t) := by
  refine ⟨Graph.nodup_names_iff hg, fun hnames =>
    ⟨fun v w hv hw => Graph.nameOf_inj hnames hv hw, ?_⟩⟩
  rintro sys' f o r rfl hr
  obtain ⟨-, hsys, idx, hidx, -⟩ := stages_of_check hr
  obtain ⟨-, rfl⟩ := Graph.expand_eq_ok.mp hg
  have hchecked := checked_of_check hidx hsys hr
  refine ⟨hchecked.built.size_eq, hchecked.keys_eq ▸ hnames, ?_,
    fun v hv => hchecked.assignment?_nameOf hnames hv⟩
  rw [← List.length_map Prod.fst, hchecked.keys_eq, List.length_map, Array.length_toList]
  rfl

/-- A process has the first part of the name of a position, and yet all names are distinct. -/
theorem stateNames_distinct_iff_dotted :
    let sys := ProcessSystem.ofDefinitions "P" [
      { name := "P", rules := [[.act "a" .must, .run "P.r0"]] },
      { name := "P.r0", rules := [[.act "b" .may]] }]
    ∃ g r, Graph.expand sys = .ok g ∧ check sys (.dia "a" .tt) = .ok r ∧
      (g.states.toList.map State.name).Nodup ∧ r.assignments.length = 5 ∧
      ∀ v < g.size, ∃ t, r.assign[v]? = some t ∧ r.assignment? (g.nameOf v) = some t := by
  intro sys
  have hg : Graph.expand sys = .ok (.ofSystem sys) := Graph.expand_eq_ok.mpr ⟨rfl, rfl⟩
  obtain ⟨idx, hidx⟩ : ∃ idx, Index.ofFormula (Formula.normal (.dia "a" .tt)) = .ok idx := ⟨_, rfl⟩
  obtain ⟨r, hr⟩ : ∃ r, check sys (.dia "a" .tt) = .ok r := by
    refine exists_check rfl rfl hidx ?_
    obtain rfl := Except.ok.inj hidx
    decide
  obtain ⟨hdistinct, hrest⟩ := stateNames_distinct_iff hg
  have hnames := hdistinct.mpr (by decide)
  obtain ⟨-, -, hlength, hvalue⟩ := (hrest hnames).2 _ _ _ r rfl hr
  exact ⟨_, r, hg, hr, hnames, hlength, hvalue⟩

/-- A process named like the exit of its caller: two states share a name. -/
theorem stateNames_clash :
    ¬ ∀ (sys : ProcessSystem) (g : Graph), Graph.expand sys = .ok g →
      ∀ (v w : Nat) (s t : State), g.states[v]? = some s → g.states[w]? = some t →
        s.name = t.name → v = w := by
  intro h
  have hclash := h (.ofDefinitions "P" [
      { name := "P", rules := [[.run "P.exit"]] },
      { name := "P.exit", rules := [[.act "a" .must]] }]) _ (Graph.expand_eq_ok.mpr ⟨rfl, rfl⟩)
    1 2 _ _ rfl rfl rfl
  cases hclash

end MuProc
