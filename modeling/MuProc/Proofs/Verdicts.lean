import MuProc.Proofs.Correctness
import MuProc.Proofs.Layouts

/-!
# Answers of a check

A check has a result exactly if the options are accepted, the formula can be numbered and is
not too large, and the system is valid. The answers of a result are values of the functions
that were found for a node; at a terminated process they are the truth of subformulas.
-/

namespace MuProc

open DependencyGraph (stackBits_node)

theorem Space.dim_le_of_make {n : Int} {order : Option (List Int)} {sp : Space}
    (h : make n order = .ok sp) : sp.dim ≤ maxDim := by
  unfold make at h
  split at h
  · cases h
  · obtain ⟨l, -, h⟩ := Fold.bind_eq_ok.mp h
    split at h
    · cases h
    · rename_i hle
      obtain rfl := Except.ok.inj h
      exact Nat.not_lt.mp hle

theorem Index.root_eq {f : Formula} {idx : Index} (h : Index.ofFormula f = .ok idx) :
    idx.root = f.size - 1 := by
  obtain ⟨n, rfl, hsize, -, -⟩ := Index.laid_of_ofFormula h
  exact congrArg (· - 1) hsize

variable {sys : ProcessSystem} {f : Formula} {o : CheckOptions} {idx : Index} {pg : Graph}
  {r : Result} {p : Name} {v i : Nat}

theorem mapError_eq_ok {α ε ε' : Type} {g : ε → ε'} {x : Except ε α} {a : α} :
    x.mapError g = .ok a ↔ x = .ok a := by
  cases x <;> simp [Except.mapError]

/-- Where a check has a result, every stage before it succeeded. -/
theorem stages_of_check (h : check sys f o = .ok r) :
    o.validate = .ok () ∧ (o.start sys).validate = .ok () ∧
      ∃ idx, Index.ofFormula f.normal = .ok idx ∧ idx.size ≤ Space.maxDim := by
  simp only [check, equations, Fold.bind_eq_ok, mapError_eq_ok, Graph.expand_eq_ok] at h
  obtain ⟨_, ho, g, ⟨idx, hidx, pg, ⟨hsys, -⟩, sp, hsp, -⟩, -⟩ := h
  have hdim : sp.dim = idx.size := by exact_mod_cast (Space.proper_of_make hsp).2
  exact ⟨ho, hsys, idx, hidx, hdim ▸ Space.dim_le_of_make hsp⟩

theorem exists_check (ho : o.validate = .ok ()) (hsys : (o.start sys).validate = .ok ())
    (hidx : Index.ofFormula f.normal = .ok idx) (hsize : idx.size ≤ Space.maxDim) :
    ∃ r, check sys f o = .ok r := by
  obtain ⟨sp, hsp⟩ := Space.make_order (Index.wellFormed_of_ofFormula hidx) hsize
  obtain ⟨r, hr, -⟩ := check_spec ho hidx hsys hsp
  exact ⟨r, hr o.invariants⟩

/-! ### Values -/

namespace Checked

theorem valueAt? (h : Checked idx pg r) (hv : v < pg.size) (hi : i < idx.size) {bits : List Bool}
    (hlen : bits.length = idx.size) :
    r.valueAt? v i bits = some (r.assign.meaning r.graph.space v i fun j => bits.getD j false) := by
  have hcoh := h.built.coherent
  have hdim : r.graph.space.dim = idx.size := by rw [hcoh.dim_eq, h.built.index_eq]
  obtain ⟨t, ht, hvalid, hmeaning⟩ := h.solved.sound.valid.getElem? (h.built.size_eq.symm ▸ hv)
  obtain ⟨φ, hφ, hfits, hmono, heval⟩ := hvalid.getElem? (hdim.symm ▸ hi)
  have hle : bits.length ≤ r.graph.space.dim := by omega
  have hbits := Space.eval?_of_monotone hcoh.space hfits hmono hle
  have hvalue : r.valueAt? v i bits = r.graph.space.eval? φ bits := by
    show (r.assign[v]?.bind fun t => t[i]?.bind fun φ => r.graph.space.eval? φ bits) = _
    rw [ht, Option.bind_some, hφ, Option.bind_some]
  rw [hvalue, hbits, heval, hmeaning]
  refine congrArg some (hvalid.meaning_congr hcoh.space fun j hj => ?_)
  have hj : j < bits.length := by omega
  simp [hj]

theorem root_lt (h : Checked idx pg r) : idx.root < idx.size := by
  have hroot := h.built.coherent.index.root_lt
  rwa [h.built.index_eq] at hroot

/-- In front of a terminated process, a stack of one state has the values of that state. -/
theorem stackBits_singleton (h : Checked idx pg r) (hv : v < pg.size) (i : Nat) :
    r.stackBits [v] i = r.assign.meaning r.graph.space v i fun j => r.terminal.getD j false := by
  rw [Result.stackBits, stackBits_node (h.built.size_eq.symm ▸ hv)]
  rfl

theorem verdict?_eq (h : Checked idx pg r) :
    r.verdict? = some (r.stackBits [pg.initial] idx.root) := by
  have hv : pg.initial < pg.size := by
    rw [← h.built.initial_eq, ← h.built.size_eq]
    exact h.built.coherent.initial_lt
  rw [Result.verdict?, h.built.initial_eq, h.built.index_eq,
    h.valueAt? hv h.root_lt h.length_terminal, h.stackBits_singleton hv]

theorem entry?_eq (h : Checked idx pg r) (p : Name) :
    r.graph.entry? p = (pg.entry? p).map Int.ofNat := by
  rw [DependencyGraph.entry?, h.built.entry_eq]
  exact DependencyGraph.lookup_entryNumbers pg p

theorem entry_eq (h : Checked idx pg r) (hv : pg.entry? p = some v) : r.entry p = .ok v := by
  rw [Result.entry, h.entry?_eq, hv]
  rfl

theorem entry_lt (hpg : pg.WellFormed) (hv : pg.entry? p = some v) : v < pg.size := by
  obtain ⟨s, hs, -⟩ := hpg.entry?_place hv
  exact (Array.getElem?_eq_some_iff.mp hs).1

theorem holdsUnder_eq (h : Checked idx pg r) (hpg : pg.WellFormed) (hv : pg.entry? p = some v)
    (bits : List Bool) :
    r.holdsUnder p bits =
      if bits.length = idx.size then
        .ok (r.assign.meaning r.graph.space v idx.root fun j => bits.getD j false)
      else .error (.inputLength bits.length idx.size) := by
  rw [Result.holdsUnder, h.entry_eq hv, Fold.ok_bind, h.built.index_eq]
  by_cases hlen : bits.length = idx.size
  · rw [if_neg (not_not_intro hlen), if_pos hlen, h.valueAt? (entry_lt hpg hv) h.root_lt hlen]
    rfl
  · rw [if_pos hlen, if_neg hlen]
    rfl

theorem holds_eq (h : Checked idx pg r) (hpg : pg.WellFormed) (hv : pg.entry? p = some v) :
    r.holds p = .ok (r.stackBits [v] idx.root) := by
  rw [Result.holds, h.holdsUnder_eq hpg hv, if_pos h.length_terminal,
    h.stackBits_singleton (entry_lt hpg hv)]

/-- The list of the satisfied subformulas is read off the values at the entry. -/
theorem satisfied_eq (h : Checked idx pg r) (hpg : pg.WellFormed) (hv : pg.entry? p = some v) :
    ∃ l, r.values? v = some l ∧ l.length = idx.size ∧ (∀ i, l.getD i false = r.stackBits [v] i) ∧
      r.satisfied p =
        .ok ((((idx.subs.toList.map (·.node)).zip l).filter (·.2)).map (·.1)) := by
  have hlt := entry_lt hpg hv
  obtain ⟨l, hl, hlen, hbits⟩ := h.stackValues (c := [v]) (by simpa using hlt)
  have hvalues : r.values? v = some l := hl
  refine ⟨l, hvalues, hlen, hbits, ?_⟩
  rw [Result.satisfied, h.entry_eq hv, Fold.ok_bind, hvalues, h.built.index_eq]
  rfl

/-- The value of a subformula at a stack is its truth, where it stands, at the configuration
that the stack stands for. -/
theorem stackBits_iff (h : Checked idx (.ofSystem sys) r) (hsys : sys.validate = .ok ())
    (hidx : Index.ofFormula f.normal = .ok idx) (ρ : Name → Set (List Nat))
    (hi : i < f.normal.size) (c : List Nat) :
    r.stackBits c i = true ↔ Graph.settle (.ofSystem sys) c ∈
      f.normal.meaningAt (Graph.configurations (.ofSystem sys)) ρ i := by
  obtain ⟨rank, hrank⟩ := Graph.ofSystem_guarded hsys
  have hsol := h.solution (Graph.ofSystem_wellFormed sys).1 hrank
  obtain ⟨n, rfl, hsize, hhead, hlaid, -⟩ := Index.laid_of_ofFormula hidx
  have hmeans := Graph.means_of_laid hsol hhead hlaid (Nat.le_of_eq hsize.symm) ρ i hi c
  rwa [Nat.zero_add] at hmeans

theorem root_iff (h : Checked idx (.ofSystem sys) r) (hsys : sys.validate = .ok ())
    (hidx : Index.ofFormula f.normal = .ok idx) (ρ : Name → Set (List Nat)) (c : List Nat) :
    r.stackBits c idx.root = true ↔ Graph.settle (.ofSystem sys) c ∈
      f.normal.denote (Graph.configurations (.ofSystem sys)) ρ := by
  have hpos := f.normal.size_pos
  rw [Index.root_eq hidx, h.stackBits_iff hsys hidx ρ (by omega), Formula.meaningAt_root]

end Checked

/-! ### Single questions -/

theorem start_of_mem (hsys : sys.validate = .ok ()) (hp : p ∈ sys.processes) :
    CheckOptions.start { initial := p } sys = sys.startAt p := by
  unfold ProcessSystem.validate at hsys
  obtain ⟨_, hnames, -⟩ := Fold.bind_eq_ok.mp hsys
  exact if_neg (ProcessSystem.mem_ne_empty_of_checkNames hnames p hp)

section Satisfies

variable (hsys : sys.validate = .ok ()) (hp : p ∈ sys.processes)
  (hidx : Index.ofFormula f.normal = .ok idx) {b : Bool}
include hsys hp hidx

theorem checked_of_satisfies (h : satisfies sys f p = .ok b) :
    ∃ r, Checked idx (.ofSystem (sys.startAt p)) r ∧
      r.stackBits [(Graph.ofSystem (sys.startAt p)).initial] idx.root = b := by
  obtain ⟨r, hr, hverdict⟩ := Fold.bind_eq_ok.mp h
  have hstart := start_of_mem hsys hp
  have hchecked := checked_of_check hidx (hstart ▸ ProcessSystem.validate_startAt hsys hp) hr
  rw [hstart] at hchecked
  rw [Result.verdict, hchecked.verdict?_eq] at hverdict
  exact ⟨r, hchecked, Except.ok.inj hverdict⟩

/-- A question has an answer unless the formula is too large. -/
theorem satisfies_isOk_iff : (∃ b, satisfies sys f p = .ok b) ↔ idx.size ≤ Space.maxDim := by
  constructor
  · rintro ⟨b, hb⟩
    obtain ⟨r, hr, -⟩ := Fold.bind_eq_ok.mp hb
    obtain ⟨-, -, idx', hidx', hsize⟩ := stages_of_check hr
    obtain rfl : idx = idx' := Except.ok.inj (hidx.symm.trans hidx')
    exact hsize
  · intro hsize
    have hvalid := ProcessSystem.validate_startAt hsys hp
    rw [← start_of_mem hsys hp] at hvalid
    obtain ⟨r, hr⟩ : ∃ r, check sys f { initial := p } = .ok r := exists_check rfl hvalid hidx hsize
    obtain ⟨b, hb⟩ := (checked_of_check hidx hvalid hr).verdict
    refine ⟨b, ?_⟩
    simp only [satisfies, hr, Fold.ok_bind, Result.verdict, hb]
    rfl

/-- The answer is the truth of the formula's normal form where the process starts. -/
theorem satisfies_iff (h : satisfies sys f p = .ok b) (ρ : Name → Set (List Nat)) :
    b = true ↔
      Graph.settle (.ofSystem (sys.startAt p)) [(Graph.ofSystem (sys.startAt p)).initial] ∈
        f.normal.denote (Graph.configurations (.ofSystem (sys.startAt p))) ρ := by
  obtain ⟨r, hchecked, rfl⟩ := checked_of_satisfies hsys hp hidx h
  exact hchecked.root_iff (ProcessSystem.validate_startAt hsys hp) hidx ρ _

end Satisfies

end MuProc
