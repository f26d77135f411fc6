import MuProc.Solver.Check
import MuProc.Proofs.Solutions
import MuProc.Proofs.Terminals

/-!
# Checks end with a result

A check reports a formula that cannot be numbered, or else a system that is not valid.
There is nothing else that can go wrong: the equations can be set up, every block is
solved within its bounds, and no check of a value on the way fails.
-/

namespace MuProc

open DependencyGraph (Built build_spec solveBy_spec solveBy_first)

/-- What a check has found out about a numbered formula over a state graph. -/
structure Checked (idx : Index) (pg : Graph) (r : Result) : Prop where
  built : Built r.graph.space idx pg r.graph
  solved : r.graph.SolvedFrom 0 r.assign
  terminal_eq : idx.terminal? = some r.terminal
  length_terminal : r.terminal.length = idx.size
  terminal : idx.TerminalFrom 0 fun j => r.terminal.getD j false

variable {sys : ProcessSystem} {f : Formula} {o : CheckOptions} {idx : Index} {sp : Space}

theorem equations_spec (hidx : Index.ofFormula f.normal = .ok idx) (hsys : sys.validate = .ok ())
    (hsp : Space.make idx.size (some (idx.order.map Int.ofNat)) = .ok sp) :
    ∃ g, equations sys f = .ok g ∧ Built sp idx (.ofSystem sys) g := by
  obtain ⟨hproper, hdim⟩ := Space.proper_of_make hsp
  obtain ⟨hpg, hinit⟩ := Graph.ofSystem_wellFormed sys
  obtain ⟨g, hg, hbuilt⟩ := build_spec hproper (Index.wellFormed_of_ofFormula hidx)
    (by exact_mod_cast hdim) hpg hinit
  refine ⟨g, ?_, hbuilt⟩
  simp only [equations, hidx, Graph.expand_eq_ok.mpr ⟨hsys, rfl⟩, hsp, hg, Except.mapError,
    Fold.ok_bind]

/-- Equations can be solved; the checks make no difference. -/
theorem ofGraph_spec {pg : Graph} {g : DependencyGraph} (hg : Built sp idx pg g) :
    ∃ r, (∀ invariants, Result.ofGraph g invariants = .ok r) ∧ r.graph = g ∧ Checked idx pg r := by
  obtain ⟨⟨a, reports⟩, hsolve, hsolved⟩ := solveBy_spec hg.coherent Schedule.first_picks
  obtain ⟨l, hl, hlen, hterm⟩ := Index.terminal?_spec (hg.index_eq ▸ hg.coherent.index)
  refine ⟨{ graph := g, assign := a, reports, terminal := l }, fun invariants => ?_, rfl, ?_⟩
  · have hrun := (solveBy_first g invariants).symm.trans (hsolve invariants)
    simp only [Result.ofGraph, hrun, hg.index_eq, hl, DependencyGraph.require, Fold.ok_bind]
    rfl
  · exact ⟨hg.space_eq ▸ hg, hsolved, hl, hlen, hterm⟩

theorem check_spec (ho : o.validate = .ok ()) (hidx : Index.ofFormula f.normal = .ok idx)
    (hsys : (o.start sys).validate = .ok ())
    (hsp : Space.make idx.size (some (idx.order.map Int.ofNat)) = .ok sp) :
    ∃ r, (∀ invariants, check sys f { o with invariants } = .ok r) ∧
      Checked idx (.ofSystem (o.start sys)) r := by
  obtain ⟨g, hg, hbuilt⟩ := equations_spec hidx hsys hsp
  obtain ⟨r, hr, -, hchecked⟩ := ofGraph_spec hbuilt
  refine ⟨r, fun invariants => ?_, hchecked⟩
  have hvalidate : CheckOptions.validate { o with invariants } = .ok () := ho
  have hstart : CheckOptions.start { o with invariants } sys = o.start sys := rfl
  simp only [check, hvalidate, hstart, hg, hr, Except.mapError, Fold.ok_bind]

theorem checked_of_check {r : Result} (hidx : Index.ofFormula f.normal = .ok idx)
    (hsys : (o.start sys).validate = .ok ()) (h : check sys f o = .ok r) :
    Checked idx (.ofSystem (o.start sys)) r := by
  have hsteps := h
  simp only [check, equations, hidx, Graph.expand_eq_ok.mpr ⟨hsys, rfl⟩, Except.mapError,
    Fold.ok_bind, Fold.bind_eq_ok] at hsteps
  obtain ⟨_, ho, g, ⟨sp, hsp, -⟩, -⟩ := hsteps
  cases hmake : Space.make idx.size (some (idx.order.map Int.ofNat)) with
  | error e =>
    rw [hmake] at hsp
    cases hsp
  | ok sp =>
    obtain ⟨r', hr', hchecked⟩ := check_spec ho hidx hsys hmake
    obtain rfl : r = r' := Except.ok.inj (h.symm.trans (hr' o.invariants))
    exact hchecked

theorem Checked.verdict {pg : Graph} {r : Result} (h : Checked idx pg r) :
    ∃ b, r.verdict? = some b := by
  have hcoh := h.built.coherent
  obtain ⟨t, ht, hvalid, -⟩ := h.solved.sound.valid.getElem? hcoh.initial_lt
  obtain ⟨φ, hφ, hfits, hmono, -⟩ := hvalid.getElem? (hcoh.dim_eq ▸ hcoh.index.root_lt)
  have hlen : r.terminal.length ≤ r.graph.space.dim := by
    rw [h.length_terminal, hcoh.dim_eq, h.built.index_eq]
  refine ⟨r.graph.space.value φ (r.terminal.getD · true), ?_⟩
  rw [← Space.eval?_of_monotone hcoh.space hfits hmono hlen]
  show Result.valueAt? r (.ofNat r.graph.initial) (.ofNat r.graph.index.root) r.terminal = _
  simp [Result.valueAt?, ht, hφ]

theorem check_of_structural {e : StructuralError} (ho : o.validate = .ok ())
    (h : Index.ofFormula f.normal = .error e) : check sys f o = .error (.structural e) := by
  simp only [check, ho, equations, h, Except.mapError, Fold.ok_bind]
  rfl

theorem check_of_invalid {e : SystemError} (ho : o.validate = .ok ())
    (hidx : Index.ofFormula f.normal = .ok idx) (h : (o.start sys).validate = .error e) :
    check sys f o = .error (.system e) := by
  have hexpand : Graph.expand (o.start sys) = .error e := by
    rw [Graph.expand, h]
    rfl
  simp only [check, ho, equations, hidx, hexpand, Except.mapError, Fold.ok_bind]
  rfl

/-- With accepted options, a check reports a structural error exactly if the formula cannot
be numbered, else the error of the system exactly if that is not valid, and else it has
a result with a verdict. The check of every new value changes nothing about it. -/
theorem check_classified (sys : ProcessSystem) (f : Formula) (o : CheckOptions)
    (ho : o.validate = .ok ())
    (hsize : ∀ idx, Index.ofFormula f.normal = .ok idx → idx.size ≤ Space.maxDim) :
    (∀ e, check sys f o = .error (.structural e) ↔ Index.ofFormula f.normal = .error e) ∧
    (∀ idx, Index.ofFormula f.normal = .ok idx → ∀ e,
      check sys f o = .error (.system e) ↔ (o.start sys).validate = .error e) ∧
    (∀ idx, Index.ofFormula f.normal = .ok idx → (o.start sys).validate = .ok () →
      ∃ r, check sys f o = .ok r ∧ (∀ invariants, check sys f { o with invariants } = .ok r) ∧
        ∃ b, r.verdict? = some b) := by
  cases hidx : Index.ofFormula f.normal with
  | error e' =>
    have hcheck : check sys f o = _ := check_of_structural ho hidx
    simp [hcheck]
  | ok idx =>
    cases hsys : (o.start sys).validate with
    | error e' =>
      have hcheck := check_of_invalid ho hidx hsys
      simp [hcheck]
    | ok u =>
      obtain ⟨sp, hsp⟩ := Space.make_order (Index.wellFormed_of_ofFormula hidx) (hsize idx hidx)
      obtain ⟨r, hr, hchecked⟩ := check_spec ho hidx hsys hsp
      have hcheck : check sys f o = .ok r := hr o.invariants
      refine ⟨by simp [hcheck], fun _ _ => by simp [hcheck], fun _ _ _ => ?_⟩
      exact ⟨r, hcheck, hr, hchecked.verdict⟩

/-- A negated fixpoint over a process that repeats an action until another one ends it. -/
theorem check_classified_loop :
    ∃ r, (∀ invariants, check (.ofDefinitions "P" [
        { name := "P", rules := [[.act "a" .must, .run "P"], [.act "b" .may]] }])
        (.not (.mu "X" (.or (.atom "p") (.dia "" (.var "X"))))) { invariants } = .ok r) ∧
      ∃ b, r.verdict? = some b := by
  obtain ⟨idx, hidx⟩ : ∃ idx, Index.ofFormula (Formula.normal
      (.not (.mu "X" (.or (.atom "p") (.dia "" (.var "X")))))) = .ok idx := ⟨_, rfl⟩
  obtain ⟨-, -, h⟩ := check_classified (.ofDefinitions "P" [
      { name := "P", rules := [[.act "a" .must, .run "P"], [.act "b" .may]] }])
    (.not (.mu "X" (.or (.atom "p") (.dia "" (.var "X"))))) {} rfl (by
      intro idx' hidx'
      obtain rfl := Except.ok.inj hidx'
      decide)
  obtain ⟨r, -, hr, hverdict⟩ := h idx hidx rfl
  exact ⟨r, hr, hverdict⟩

end MuProc
