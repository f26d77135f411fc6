import MuProc.Proofs.Solutions
import MuProc.Proofs.PostOrder
import MuProc.Proofs.Guardedness
import MuProc.Proofs.Settling

/-!
# The block outside of all fixpoints

Block 0 holds the subformulas that lie in no fixpoint. A right-hand side of this block reads
operands, which have smaller numbers, and the same subformula at a node that is called. Calls
cannot go on forever without an action, so the equations determine every value, and there is
nothing left for the seed to choose.

Two solutions are compared at two inputs that agree on the smaller numbers and on the other
blocks. With one solution on both sides this says which inputs its components do not depend on.
-/

namespace MuProc

/-- A subformula that is no variable, and whose operands come before number `i`. -/
structure Subformula.ReadsBefore (i : Nat) (s : Subformula) : Prop where
  not_var : ∀ x, s.node ≠ .var x
  operand_lt : ∀ j, s.left = some j ∨ s.right = some j → j < i

namespace Index

/-! ### Numbers outside of fixpoints -/

variable {n : Layout} {scopes : List Binding} {block a : Nat} {kind : BlockKind} {φ : Formula}

theorem Laid.not_var (h : Laid n scopes block kind φ a) (hkind : block = 0 → kind = .plain)
    (hscopes : ∀ s ∈ scopes, s.block ≠ 0) {i : Nat} {s : Subformula} (hle : a ≤ i)
    (hlt : i < a + φ.size) (hs : n.subs[i]? = some s) (hzero : s.block = 0) (x : Name) :
    s.node ≠ .var x := by
  induction h with
  | @leaf scopes block kind φ a hφ hsub =>
    have hi : i = a := by rw [hφ.size_eq] at hlt; omega
    subst hi
    obtain rfl := Option.some.inj (hs.symm.trans hsub)
    cases hφ <;> rintro ⟨⟩
  | @literal scopes block kind p a hatom hsub =>
    simp only [Formula.size] at hlt
    obtain rfl | rfl : i = a ∨ i = a + 1 := by omega
    · obtain rfl := Option.some.inj (hs.symm.trans hatom)
      rintro ⟨⟩
    · obtain rfl := Option.some.inj (hs.symm.trans hsub)
      rintro ⟨⟩
  | @binary scopes block kind f g φ a hφ hf hg hsub ihf ihg =>
    rw [hφ.size_eq] at hlt
    by_cases h1 : i < a + f.size
    · exact ihf hkind hscopes hle h1
    by_cases h2 : i < a + f.size + g.size
    · exact ihg hkind hscopes (by omega) h2
    · obtain rfl : i = a + f.size + g.size := by omega
      obtain rfl := Option.some.inj (hs.symm.trans hsub)
      cases hφ <;> rintro ⟨⟩
  | @modal scopes block kind act f φ a hφ hf hsub ih =>
    rw [hφ.size_eq] at hlt
    by_cases h1 : i < a + f.size
    · exact ih hkind hscopes hle h1
    · obtain rfl : i = a + f.size := by omega
      obtain rfl := Option.some.inj (hs.symm.trans hsub)
      cases hφ <;> rintro ⟨⟩
  | @binder scopes block kind k x f φ inner a hφ hopens hf hsub ih =>
    rw [hφ.size_eq] at hlt
    by_cases h1 : i < a + f.size
    · -- A fixpoint has another kind than the block outside, so it opens a block of its own.
      have hinner : inner ≠ 0 := by
        cases hopens with
        | same hk =>
          intro hb
          cases hφ <;> exact BlockKind.noConfusion (hk.symm.trans (hkind hb))
        | new _ hlt => omega
      exact ih (fun hb => absurd hb hinner) (List.forall_mem_cons.mpr ⟨hinner, hscopes⟩) hle h1
    · obtain rfl : i = a + f.size := by omega
      obtain rfl := Option.some.inj (hs.symm.trans hsub)
      cases hφ <;> rintro ⟨⟩
  | @var scopes block kind x a sc hsc hblock hsub =>
    -- A variable lies in the block of its binder.
    obtain rfl : i = a := by simp only [Formula.size] at hlt; omega
    obtain rfl := Option.some.inj (hs.symm.trans hsub)
    exact absurd (hblock.trans hzero) (hscopes sc (List.mem_of_find?_eq_some hsc))

variable {f : Formula} {idx : Index}

theorem readsBefore_of_ofFormula (h : ofFormula f = .ok idx) {i : Nat} {s : Subformula}
    (hs : idx.subs[i]? = some s) (hzero : s.block = 0) : s.ReadsBefore i := by
  have hoperand := (ofFormula_numbers f idx h).1.operand_lt i s hs
  rw [(wellFormed_of_ofFormula h).var_eq i s hs] at hoperand
  obtain ⟨n, rfl, hsize, -, hlaid, -⟩ := laid_of_ofFormula h
  have hi : i < n.subs.size := (Array.getElem?_eq_some_iff.mp hs).1
  exact ⟨hlaid.not_var (fun _ => rfl) (by simp) (Nat.zero_le i) (by omega) hs hzero, hoperand⟩

theorem plain_of_ofFormula (h : ofFormula f = .ok idx) :
    ∃ B, idx.blocks[0]? = some B ∧ B.kind = .plain := by
  obtain ⟨n, rfl, -, hhead, -⟩ := laid_of_ofFormula h
  exact ⟨_, blocks_index.mpr ⟨_, hhead, rfl⟩, rfl⟩

end Index

namespace DependencyGraph

open Formula (IsModal)
open Index (From)

/-! ### What a rule reads -/

section Rules

variable {i : Nat} {s : Subformula} (hs : s.ReadsBefore i) {c c' : Bits}
  (hc : ∀ j < i, c j = c' j)
include hs hc

theorem at_congr {ref : Option Nat} (href : ref = s.left ∨ ref = s.right) :
    Subformula.at ref c = Subformula.at ref c' := by
  cases ref with
  | none => rfl
  | some j => exact hc j (hs.operand_lt j (href.imp Eq.symm Eq.symm))

theorem behind_congr {a : Name} {f : Formula} (hmodal : IsModal a f s.node) (step : Step) :
    s.behind step c = s.behind step c' := by
  have hleft := at_congr hs hc (.inl rfl)
  unfold Subformula.behind
  generalize s.node = φ at hmodal
  cases hmodal <;> simp only [hleft]

/-- Outside of fixpoints a rule reads operands, and links only for a modality or for a node that
does nothing but call. -/
theorem Node.rule_congr_before {n : Node} {L L' : Link → Bool}
    (hcall : ∀ l, n.onlyCall? = some l → L l = L' l)
    (hmodal : ∀ a f, IsModal a f s.node → ∀ l ∈ n.links, L l = L' l) :
    n.rule s c L = n.rule s c' L' := by
  have hleft := at_congr hs hc (.inl rfl)
  have hright := at_congr hs hc (.inr rfl)
  have hvar := hs.not_var
  unfold rule
  cases honly : n.onlyCall? with
  | some l => exact hcall l honly
  | none =>
    cases hnode : s.node with
    | var x => exact absurd hnode (hvar x)
    | box a f =>
      have hL := hmodal a f (hnode ▸ .box)
      exact le_antisymm (all_le fun l hl => le_of_eq (hL l hl))
        (all_le fun l hl => le_of_eq (hL l hl).symm)
    | dia a f =>
      have hL := hmodal a f (hnode ▸ .dia)
      exact le_antisymm (any_le fun l hl => le_of_eq (hL l hl))
        (any_le fun l hl => le_of_eq (hL l hl).symm)
    | not f => cases f <;> rfl
    | _ => simp only [hleft, hright]

end Rules

/-! ### Calls -/

section Calls

variable {sp : Space} {idx : Index} {pg : Graph} {g : DependencyGraph} (hg : Built sp idx pg g)
include hg

theorem Built.onlyCall_callee {v : Nat} {n : Node} (hn : g.Inner v n) {l : Link}
    (hl : n.onlyCall? = some l) : ∃ u, l.callee? = some u := by
  obtain ⟨u, hu, -⟩ := settle_onlyCall hg (σ := []) hn hl
  exact ⟨u, hu⟩

/-- A call leads to a node that is no exit, and to a smaller rank. -/
theorem Built.callee_lt (hpg : pg.WellFormed) {rank : Nat → Nat}
    (hrank : ∀ (v : Nat) es, pg.out[v]? = some es → ∀ e ∈ es, e.step.isCall = true →
      ∀ u, pg.entry? e.step.call = some u → rank u < rank v) {v u : Nat} {n : Node}
    (hn : g.nodes[v]? = some n) {l : Link} (hl : l ∈ n.links) (hu : l.callee? = some u) :
    (∃ m, g.Inner u m) ∧ rank u < rank v := by
  constructor
  · cases settled_callee hg hpg hn hl hu [] with
    | cons hm _ => exact ⟨_, hm⟩
  · obtain ⟨es, e, hes, he, hlink⟩ := (hg.isNode v n hn).linked hl
    obtain ⟨hcall, hentry⟩ := hlink.call_of_callee? hu
    exact hrank v es hes e he hcall u hentry

end Calls

/-! ### Solutions of block 0 -/

/-- A family that solves the equations of block 0, where the other blocks are as in `A`. -/
structure PlainSolution (g : DependencyGraph) (A S : Family) : Prop where
  later : ∀ v < g.nodes.size, ∀ i, From g.index.subs 1 i → S v i = A v i
  exits : ∀ (v : Nat) n, g.nodes[v]? = some n → n.isExit = true →
    ∀ i < g.index.size, ∀ x, S v i x = x i
  solved : ∀ v n, g.Inner v n → ∀ (i : Nat) s, g.index.subs[i]? = some s → s.block = 0 → ∀ x,
    g.rhs S n i x (fun j => S v j x) = S v i x

/-- Inputs that agree before number `i` and outside of block 0. -/
def AgreeBelow (g : DependencyGraph) (i : Nat) (x y : Bits) : Prop :=
  ∀ j, j < i ∨ From g.index.subs 1 j → x j = y j

/-- Component `i` has the same value in both families, at every node but the exits and at all
inputs that agree below `i`. -/
def SameAt (g : DependencyGraph) (S S' : Family) (i : Nat) : Prop :=
  ∀ v n, g.Inner v n → ∀ x y, g.AgreeBelow i x y → S v i x = S' v i y

section Unique

variable {g : DependencyGraph} {A S S' : Family} (hA : ∀ v, g.Regular (A v))
  (hS : g.PlainSolution A S) (hS' : g.PlainSolution A S')
include hA hS hS'

theorem PlainSolution.later_eq {v : Nat} (hv : v < g.nodes.size) {i : Nat}
    (hi : From g.index.subs 1 i) {x y : Bits} (hxy : ∀ j, From g.index.subs 1 j → x j = y j) :
    S v i x = S' v i y := by
  rw [hS.later v hv i hi, hS'.later v hv i hi]
  obtain ⟨s, hs, hle⟩ := hi
  exact (hA v).congr hs fun j hj => hxy j (from_of_le hle hj)

theorem PlainSolution.agreeBelow {i : Nat} (hi : i ≤ g.index.size)
    (hsame : ∀ j < i, g.SameAt S S' j) {x y : Bits} (hxy : g.AgreeBelow i x y) {w : Nat}
    (hw : w < g.nodes.size) : g.AgreeBelow i (S w · x) (S' w · y) := by
  rintro j (hj | hj)
  · obtain ⟨n, hn, hex | hinner⟩ := exit_or_inner hw
    · have hlt : j < g.index.size := by omega
      show S w j x = S' w j y
      rw [hS.exits w n hn hex j hlt, hS'.exits w n hn hex j hlt]
      exact hxy j (.inl hj)
    · refine hsame j hj w n hinner x y fun k hk => hxy k ?_
      exact hk.imp_left fun hkj => Nat.lt_trans hkj hj
  · exact hS.later_eq hA hS' hw hj fun k hk => hxy k (.inr hk)

variable {sp : Space} {idx : Index} {pg : Graph} (hg : Built sp idx pg g)
  (hplain : ∀ (i : Nat) s, g.index.subs[i]? = some s → s.block = 0 → s.ReadsBefore i)
include hg hplain

/-- A link has the same value in both families, if the components before `i` are the same and
component `i` is the same at the node that is called. -/
theorem PlainSolution.value_eq {i : Nat} {s : Subformula} (hs : g.index.subs[i]? = some s)
    (hzero : s.block = 0) (hsame : ∀ j < i, g.SameAt S S' j) {v : Nat} {n : Node}
    (hn : g.nodes[v]? = some n) {l : Link} (hl : l ∈ n.links)
    (hcallee : ∀ u, l.callee? = some u → ∀ x y, g.AgreeBelow i x y → S u i x = S' u i y)
    (hreads : (∃ u, l.callee? = some u) ∨ ∃ a f, IsModal a f s.node) {x y : Bits}
    (hxy : g.AgreeBelow i x y) : l.value g.space S i x = l.value g.space S' i y := by
  have hi : i < g.index.size := (Array.getElem?_eq_some_iff.mp hs).1
  have htarget := hS.agreeBelow hA hS' (Nat.le_of_lt hi) hsame hxy
    (hg.coherent.reads_lt v n hn l hl l.target (.inl rfl))
  unfold Link.value
  cases hc : l.callee? with
  | some u => exact hcallee u hc _ _ htarget
  | none =>
    obtain ⟨a, f, hmodal⟩ : ∃ a f, IsModal a f s.node := by simpa [hc] using hreads
    have haction := (hg.coherent.action v n hn l hl hc).2 i s hs
    simp only [haction]
    exact behind_congr (hplain i s hs hzero) (fun j hj => htarget j (.inl hj)) hmodal l.step

/-- The equations of block 0 determine every component at all nodes. -/
theorem PlainSolution.same (hpg : pg.WellFormed) {rank : Nat → Nat}
    (hrank : ∀ (v : Nat) es, pg.out[v]? = some es → ∀ e ∈ es, e.step.isCall = true →
      ∀ u, pg.entry? e.step.call = some u → rank u < rank v) {i : Nat} (hi : i < g.index.size) :
    g.SameAt S S' i := by
  -- Operands have smaller numbers, so the outer induction is on the number of the subformula. A
  -- call asks for the same number at another node, of smaller rank: the inner one is on the rank.
  induction i using Nat.strong_induction_on with
  | _ i ih =>
    have hsame (j : Nat) (hj : j < i) : g.SameAt S S' j := ih j hj (by omega)
    have hs := Array.getElem?_eq_getElem hi
    intro v n hn x y hxy
    by_cases hzero : (g.index.subs[i]).block = 0
    · induction hr : rank v using Nat.strong_induction_on generalizing v n x y with
      | _ r ihr =>
        have hcallee (l : Link) (hl : l ∈ n.links) (u : Nat) (hu : l.callee? = some u) (x y : Bits)
            (hxy : g.AgreeBelow i x y) : S u i x = S' u i y := by
          obtain ⟨⟨m, hm⟩, hlt⟩ := hg.callee_lt hpg hrank hn.1 hl hu
          exact ihr (rank u) (hr ▸ hlt) u m hm x y hxy rfl
        have hvalue (l : Link) (hl : l ∈ n.links) (hreads) :=
          hS.value_eq hA hS' hg hplain hs hzero hsame hn.1 hl (hcallee l hl) hreads hxy
        have hself := hS.agreeBelow hA hS' (Nat.le_of_lt hi) hsame hxy hn.lt
        rw [← hS.solved v n hn i _ hs hzero, ← hS'.solved v n hn i _ hs hzero, rhs_of_sub hs,
          rhs_of_sub hs]
        refine Node.rule_congr_before (hplain i _ hs hzero) (fun j hj => hself j (.inl hj))
          (fun l hl => ?_) fun a f hmodal l hl => hvalue l hl (.inr ⟨a, f, hmodal⟩)
        exact hvalue l (Node.onlyCall?_mem hl) (.inl (hg.onlyCall_callee hn hl))
    · have hlater : From g.index.subs 1 i := ⟨_, hs, Nat.one_le_iff_ne_zero.mpr hzero⟩
      exact hS.later_eq hA hS' hn.lt hlater fun j hj => hxy j (.inr hj)

end Unique

/-! ### The seed of block 0 -/

/-- Solves all blocks with true as the seed of block 0: it starts, and is checked, like the block
of a greatest fixpoint. -/
def solveRaised (g : DependencyGraph) (invariants : Bool) :
    Except Fault (Assignment × List BlockReport) :=
  (g.index.blocks.modify 0 fun B => { B with kind := .greatest }).toList.reverse.foldlM
    (g.solveNext invariants) (g.nodes.map g.startValue, [])

section Seed

variable {g : DependencyGraph} {a₀ a : Assignment} {B : Block}

theorem solveRaised_eq (hB : g.index.blocks[0]? = some B) (invariants : Bool) :
    g.solveRaised invariants =
      g.solveFrom invariants 1 >>= (g.solveNext invariants · { B with kind := .greatest }) := by
  have hblocks := drop_blocks hB
  rw [List.drop_zero] at hblocks
  rw [solveRaised, Array.toList_modify, hblocks, List.modify_zero_cons, List.reverse_cons,
    List.foldlM_append]
  simp only [List.foldlM_cons, List.foldlM_nil, bind_pure]
  rfl

theorem Working.plainSolution {k : BlockKind} {vars : List Nat} (hg : g.Coherent)
    (hb : g.IsBlock 0 vars) (h : g.SolvedFrom 1 a₀) (hw : g.Working k 0 vars a₀ a []) :
    g.PlainSolution (a₀.meaning g.space) (a.meaning g.space) where
  later v _ i hi := hw.frame v i (hb.not_mem_of_later hi)
  exits v n hn hex _ hi :=
    meaning_of_identity hg ((hw.exits v n hn hex).trans (h.exits v n hn hex)) hi
  solved v n hn i s hs hzero := hw.solved v n hn List.not_mem_nil i ((hb i).mpr ⟨s, hs, hzero⟩)

theorem SolvesBlock.plainSolution {other : Assignment} (hg : g.Coherent)
    (hB : g.index.blocks[0]? = some B) (h : g.SolvedFrom 0 a) (ho : g.SolvesBlock B a other) :
    g.PlainSolution (a.meaning g.space) (other.meaning g.space) where
  later := (ho.preSolution hg hB).later
  exits v n hn hex _ hi :=
    meaning_of_identity hg ((ho.exits v n hn hex).trans (h.exits v n hn hex)) hi
  solved _ _ hn i s hs hzero := ho.rhs_eq hg hB hn ((hg.isBlock hB i).mpr ⟨s, hs, hzero⟩)

variable {f : Formula} {sys : ProcessSystem} {idx : Index} {pg : Graph} {sp : Space}
  {A S S' : Family}

theorem plain_sameAt (hidx : Index.ofFormula f = .ok idx) (hpg : Graph.expand sys = .ok pg)
    (hg : Built sp idx pg g) (hA : ∀ v, g.Regular (A v)) (hS : g.PlainSolution A S)
    (hS' : g.PlainSolution A S') {i : Nat} (hi : i < g.index.size) : g.SameAt S S' i := by
  obtain ⟨hsys, rfl⟩ := Graph.expand_eq_ok.mp hpg
  obtain ⟨rank, hrank⟩ := Graph.ofSystem_guarded hsys
  refine hS.same hA hS' hg (fun i s hs => ?_) (Graph.ofSystem_wellFormed sys).1 hrank hi
  rw [hg.index_eq] at hs
  exact Index.readsBefore_of_ofFormula hidx hs

theorem plain_sameAssignment {a' : Assignment} (hidx : Index.ofFormula f = .ok idx)
    (hpg : Graph.expand sys = .ok pg) (hg : Built sp idx pg g) (hA : ∀ v, g.Regular (A v))
    (ha : g.ValidAssignment a) (ha' : g.ValidAssignment a')
    (hS : g.PlainSolution A (a.meaning g.space))
    (hS' : g.PlainSolution A (a'.meaning g.space)) : SameAssignment a a' := by
  refine ha.same hg.coherent ha' fun v hv => ha.meaning_ext hg.coherent ha' hv fun i s hs => ?_
  have hi : i < g.index.size := (Array.getElem?_eq_some_iff.mp hs).1
  funext x
  obtain ⟨n, hn, hex | hinner⟩ := exit_or_inner hv
  · rw [hS.exits v n hn hex i hi, hS'.exits v n hn hex i hi]
  · exact plain_sameAt hidx hpg hg hA hS hS' hi v n hinner x x fun _ _ => rfl

/-- Outside of fixpoints the equations have one solution, so the seed makes no difference. In this
solution a component depends only on the other blocks and on inputs before it, at every node but
the exits. -/
theorem plainBlock_unique {d : Int} {order : Option (List Int)}
    (hidx : Index.ofFormula f = .ok idx) (hpg : Graph.expand sys = .ok pg)
    (hsp : Space.make d order = .ok sp) (hg : build sp pg idx = .ok g) (invariants : Bool) :
    ∃ B a reports, idx.blocks[0]? = some B ∧ B.kind = .plain ∧
      g.solve invariants = .ok (a, reports) ∧ g.SolvesBlock B a a ∧
      (∀ other, g.SolvesBlock B a other → SameAssignment other a) ∧
      (∃ a' reports', g.solveRaised invariants = .ok (a', reports') ∧ SameAssignment a' a) ∧
      ∀ v n, g.Inner v n → ∀ t, a[v]? = some t → ∀ i < idx.size, ∀ j ∈ B.vars, i ≤ j →
        ∀ x c, t.meaning g.space i (Function.update x j c) = t.meaning g.space i x := by
  have hbuilt := built_of_build hidx hpg hsp hg
  have hcoh := hbuilt.coherent
  obtain ⟨B, hB, hkind⟩ := Index.plain_of_ofFormula hidx
  have hBg : g.index.blocks[0]? = some B := hbuilt.index_eq.symm ▸ hB
  have hb := hcoh.isBlock hBg
  obtain ⟨r, hr, hone⟩ := solveFrom_spec hcoh (b := 1) (Array.getElem?_eq_some_iff.mp hBg).1
  obtain ⟨⟨a, reports⟩, ha, hw⟩ := solveNextBy_spec hcoh Schedule.first_picks hb hone.sound
  have hsolve : g.solve invariants = .ok (a, reports) := by
    rw [← solveFrom_zero, solveFrom_eq hBg, hr, Fold.ok_bind, ← solveNextBy_first]
    exact ha invariants
  have hzero : g.SolvedFrom 0 a := hone.step hcoh hBg hw
  have hsolves := hzero.solvesBlock hcoh hBg
  have hself := hsolves.plainSolution hcoh hBg hzero
  refine ⟨B, a, reports, hB, hkind, hsolve, hsolves, fun other ho => ?_, ?_, ?_⟩
  · exact plain_sameAssignment hidx hpg hbuilt hzero.sound.regular ho.valid hsolves.valid
      (ho.plainSolution hcoh hBg hzero) hself
  · obtain ⟨⟨a', reports'⟩, ha', hw'⟩ := solveNextBy_spec hcoh Schedule.first_picks
      (B := { B with kind := .greatest }) hb hone.sound
    refine ⟨a', reports', ?_, ?_⟩
    · rw [solveRaised_eq hBg, hr, Fold.ok_bind, ← solveNextBy_first]
      exact ha' invariants
    · exact plain_sameAssignment hidx hpg hbuilt hone.sound.regular hw'.sound.valid hsolves.valid
        (hw'.plainSolution hcoh hb hone) (hw.plainSolution hcoh hb hone)
  · intro v n hn t ht i hi j hj hij x c
    rw [← hbuilt.index_eq] at hi
    rw [← meaning_of_assigned ht]
    refine plain_sameAt hidx hpg hbuilt hzero.sound.regular hself hself hi v n hn _ _ fun k hk => ?_
    refine Function.update_of_ne ?_ c x
    rintro rfl
    obtain hk | hlater := hk
    · omega
    · exact hb.not_mem_of_later hlater hj

/-- A box and a diamond outside of a fixpoint, over a process that begins with a call. -/
theorem plainBlock_unique_call :
    ∃ idx pg sp g B a reports,
      Index.ofFormula (.box "a" (.dia "" (.nu "X" (.and (.atom "p") (.box "" (.var "X")))))) =
        .ok idx ∧
      Graph.expand (.ofDefinitions "P" [
        { name := "P", rules := [[.run "Q", .act "a" .must, .run "P"], [.act "b" .may]] },
        { name := "Q", rules := [[.act "c" .must]] }]) = .ok pg ∧
      Space.make idx.size (some (idx.order.map Int.ofNat)) = .ok sp ∧
      build sp pg idx = .ok g ∧ g.solve true = .ok (a, reports) ∧
      idx.blocks[0]? = some B ∧ B.vars = [5, 6] ∧ g.SolvesBlock B a a ∧
      ∃ a' reports', g.solveRaised true = .ok (a', reports') ∧ SameAssignment a' a := by
  obtain ⟨idx, hidx⟩ : ∃ idx, Index.ofFormula (.box "a" (.dia "" (.nu "X"
      (.and (.atom "p") (.box "" (.var "X")))))) = .ok idx := ⟨_, rfl⟩
  have hmax : idx.size ≤ Space.maxDim := by
    obtain rfl := Except.ok.inj hidx
    decide
  obtain ⟨C, hC, hvars⟩ : ∃ C, idx.blocks[0]? = some C ∧ C.vars = [5, 6] := by
    obtain rfl := Except.ok.inj hidx
    exact ⟨_, rfl, rfl⟩
  have hvalid : (ProcessSystem.ofDefinitions "P" [
      { name := "P", rules := [[.run "Q", .act "a" .must, .run "P"], [.act "b" .may]] },
      { name := "Q", rules := [[.act "c" .must]] }]).validate = .ok () := rfl
  obtain ⟨sp, g, hsp, hpg, hg, -⟩ := exists_build hidx hmax hvalid
  obtain ⟨B, a, reports, hB, -, hsolve, hsolves, -, hraised, -⟩ :=
    plainBlock_unique hidx hpg hsp hg true
  obtain rfl : C = B := Option.some.inj (hC.symm.trans hB)
  exact ⟨idx, _, sp, g, C, a, reports, hidx, hpg, hsp, hg, hsolve, hC, hvars, hsolves, hraised⟩

end Seed

end DependencyGraph

end MuProc
