import MuProc.Proofs.Configurations
import MuProc.Proofs.Stacks

/-!
# Equations over configurations

Settling a stack does not change its values. At a settled stack the equations of the
nodes say what the forms of a formula mean there: a box speaks about all guaranteed
steps of the configuration, a diamond about some step. For a call that follows from the
equation of the callee, so the calls that can be made before any action have to come
to an end.
-/

namespace MuProc

open Index (From)

/-- What the form of a subformula means at a configuration, for values `P`. -/
def Graph.Equation (pg : Graph) (P : List Nat → Bits) (s : Subformula) (c : List Nat) : Prop :=
  match s.node with
  | .tt => P c s.var = true
  | .ff => P c s.var = false
  | .atom p => P c s.var = true ↔ pg.configurations.holds c p
  | .not (.atom p) => P c s.var = true ↔ ¬ pg.configurations.holds c p
  | .not _ => True
  | .and _ _ => P c s.var = (Subformula.at s.left (P c) && Subformula.at s.right (P c))
  | .or _ _ => P c s.var = (Subformula.at s.left (P c) || Subformula.at s.right (P c))
  | .mu _ _ | .nu _ _ => P c s.var = Subformula.at s.left (P c)
  | .var _ => P c s.var = Subformula.at s.binder (P c)
  | .box a _ => P c s.var = true ↔ ∀ st τ, pg.Moves c st τ → st.hasAction a = true →
      st.kind = .must → Subformula.at s.left (P τ) = true
  | .dia a _ => P c s.var = true ↔ ∃ st τ, pg.Moves c st τ ∧ st.hasAction a = true ∧
      Subformula.at s.left (P τ) = true

/-- At the empty configuration an equation is what holds at a terminated process. -/
theorem Graph.equation_nil {idx : Index} (h : idx.WellFormed) {pg : Graph} {P : List Nat → Bits}
    {i : Nat} {s : Subformula} (hs : idx.subs[i]? = some s) :
    pg.Equation P s [] ↔ P [] i = idx.terminalRhs i (P []) := by
  have hvar := h.var_eq i s hs
  have hshaped := h.shaped i s hs
  have hcall : Index.deadNode.onlyCall? = none := rfl
  have hholds (p : Name) : ¬ pg.configurations.holds [] p := by
    rintro ⟨v, σ, t, hc, -⟩
    cases hc
  have hmoves (st : Step) (τ : List Nat) : ¬ pg.Moves [] st τ := by
    intro h
    cases h
  rw [Index.terminalRhs_of_sub hs, DependencyGraph.Node.rule, hcall]
  unfold Graph.Equation
  unfold Subformula.Shaped at hshaped
  rw [hvar]
  cases hnode : s.node with
  | not f =>
    simp only [hnode] at hshaped
    obtain ⟨p, rfl⟩ := hshaped
    simp [hholds, Index.deadNode, State.hasProp]
  | atom p => simp [hholds, Index.deadNode, State.hasProp]
  | box a f => simp [hmoves, Index.deadNode]
  | dia a f => simp [hmoves, Index.deadNode]
  | _ => rfl

namespace DependencyGraph

/-- A stack on which nothing is to be popped or unfolded. -/
inductive Settled (g : DependencyGraph) : List Nat → Prop
  | nil : Settled g []
  | cons {v n σ} (hn : g.Inner v n) (hcall : n.onlyCall? = none) : Settled g (v :: σ)

variable {sp : Space} {idx : Index} {pg : Graph} {g : DependencyGraph} {v : Nat} {n : Node}
  {σ : List Nat}

/-! ### Nodes and states -/

theorem IsNode.link_of_edge (h : IsNode sp idx pg v n) {es : List Edge} {e : Edge}
    (hes : pg.out[v]? = some es) (he : e ∈ es) : ∃ l ∈ n.links, Linked sp idx pg e l := by
  obtain ⟨es', hes', hall⟩ := h.links
  obtain rfl : es = es' := Option.some.inj (hes.symm.trans hes')
  obtain ⟨j, hj⟩ := List.mem_iff_getElem?.mp he
  have hjlt := (List.getElem?_eq_some_iff.mp hj).1
  have hjl : j < n.links.length := hall.length_eq ▸ hjlt
  refine ⟨n.links[j], List.getElem_mem hjl, ?_⟩
  have := hall.get hjlt hjl
  rwa [List.get_eq_getElem, List.get_eq_getElem, (List.getElem?_eq_some_iff.mp hj).2] at this

theorem IsNode.onlyCall?_eq (h : IsNode sp idx pg v n) :
    pg.onlyCall? v = n.onlyCall?.bind fun l => l.callee?.map (·, l.target) := by
  obtain ⟨es, hes, hall⟩ := h.links
  unfold Graph.onlyCall? Node.onlyCall?
  rw [h.state_eq, hes]
  generalize n.links = links at hall ⊢
  cases hall with
  | nil =>
    cases n.state.place <;> rfl
  | cons hl hrest =>
    cases hrest with
    | cons _ _ => cases n.state.place <;> rfl
    | nil =>
      rename_i e l
      cases hplace : n.state.place with
      | position =>
        cases hcall : e.step.isCall with
        | true => simp [hplace, hl.step_eq, hl.callee?_eq, hl.target_eq, hcall]
        | false => simp [hl.step_eq, hcall]
      | entry => simp [hplace]
      | exit => simp [hplace]

section Built

variable (hg : Built sp idx pg g) (hpg : pg.WellFormed)
include hg

theorem Built.state_eq {v : Nat} {n : Node} (hn : g.nodes[v]? = some n) :
    pg.states[v]? = some n.state :=
  (hg.isNode v n hn).state_eq

theorem Built.isCall_eq_false {v : Nat} {n : Node} (hn : g.nodes[v]? = some n) {l : Link}
    (hl : l ∈ n.links) {e : Edge} (hlink : Linked sp idx pg e l) (hc : l.callee? = none) :
    e.step.isCall = false := by
  by_contra hcall
  rw [Bool.not_eq_false] at hcall
  have := hg.coherent.call v n hn l hl (hlink.step_eq ▸ hcall)
  simp [hc] at this

theorem settle_outside (hv : g.nodes.size ≤ v) : pg.settle (v :: σ) = [] := by
  have hnone : pg.states[v]? = none :=
    Array.getElem?_eq_none (Nat.le_trans (Nat.le_of_eq hg.size_eq.symm) hv)
  rw [Graph.settle, hnone]

theorem settle_exit (hn : g.nodes[v]? = some n) (hex : n.isExit = true) :
    pg.settle (v :: σ) = pg.settle σ := by
  rw [Graph.settle, hg.state_eq hn]
  exact if_pos (by simpa [Node.isExit] using hex)

theorem settle_inner (hn : g.Inner v n) :
    pg.settle (v :: σ) = match pg.onlyCall? v with
      | some (u, t) => u :: t :: σ
      | none => v :: σ := by
  rw [Graph.settle, hg.state_eq hn.1]
  exact if_neg (by simpa [Node.isExit] using hn.2)

theorem settle_of_settled {c : List Nat} (h : g.Settled c) : pg.settle c = c := by
  cases h with
  | nil => rfl
  | cons hn hcall => rw [settle_inner hg hn, (hg.isNode _ _ hn.1).onlyCall?_eq, hcall]; rfl

theorem settle_onlyCall (hn : g.Inner v n) {l : Link} (hl : n.onlyCall? = some l) :
    ∃ u, l.callee? = some u ∧ pg.settle (v :: σ) = u :: l.target :: σ := by
  have hcall : l.step.isCall = true := by
    unfold Node.onlyCall? at hl
    split at hl
    · split at hl
      · rename_i h
        exact Option.some.inj hl ▸ h
      · cases hl
    · cases hl
  obtain ⟨u, hu⟩ := Option.isSome_iff_exists.mp
    (hg.coherent.call v n hn.1 l (Node.onlyCall?_mem hl) hcall)
  refine ⟨u, hu, ?_⟩
  rw [settle_inner hg hn, (hg.isNode v n hn.1).onlyCall?_eq, hl]
  simp [hu]

include hpg

theorem settled_callee (hn : g.nodes[v]? = some n) {l : Link} (hl : l ∈ n.links) {u : Nat}
    (hu : l.callee? = some u) (τ : List Nat) : g.Settled (u :: τ) := by
  have hlt := hg.coherent.reads_lt v n hn l hl u (.inr hu)
  obtain ⟨es, e, hes, he, hlink⟩ := (hg.isNode v n hn).linked hl
  obtain ⟨s, hs, hplace⟩ := hpg.entry?_place (hlink.call_of_callee? hu).2
  have hm := Array.getElem?_eq_getElem hlt
  have hstate : s = g.nodes[u].state := Option.some.inj (hs.symm.trans (hg.state_eq hm))
  rw [hstate] at hplace
  refine .cons (n := g.nodes[u]) ⟨hm, by simp [Node.isExit, hplace]⟩ ?_
  simp [Node.onlyCall?, hplace]

theorem settled_settle (c : List Nat) : g.Settled (pg.settle c) := by
  induction c with
  | nil => exact .nil
  | cons v σ ih =>
    by_cases hv : v < g.nodes.size
    · obtain ⟨n, hn, hex | hinner⟩ := exit_or_inner hv
      · rw [settle_exit hg hn hex]
        exact ih
      · cases hcall : n.onlyCall? with
        | none =>
          have hset : g.Settled (v :: σ) := .cons hinner hcall
          rwa [settle_of_settled hg hset]
        | some l =>
          obtain ⟨u, hu, hsettle⟩ := settle_onlyCall hg (σ := σ) hinner hcall
          rw [hsettle]
          exact settled_callee hg hpg hinner.1 (Node.onlyCall?_mem hcall) hu _
    · rw [settle_outside hg (Nat.not_lt.mp hv)]
      exact .nil

end Built

/-! ### Equations and rules -/

/-- The steps that begin with a link in front of the stack `σ`, and the stacks after them. -/
def Link.Moves (pg : Graph) (σ : List Nat) (l : Link) (st : Step) (τ : List Nat) : Prop :=
  match l.callee? with
  | some u => pg.Moves (u :: l.target :: σ) st τ
  | none => st = l.step ∧ τ = l.target :: σ

section Equations

variable {P : List Nat → Bits} {i : Nat} {s : Subformula} {l : Link} {a : Name} {f : Formula}

theorem stackValue_box (hnode : s.node = .box a f)
    (hcallee : ∀ u, l.callee? = some u → pg.Equation P s (u :: l.target :: σ)) :
    l.stackValue P σ s = true ↔ ∀ st τ, l.Moves pg σ st τ →
      st.hasAction a = true → st.kind = .must → Subformula.at s.left (P τ) = true := by
  unfold Link.stackValue Link.Moves
  cases hc : l.callee? with
  | some u =>
    have heq := hcallee u hc
    simp only [Graph.Equation, hnode] at heq
    exact heq
  | none =>
    simp only [Subformula.behind, hnode]
    constructor
    · rintro h st τ ⟨rfl, rfl⟩ hact hmust
      rwa [if_pos ⟨hact, hmust⟩] at h
    · intro h
      split
      · rename_i hmatch
        exact h _ _ ⟨rfl, rfl⟩ hmatch.1 hmatch.2
      · rfl

theorem stackValue_dia (hnode : s.node = .dia a f)
    (hcallee : ∀ u, l.callee? = some u → pg.Equation P s (u :: l.target :: σ)) :
    l.stackValue P σ s = true ↔ ∃ st τ, l.Moves pg σ st τ ∧
      st.hasAction a = true ∧ Subformula.at s.left (P τ) = true := by
  unfold Link.stackValue Link.Moves
  cases hc : l.callee? with
  | some u =>
    have heq := hcallee u hc
    simp only [Graph.Equation, hnode] at heq
    exact heq
  | none => simp [Subformula.behind, hnode]

variable (hg : Built sp idx pg g)
include hg

/-- A step of a stack begins with a link of the node on top. -/
theorem moves_iff (hn : g.nodes[v]? = some n) {st : Step} {τ : List Nat} :
    pg.Moves (v :: σ) st τ ↔ ∃ l ∈ n.links, l.Moves pg σ st τ := by
  have hisNode := hg.isNode v n hn
  constructor
  · intro hmove
    cases hmove with
    | act hes he hact =>
      obtain ⟨l, hl, hlink⟩ := hisNode.link_of_edge hes he
      refine ⟨l, hl, ?_⟩
      simp [Link.Moves, hlink.callee?_eq, hact, hlink.step_eq, hlink.target_eq]
    | call hes he hcall hu hrest =>
      obtain ⟨l, hl, hlink⟩ := hisNode.link_of_edge hes he
      refine ⟨l, hl, ?_⟩
      rw [Link.Moves, hlink.callee?_eq, if_pos hcall, hu, hlink.target_eq]
      exact hrest
  · rintro ⟨l, hl, hmove⟩
    obtain ⟨es, e, hes, he, hlink⟩ := hisNode.linked hl
    unfold Link.Moves at hmove
    cases hc : l.callee? with
    | none =>
      rw [hc, hlink.step_eq, hlink.target_eq] at hmove
      obtain ⟨rfl, rfl⟩ := hmove
      exact .act hes he (hg.isCall_eq_false hn hl hlink hc)
    | some u =>
      rw [hc, hlink.target_eq] at hmove
      obtain ⟨hcall, hu⟩ := hlink.call_of_callee? hc
      exact .call hes he hcall hu hmove

/-- A box holds behind all links exactly if it holds behind all guaranteed steps. -/
theorem all_stackValue (hnode : s.node = .box a f) (hn : g.Inner v n)
    (hcallee : ∀ l ∈ n.links, ∀ u, l.callee? = some u → pg.Equation P s (u :: l.target :: σ)) :
    n.links.all (Link.stackValue P σ s) = true ↔ ∀ st τ, pg.Moves (v :: σ) st τ →
      st.hasAction a = true → st.kind = .must → Subformula.at s.left (P τ) = true := by
  rw [List.all_eq_true]
  constructor
  · intro hall st τ hmove
    obtain ⟨l, hl, hmove⟩ := (moves_iff hg hn.1).mp hmove
    exact (stackValue_box hnode (hcallee l hl)).mp (hall l hl) st τ hmove
  · intro hmoves l hl
    refine (stackValue_box hnode (hcallee l hl)).mpr fun st τ hmove => hmoves st τ ?_
    exact (moves_iff hg hn.1).mpr ⟨l, hl, hmove⟩

theorem any_stackValue (hnode : s.node = .dia a f) (hn : g.Inner v n)
    (hcallee : ∀ l ∈ n.links, ∀ u, l.callee? = some u → pg.Equation P s (u :: l.target :: σ)) :
    n.links.any (Link.stackValue P σ s) = true ↔ ∃ st τ, pg.Moves (v :: σ) st τ ∧
      st.hasAction a = true ∧ Subformula.at s.left (P τ) = true := by
  rw [List.any_eq_true]
  constructor
  · rintro ⟨l, hl, hvalue⟩
    obtain ⟨st, τ, hmove, hspec⟩ := (stackValue_dia hnode (hcallee l hl)).mp hvalue
    exact ⟨st, τ, (moves_iff hg hn.1).mpr ⟨l, hl, hmove⟩, hspec⟩
  · rintro ⟨st, τ, hmove, hspec⟩
    obtain ⟨l, hl, hmove⟩ := (moves_iff hg hn.1).mp hmove
    exact ⟨l, hl, (stackValue_dia hnode (hcallee l hl)).mpr ⟨st, τ, hmove, hspec⟩⟩

variable (hs : g.index.subs[i]? = some s)
include hs

/-- At a settled stack an equation is what the rule of the node on top says. -/
theorem equation_cons (hn : g.Inner v n) (hcall : n.onlyCall? = none)
    (hcallee : ∀ l ∈ n.links, ∀ u, l.callee? = some u → pg.Equation P s (u :: l.target :: σ)) :
    pg.Equation P s (v :: σ) ↔
      P (v :: σ) i = n.rule s (P (v :: σ)) (Link.stackValue P σ s) := by
  have hvar := hg.coherent.index.var_eq i s hs
  have hshaped := hg.coherent.index.shaped i s hs
  have hholds (p : Name) : pg.configurations.holds (v :: σ) p ↔ n.state.hasProp p = true := by
    constructor
    · rintro ⟨v', σ', t, hc, ht, hp⟩
      obtain ⟨rfl, rfl⟩ := List.cons.inj hc
      obtain rfl : n.state = t := Option.some.inj ((hg.state_eq hn.1).symm.trans ht)
      exact hp
    · exact fun hp => ⟨v, σ, n.state, rfl, hg.state_eq hn.1, hp⟩
  rw [Node.rule, hcall]
  unfold Graph.Equation
  unfold Subformula.Shaped at hshaped
  rw [hvar]
  cases hnode : s.node with
  | not f =>
    simp only [hnode] at hshaped
    obtain ⟨p, rfl⟩ := hshaped
    simp only [hholds]
    cases P (v :: σ) i <;> cases n.state.hasProp p <;> simp
  | atom p =>
    simp only [hholds]
    exact Bool.eq_iff_iff.symm
  | box a f => exact (Bool.eq_iff_iff.trans (iff_congr Iff.rfl (all_stackValue hg hnode hn
      hcallee))).symm
  | dia a f => exact (Bool.eq_iff_iff.trans (iff_congr Iff.rfl (any_stackValue hg hnode hn
      hcallee))).symm
  | _ => rfl

end Equations

/-- Values that do not change by settling and that fulfil the equations of a block, or are
as far from the seed as can be, are not exceeded by what the equations give. -/
theorem stackPre_of_equations (hg : Built sp idx pg g) (hpg : pg.WellFormed) {k : BlockKind}
    {b : Nat} {T P : List Nat → Bits}
    (hlater : ∀ c i, From g.index.subs (b + 1) i → P c i = T c i)
    (hsettle : ∀ c (i : Nat) s, g.index.subs[i]? = some s → s.block = b →
      P (pg.settle c) i = P c i)
    (heq : ∀ (i : Nat) s, g.index.subs[i]? = some s → s.block = b →
      (∀ c, g.Settled c → pg.Equation P s c) ∨ ∀ c, P c i = !k.seed) :
    g.StackPre k b T P := by
  have htop {x y : Bool} (hy : y = !k.seed) : k.Below x y := by
    intro hseed
    cases hk : k.seed <;> simp [hk, hy] at hseed
  refine ⟨hlater, fun i s hs hsb => ?_, fun v σ hv i s hs hsb => ?_,
    fun v n σ hn hex i s hs hsb => ?_, fun v n σ hn i s hs hsb => ?_⟩
  · rcases heq i s hs hsb with hE | hE
    · rw [← (Graph.equation_nil hg.coherent.index hs).mp (hE [] .nil)]
      exact .rfl
    · exact htop (hE [])
  · rw [← hsettle (v :: σ) i s hs hsb, settle_outside hg hv]
    exact .rfl
  · rw [← hsettle (v :: σ) i s hs hsb, settle_exit hg hn hex, hsettle σ i s hs hsb]
    exact .rfl
  · rcases heq i s hs hsb with hE | hE
    · cases hcall : n.onlyCall? with
      | none =>
        have hcallee (l : Link) (hl : l ∈ n.links) (u : Nat) (hu : l.callee? = some u) :=
          hE _ (settled_callee hg hpg hn.1 hl hu (l.target :: σ))
        rw [← (equation_cons hg hs hn hcall hcallee).mp (hE _ (.cons hn hcall))]
        exact .rfl
      | some l =>
        obtain ⟨u, hu, hset⟩ := settle_onlyCall hg (σ := σ) hn hcall
        have hvar := hg.coherent.index.var_eq i s hs
        rw [← hsettle (v :: σ) i s hs hsb, hset, Node.rule, hcall]
        simp only [Link.stackValue, hu, hvar]
        exact .rfl
    · exact htop (hE _)

/-! ### The values of stacks -/

section Values

variable (hg : Built sp idx pg g) (hpg : pg.WellFormed) {a : Assignment} {t : Bits}
  (ha : g.SolvedFrom 0 a)
include hg ha

theorem stackBits_settle (c : List Nat) {i : Nat} (hi : i < g.index.size) :
    g.stackBits a t (pg.settle c) i = g.stackBits a t c i := by
  induction c with
  | nil => rfl
  | cons v σ ih =>
    by_cases hv : v < g.nodes.size
    · obtain ⟨n, hn, hex | hinner⟩ := exit_or_inner hv
      · rw [settle_exit hg hn hex, stackBits_exit hg.coherent ha hn hex hi, ih]
      · cases hcall : n.onlyCall? with
        | none => rw [settle_of_settled hg (.cons hinner hcall)]
        | some l =>
          have hs : g.index.subs[i]? = _ := Array.getElem?_eq_getElem hi
          obtain ⟨u, hu, hsettle⟩ := settle_onlyCall hg (σ := σ) hinner hcall
          rw [hsettle, stackBits_inner hg.coherent ha hinner hs, Node.rule, hcall]
          simp only [Link.stackValue, hu, hg.coherent.index.var_eq i _ hs]
    · rw [settle_outside hg (Nat.not_lt.mp hv), stackBits_outside (Nat.not_lt.mp hv)]
      rfl

include hpg

/-- The values of stacks fulfil the equations at every settled stack, if calls come to an
end. -/
theorem equation_stackBits (ht : g.index.TerminalFrom 0 t) {rank : Nat → Nat}
    (hrank : ∀ (v : Nat) es, pg.out[v]? = some es → ∀ e ∈ es, e.step.isCall = true →
      ∀ u, pg.entry? e.step.call = some u → rank u < rank v) {i : Nat} {s : Subformula}
    (hs : g.index.subs[i]? = some s) {c : List Nat} (hc : g.Settled c) :
    pg.Equation (g.stackBits a t) s c := by
  cases hc with
  | nil =>
    rw [Graph.equation_nil hg.coherent.index hs]
    exact (ht.solved i ⟨s, hs, Nat.zero_le _⟩).symm
  | @cons v n σ hn hcall =>
    induction hr : rank v using Nat.strong_induction_on generalizing v n σ with
    | _ r ih =>
      rw [equation_cons hg hs hn hcall]
      · exact stackBits_inner hg.coherent ha hn hs
      · intro l hl u hu
        have hsettled := settled_callee hg hpg hn.1 hl hu (l.target :: σ)
        cases hsettled with
        | cons hm hmcall =>
          refine ih (rank u) ?_ hm hmcall rfl
          obtain ⟨es, e, hes, he, hlink⟩ := (hg.isNode v n hn.1).linked hl
          obtain ⟨hiscall, hentry⟩ := hlink.call_of_callee? hu
          rw [← hr]
          exact hrank v es hes e he hiscall u hentry

end Values

end DependencyGraph

end MuProc
