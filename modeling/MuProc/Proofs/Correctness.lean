import MuProc.Proofs.Approximation
import MuProc.Proofs.Guardedness
import MuProc.Proofs.Totality

/-!
# Correctness of a check

The values that a check finds, applied one after the other along a stack of states, are
the truth of all subformulas at the configuration that the stack stands for. There are
infinitely many configurations; a check looks at finitely many states only.
-/

namespace MuProc

open DependencyGraph (equation_stackBits settle_of_settled settled_settle stackBits_below
  stackBits_node stackBits_settle stackPre_of_equations)

/-- The values of all subformulas at a stack of states: the values of the state on top in
front of those of the rest, and below all states those of a terminated process. -/
def Result.stackValues? (r : Result) : List Nat → Option (List Bool)
  | [] => some r.terminal
  | v :: σ => do r.graph.space.evalAll? (← r.assign[v]?) (← r.stackValues? σ)

/-- The values of a stack that the solution stands for. -/
def Result.stackBits (r : Result) : List Nat → Bits :=
  r.graph.stackBits r.assign fun j => r.terminal.getD j false

variable {idx : Index} {pg : Graph} {r : Result}

namespace Checked

theorem stackValues (h : Checked idx pg r) {c : List Nat} (hc : ∀ v ∈ c, v < pg.size) :
    ∃ l, r.stackValues? c = some l ∧ l.length = idx.size ∧
      ∀ i, l.getD i false = r.stackBits c i := by
  have hcoh := h.built.coherent
  have hdim : r.graph.space.dim = idx.size := by rw [hcoh.dim_eq, h.built.index_eq]
  induction c with
  | nil => exact ⟨r.terminal, rfl, h.length_terminal, fun _ => rfl⟩
  | cons v σ ih =>
    obtain ⟨l, hl, hlen, hbits⟩ := ih fun u hu => hc u (List.mem_cons_of_mem _ hu)
    have hv : v < r.graph.nodes.size := h.built.size_eq.symm ▸ hc v (List.mem_cons_self ..)
    obtain ⟨t, ht, hvalid, hmeaning⟩ := h.solved.sound.valid.getElem? hv
    obtain ⟨out, hout, houtlen, houtbits⟩ :=
      Space.evalAll?_spec hcoh.space hvalid (hlen.trans hdim.symm)
    refine ⟨out, ?_, houtlen.trans hdim, fun i => ?_⟩
    · simp only [Result.stackValues?, ht, hl, Option.bind_eq_bind, Option.bind_some, hout]
    · rw [houtbits, Result.stackBits, stackBits_node hv, hmeaning]
      congr 1
      exact funext hbits

theorem solution (h : Checked idx pg r) (hpg : pg.WellFormed) {rank : Nat → Nat}
    (hrank : ∀ (v : Nat) es, pg.out[v]? = some es → ∀ e ∈ es, e.step.isCall = true →
      ∀ u, pg.entry? e.step.call = some u → rank u < rank v) : pg.Solution idx r.stackBits := by
  have hg := h.built
  have hindex := hg.index_eq
  have hterm := h.terminal
  subst hindex
  have hsettled {c : List Nat} (hc : pg.settle c = c) : r.graph.Settled c :=
    hc ▸ settled_settle hg hpg c
  refine ⟨fun c => settle_of_settled hg (settled_settle hg hpg c),
    fun c i hi => stackBits_settle hg h.solved c hi,
    fun i s hs c hc => equation_stackBits hg hpg h.solved hterm hrank hs (hsettled hc), ?_⟩
  intro b B hB P hlater hsettle heq
  refine stackBits_below hg.coherent h.solved hB hterm
    (stackPre_of_equations hg hpg hlater hsettle fun i s hs hsb => ?_)
  refine (heq i s hs hsb).imp_left fun hE c hc => ?_
  exact hE c (settle_of_settled hg hc)

end Checked

/-- A check of a valid system computes, for every stack of states, which subformulas hold at
the configuration that the stack stands for. A subformula is meant where it stands: its
variables denote the fixpoints around it, and what `ρ` says is never looked at. -/
theorem check_correct (sys : ProcessSystem) (f : Formula) (idx : Index)
    (hsys : sys.validate = .ok ()) (hidx : Index.ofFormula f.normal = .ok idx) :
    ∃ pg, Graph.expand sys = .ok pg ∧
      (idx.size ≤ Space.maxDim → ∃ r, check sys f = .ok r) ∧
      ∀ r, check sys f = .ok r → idx.terminal? = some r.terminal ∧
        ∀ c : List Nat, (∀ v ∈ c, v < pg.size) →
          ∃ l, r.stackValues? c = some l ∧ l.length = idx.size ∧
            ∀ (i : Nat) s, idx.subs[i]? = some s → ∀ ρ, ∃ ρ',
              (f.normal.occurrences pg.configurations ρ)[i]? = some (s.node, ρ') ∧
              (l[i]? = some true ↔ pg.settle c ∈ s.node.denote pg.configurations ρ') := by
  refine ⟨.ofSystem sys, Graph.expand_eq_ok.mpr ⟨hsys, rfl⟩, fun hsize => ?_, fun r hr => ?_⟩
  · obtain ⟨sp, hsp⟩ := Space.make_order (Index.wellFormed_of_ofFormula hidx) hsize
    obtain ⟨r, hr, -⟩ := check_spec (o := {}) rfl hidx hsys hsp
    exact ⟨r, hr false⟩
  have h : Checked idx (.ofSystem sys) r := checked_of_check (o := {}) hidx hsys hr
  obtain ⟨rank, hrank⟩ := Graph.ofSystem_guarded hsys
  have hsol := h.solution (Graph.ofSystem_wellFormed sys).1 hrank
  obtain ⟨n, rfl, hsize, hhead, hlaid, -⟩ := Index.laid_of_ofFormula hidx
  refine ⟨h.terminal_eq, fun c hc => ?_⟩
  obtain ⟨l, hl, hlen, hbits⟩ := h.stackValues hc
  refine ⟨l, hl, hlen, fun i s hs ρ => ?_⟩
  have hi : i < f.normal.size := hsize ▸ (Array.getElem?_eq_some_iff.mp hs).1
  obtain ⟨t, ht, ρ', hρ'⟩ := hlaid.occurrence (L := Graph.configurations (.ofSystem sys)) ρ hi
  rw [Nat.zero_add] at ht
  obtain rfl : s = t := Option.some.inj (hs.symm.trans ht)
  have hmeans := Graph.means_of_laid hsol hhead hlaid (Nat.le_of_eq hsize.symm) ρ i hi c
  rw [Nat.zero_add, Formula.meaningAt, hρ', Option.elim_some, ← hbits] at hmeans
  refine ⟨ρ', hρ', Iff.trans ?_ hmeans⟩
  rw [List.getD_eq_getElem?_getD]
  cases l[i]? with
  | none => simp
  | some b => simp

/-- A process that repeats itself before it ends, at every one of its stacks. -/
theorem check_correct_loop :
    ∃ pg r, Graph.expand (.ofDefinitions "P" [
        { name := "P", rules := [[.act "a" .must, .run "P", .act "c" .must], [.act "b" .may]] }]) =
        .ok pg ∧
      check (.ofDefinitions "P" [
        { name := "P", rules := [[.act "a" .must, .run "P", .act "c" .must], [.act "b" .may]] }])
        (.not (.mu "X" (.or (.atom "p") (.dia "" (.var "X"))))) = .ok r ∧
      ∀ c : List Nat, (∀ v ∈ c, v < pg.size) → ∃ l, r.stackValues? c = some l ∧ ∀ ρ,
        (l[5]? = some true ↔ pg.settle c ∈ Formula.denote pg.configurations ρ
          (.nu "X" (.and (.not (.atom "p")) (.box "" (.var "X"))))) := by
  obtain ⟨idx, hidx⟩ : ∃ idx, Index.ofFormula (Formula.normal
      (.not (.mu "X" (.or (.atom "p") (.dia "" (.var "X")))))) = .ok idx := ⟨_, rfl⟩
  obtain ⟨pg, hpg, htotal, h⟩ := check_correct (.ofDefinitions "P" [
      { name := "P", rules := [[.act "a" .must, .run "P", .act "c" .must], [.act "b" .may]] }])
    (.not (.mu "X" (.or (.atom "p") (.dia "" (.var "X"))))) idx rfl hidx
  obtain ⟨r, hr⟩ := htotal (by
    obtain rfl := Except.ok.inj hidx
    decide)
  refine ⟨pg, r, hpg, hr, fun c hc => ?_⟩
  obtain ⟨l, hl, -, hspec⟩ := (h r hr).2 c hc
  refine ⟨l, hl, fun ρ => ?_⟩
  obtain ⟨s, hs⟩ : ∃ s, idx.subs[5]? = some s := by
    obtain rfl := Except.ok.inj hidx
    exact ⟨_, rfl⟩
  obtain ⟨ρ', hρ', hiff⟩ := hspec 5 s hs ρ
  obtain ⟨hnode, rfl⟩ : Formula.nu "X" (.and (.not (.atom "p")) (.box "" (.var "X"))) = s.node ∧
      ρ = ρ' := Prod.mk.inj (Option.some.inj hρ')
  rwa [hnode]

end MuProc
