import MuProc.Proofs.Approximation
import Mathlib.Data.List.Forall2

/-!
# Dead states

A state without propositions and steps, in whatever system it stands: what holds there depends
on nothing but the formula. The values of a terminated process are these truths, and so are the
values of a node that has no links and no propositions. The first part compares any two dead
states, so that the empty graph can stand for all of them; the second one compares the equations
of a node with those of a terminated process, block by block.
-/

namespace MuProc

open Index (From)

structure ModalSystem.Dead {S : Type} (M : ModalSystem S) (s : S) : Prop where
  holds : ∀ p, ¬ M.holds s p
  must : ∀ a t, ¬ M.must s a t
  may : ∀ a t, ¬ M.may s a t

namespace Formula

variable {S T : Type} {s : S} {t : T}

/-! ### Fixpoints at two states

Two operators that agree at a pair of states whenever their arguments do have fixpoints that
agree there. The sets to compare with are determined at the pair and otherwise as large, or as
small, as they can be. -/

theorem mem_least_of_mem {F : Set S → Set S} {G : Set T → Set T}
    (h : ∀ Y Z, (s ∈ Y ↔ t ∈ Z) → (s ∈ F Y ↔ t ∈ G Z)) (hs : s ∈ ⋂₀ {Y | F Y ⊆ Y}) :
    t ∈ ⋂₀ {Z | G Z ⊆ Z} := by
  intro Z hZ
  have hagree : s ∈ {u | u = s → t ∈ Z} ↔ t ∈ Z := ⟨fun hz => hz rfl, fun hz _ => hz⟩
  refine hs {u | u = s → t ∈ Z} (fun u hu heq => ?_) rfl
  subst heq
  exact hZ ((h _ _ hagree).mp hu)

theorem mem_greatest_of_mem {F : Set S → Set S} {G : Set T → Set T}
    (h : ∀ Y Z, (s ∈ Y ↔ t ∈ Z) → (s ∈ F Y ↔ t ∈ G Z)) (hs : s ∈ ⋃₀ {Y | Y ⊆ F Y}) :
    t ∈ ⋃₀ {Z | Z ⊆ G Z} := by
  obtain ⟨Y, hY, hsY⟩ := hs
  refine ⟨{t}, fun u hu => ?_, rfl⟩
  obtain rfl := Set.mem_singleton_iff.mp hu
  have hagree : s ∈ Y ↔ u ∈ ({u} : Set T) := iff_of_true hsY rfl
  exact (h _ _ hagree).mp (hY hsY)

theorem update_agree {ρ : Name → Set S} {ρ' : Name → Set T} {Y : Set S} {Z : Set T}
    (hρ : ∀ x, s ∈ ρ x ↔ t ∈ ρ' x) (h : s ∈ Y ↔ t ∈ Z) (x y : Name) :
    s ∈ Function.update ρ x Y y ↔ t ∈ Function.update ρ' x Z y := by
  by_cases hy : y = x
  · subst hy
    rwa [Function.update_self, Function.update_self]
  · rw [Function.update_of_ne hy, Function.update_of_ne hy]
    exact hρ y

section Dead

variable {M : ModalSystem S} {N : ModalSystem T} (hs : M.Dead s) (ht : N.Dead t)
include hs ht

/-- Two dead states satisfy the same formulas if their variables do not tell them apart. -/
theorem mem_denote_dead {f : Formula} {ρ : Name → Set S} {ρ' : Name → Set T}
    (hρ : ∀ x, s ∈ ρ x ↔ t ∈ ρ' x) : s ∈ denote M ρ f ↔ t ∈ denote N ρ' f := by
  induction f generalizing ρ ρ' with
  | tt => exact iff_of_true trivial trivial
  | ff => exact iff_of_false id id
  | atom p => exact iff_of_false (hs.holds p) (ht.holds p)
  | not f ih => exact not_congr (ih hρ)
  | and f g ihf ihg => exact and_congr (ihf hρ) (ihg hρ)
  | or f g ihf ihg => exact or_congr (ihf hρ) (ihg hρ)
  | box a f ih =>
    exact iff_of_true (fun b u _ hstep => absurd hstep (hs.must b u))
      fun b u _ hstep => absurd hstep (ht.must b u)
  | dia a f ih =>
    refine iff_of_false ?_ ?_
    · rintro ⟨b, u, -, hmust | hmay, -⟩
      · exact hs.must b u hmust
      · exact hs.may b u hmay
    · rintro ⟨b, u, -, hmust | hmay, -⟩
      · exact ht.must b u hmust
      · exact ht.may b u hmay
  | mu x f ih =>
    have hbody (Y : Set S) (Z : Set T) (h : s ∈ Y ↔ t ∈ Z) := ih (update_agree hρ h x)
    exact ⟨mem_least_of_mem hbody, mem_least_of_mem fun Z Y h => (hbody Y Z h.symm).symm⟩
  | nu x f ih =>
    have hbody (Y : Set S) (Z : Set T) (h : s ∈ Y ↔ t ∈ Z) := ih (update_agree hρ h x)
    exact ⟨mem_greatest_of_mem hbody, mem_greatest_of_mem fun Z Y h => (hbody Y Z h.symm).symm⟩
  | var x => exact hρ x

/-- Where a subformula stands below fixpoints, its variables do not tell dead states apart. -/
theorem occurrences_dead {φ : Formula} {ρ : Name → Set S} {ρ' : Name → Set T}
    (hρ : ∀ x, s ∈ ρ x ↔ t ∈ ρ' x) :
    List.Forall₂ (fun o o' => o.1 = o'.1 ∧ ∀ x, s ∈ o.2 x ↔ t ∈ o'.2 x)
      (occurrences M ρ φ) (occurrences N ρ' φ) := by
  have hself (φ : Formula) {ρ : Name → Set S} {ρ' : Name → Set T}
      (hρ : ∀ x, s ∈ ρ x ↔ t ∈ ρ' x) :
      List.Forall₂ (fun o o' => o.1 = o'.1 ∧ ∀ x, s ∈ o.2 x ↔ t ∈ o'.2 x)
        [(φ, ρ)] [(φ, ρ')] := .cons ⟨rfl, hρ⟩ .nil
  induction φ generalizing ρ ρ' with
  | tt => exact hself _ hρ
  | ff => exact hself _ hρ
  | atom p => exact hself _ hρ
  | var x => exact hself _ hρ
  | not f ih => exact List.rel_append (ih hρ) (hself _ hρ)
  | and f g ihf ihg => exact List.rel_append (List.rel_append (ihf hρ) (ihg hρ)) (hself _ hρ)
  | or f g ihf ihg => exact List.rel_append (List.rel_append (ihf hρ) (ihg hρ)) (hself _ hρ)
  | box a f ih => exact List.rel_append (ih hρ) (hself _ hρ)
  | dia a f ih => exact List.rel_append (ih hρ) (hself _ hρ)
  | mu x f ih =>
    exact List.rel_append (ih (update_agree hρ (mem_denote_dead hs ht hρ) x)) (hself _ hρ)
  | nu x f ih =>
    exact List.rel_append (ih (update_agree hρ (mem_denote_dead hs ht hρ) x)) (hself _ hρ)

theorem mem_meaningAt_dead {φ : Formula} {ρ : Name → Set S} {ρ' : Name → Set T}
    (hρ : ∀ x, s ∈ ρ x ↔ t ∈ ρ' x) (j : Nat) :
    s ∈ meaningAt M ρ φ j ↔ t ∈ meaningAt N ρ' φ j := by
  have hall := occurrences_dead hs ht hρ (φ := φ)
  have hlen := hall.length_eq
  unfold meaningAt
  by_cases hj : j < (occurrences M ρ φ).length
  · have hj' : j < (occurrences N ρ' φ).length := by omega
    obtain ⟨hnode, hagree⟩ := hall.get hj hj'
    rw [List.getElem?_eq_getElem hj, List.getElem?_eq_getElem hj', Option.elim_some,
      Option.elim_some]
    simp only [List.get_eq_getElem] at hnode hagree
    rw [← hnode]
    exact mem_denote_dead hs ht hagree
  · rw [List.getElem?_eq_none (by omega), List.getElem?_eq_none (by omega)]
    exact iff_of_false id id

end Dead

end Formula

/-! ### A terminated process -/

namespace Graph

theorem dead_nil (pg : Graph) : pg.configurations.Dead [] where
  holds p := by
    rintro ⟨v, σ, s, hc, -⟩
    cases hc
  must a c := by
    rintro ⟨s, τ, hmove, -⟩
    cases hmove
  may a c := by
    rintro ⟨s, τ, hmove, -⟩
    cases hmove

theorem settle_of_empty (c : List Nat) : ({} : Graph).settle c = [] := by
  cases c with
  | nil => rfl
  | cons v σ => simp [settle]

/-- Over the graph without states, the values of a terminated process solve the equations. -/
theorem solution_of_terminal {idx : Index} {c : Bits} (h : idx.WellFormed)
    (hc : idx.TerminalFrom 0 c) : ({} : Graph).Solution idx fun _ => c where
  settle_settle σ := by rw [settle_of_empty, settle_of_empty]
  settle _ _ _ := rfl
  equation i s hs σ hσ := by
    obtain rfl : σ = [] := by rw [← hσ, settle_of_empty]
    rw [equation_nil h hs]
    exact (hc.solved i ⟨s, hs, Nat.zero_le _⟩).symm
  extremal b B hB P hlater hsettle heq σ i hi := by
    -- all stacks settle to the empty one, so the values there decide
    have hnil (j : Nat) (hj : From idx.subs b j) : P σ j = P [] j := by
      obtain ⟨s, hs, hle⟩ := hj
      by_cases hsb : s.block = b
      · rw [← hsettle σ j s hs hsb, settle_of_empty]
      · have hfrom : From idx.subs (b + 1) j := ⟨s, hs, by omega⟩
        rw [hlater σ j hfrom, hlater [] j hfrom]
    rw [hnil i hi]
    refine hc.least b B (Nat.zero_le b) hB (P []) (fun j hj => hlater [] j hj) (fun j hj => ?_) i hi
    obtain ⟨s, hs, hsb⟩ := (h.mem_vars hB).mp hj
    rcases heq j s hs hsb with hE | hfar
    · rw [← (equation_nil h hs).mp (hE [] rfl)]
      exact .rfl
    · intro hseed
      rw [hfar []] at hseed
      cases hk : B.kind.seed <;> simp [hk] at hseed

end Graph

theorem Index.terminal_iff {f : Formula} {idx : Index} {c : Bits} (hidx : ofFormula f = .ok idx)
    (hc : idx.TerminalFrom 0 c) {S : Type} {M : ModalSystem S} {s : S} (hs : M.Dead s)
    (ρ : Name → Set S) {i : Nat} (hi : i < idx.size) :
    c i = true ↔ s ∈ f.meaningAt M ρ i := by
  have hwf := wellFormed_of_ofFormula hidx
  obtain ⟨n, rfl, hsize, hhead, hlaid, -⟩ := laid_of_ofFormula hidx
  have hi' : i < f.size := hsize ▸ hi
  have hmeans := Graph.means_of_laid (Graph.solution_of_terminal hwf hc) hhead hlaid
    (Nat.le_of_eq hsize.symm) (fun x => {_c | s ∈ ρ x}) i hi' []
  rw [Nat.zero_add] at hmeans
  exact hmeans.trans (Formula.mem_meaningAt_dead (Graph.dead_nil _) hs (fun _ => Iff.rfl) i)

/-! ### A node without links -/

namespace DependencyGraph

variable {g : DependencyGraph} {a : Assignment} {v : Nat} {n : Node}

theorem Node.rule_dead (hlinks : n.links = []) (hprops : n.state.props = []) (s : Subformula)
    (c : Bits) (L : Link → Bool) : n.rule s c L = Index.deadNode.rule s c fun _ => false := by
  have hcall : n.onlyCall? = none := by
    unfold onlyCall?
    rw [hlinks]
    cases n.state.place <;> rfl
  have hcall' : Index.deadNode.onlyCall? = none := rfl
  have hprop (p : Name) : n.state.hasProp p = Index.deadNode.state.hasProp p := by
    unfold State.hasProp
    rw [hprops]
    rfl
  have hlinks' : Index.deadNode.links = [] := rfl
  unfold rule
  rw [hcall, hcall', hlinks, hlinks']
  simp only [hprop]
  rfl

theorem rhs_dead (hlinks : n.links = []) (hprops : n.state.props = []) (A : Family) (i : Nat)
    (x c : Bits) : g.rhs A n i x c = g.index.terminalRhs i c := by
  unfold rhs Index.terminalRhs
  cases g.index.subs[i]? with
  | none => rfl
  | some s => exact Node.rule_dead hlinks hprops s c _

section Node

variable {c : Bits} (hg : g.Coherent) (ha : g.SolvedFrom 0 a) (hc : g.index.TerminalFrom 0 c)
  (hn : g.Inner v n) (hlinks : n.links = []) (hprops : n.state.props = [])
include hg ha hc hn hlinks hprops

/-- With the values of a terminated process at the node, the others still are not exceeded by
their right-hand sides, as these values do not exceed those of the node. -/
theorem preSolution_dead {b : Nat} {B : Block} (hB : g.index.blocks[b]? = some B)
    (hlater : ∀ i, From g.index.subs (b + 1) i → ∀ x, a.meaning g.space v i x = c i)
    (hbelow : ∀ i, From g.index.subs b i → ∀ x, B.kind.Below (c i) (a.meaning g.space v i x)) :
    g.PreSolution B.kind b B.vars (a.meaning g.space)
      (Function.update (a.meaning g.space) v fun i _ => c i) := by
  have hself : Function.update (a.meaning g.space) v (fun i _ => c i) v = fun i _ => c i :=
    Function.update_self ..
  have hother {w : Nat} (hw : w ≠ v) :
      Function.update (a.meaning g.space) v (fun i _ => c i) w = a.meaning g.space w :=
        Function.update_of_ne hw ..
  have hrel : g.Related B.kind b (Function.update (a.meaning g.space) v fun i _ => c i)
      (a.meaning g.space) := by
    refine related_of_regular (fun w => ?_) fun w _ i hi x => ?_
    · by_cases hw : w = v
      · subst hw
        rw [hself]
        exact fun _ _ _ _ _ _ => le_rfl
      · rw [hother hw]
        exact ha.sound.regular w
    · by_cases hw : w = v
      · subst hw
        rw [hself]
        exact hbelow i hi x
      · rw [hother hw]
        exact .rfl
  refine ⟨fun w _ i hi => ?_, fun w m hm hex i _ => ?_, fun w m hm i hi x => ?_⟩
  · by_cases hw : w = v
    · subst hw
      rw [hself]
      exact funext fun x => (hlater i hi x).symm
    · rw [hother hw]
  · have hw : w ≠ v := by
      intro heq
      subst heq
      exact not_inner_of_exit hm hex n hn
    rw [hother hw]
  · obtain ⟨s, hs, hsb⟩ := (hg.isBlock hB i).mp hi
    by_cases hw : w = v
    · subst hw
      obtain rfl : n = m := Option.some.inj (hn.1.symm.trans hm.1)
      rw [hself, rhs_dead hlinks hprops, hc.solved i ⟨s, hs, Nat.zero_le _⟩]
      exact .rfl
    · rw [hother hw, ← ha.solved w m hm i ⟨s, hs, Nat.zero_le _⟩ x]
      exact hrel.rhs hg hm.1 hs (Nat.le_of_eq hsb.symm) (fun _ _ => .rfl) fun _ _ => .rfl

/-- The values of such a node are those of a terminated process, in front of every
continuation. -/
theorem meaning_dead {i : Nat} (hi : From g.index.subs 0 i) (x : Bits) :
    a.meaning g.space v i x = c i := by
  have hfrom (m : Nat) : ∀ b, b + m = g.index.blocks.size →
      ∀ i, From g.index.subs b i → ∀ x, a.meaning g.space v i x = c i := by
    -- from the last block outwards; each lies on both sides of the other solution
    induction m with
    | zero => exact fun b hb i hi => absurd hi (hg.index.not_from (Nat.le_of_eq hb.symm))
    | succ m ih =>
      intro b hb i hi x
      have hlater := ih (b + 1) (by omega)
      have hB := Array.getElem?_eq_getElem (show b < g.index.blocks.size by omega)
      have hbelow (i : Nat) (hi : From g.index.subs b i) (x : Bits) :
          (g.index.blocks[b]).kind.Below (c i) (a.meaning g.space v i x) := by
        refine hc.least b _ (Nat.zero_le b) hB (fun j => a.meaning g.space v j x)
          (fun j hj => hlater j hj x) (fun j hj => ?_) i hi
        obtain ⟨s, hs, -⟩ := (hg.isBlock hB j).mp hj
        rw [← rhs_dead hlinks hprops (a.meaning g.space) j x,
          ha.solved v n hn j ⟨s, hs, Nat.zero_le _⟩ x]
        exact .rfl
      have habove := ha.least b _ (Nat.zero_le b) hB _
        (preSolution_dead hg ha hc hn hlinks hprops hB hlater hbelow) v hn.lt i hi x
      rw [Function.update_self] at habove
      exact habove.antisymm (hbelow i hi x)
  exact hfrom g.index.blocks.size 0 (Nat.zero_add _) i hi x

theorem evalAll?_dead {l : List Bool} (hl : l.length = g.index.size)
    (hlc : ∀ j, l.getD j false = c j) :
    ∃ t, a[v]? = some t ∧
      ∀ bits : List Bool, bits.length = g.index.size → g.space.evalAll? t bits = some l := by
  obtain ⟨t, ht, hvalid, hmeaning⟩ := ha.sound.valid.getElem? hn.lt
  refine ⟨t, ht, fun bits hbits => ?_⟩
  obtain ⟨out, hout, hlen, hvalues⟩ :=
    Space.evalAll?_spec hg.space hvalid (hbits.trans hg.dim_eq.symm)
  have hsame : out = l := by
    apply List.ext_getElem (hlen.trans (hg.dim_eq.trans hl.symm))
    intro i hi hi'
    have hlt : i < g.index.size := by omega
    have hfrom : From g.index.subs 0 i := ⟨_, Array.getElem?_eq_getElem hlt, Nat.zero_le _⟩
    have hvalue := hvalues i
    rw [← hmeaning, meaning_dead hg ha hc hn hlinks hprops hfrom, ← hlc] at hvalue
    simpa [hi, hi'] using hvalue
  rw [hout, hsame]

end Node

end DependencyGraph

/-! ### Both at once -/

/-- The values of a terminated process can be computed for every numbered formula. They say
which subformulas, each where it stands, hold at a state without propositions and steps; and a
solution has them at every node without links and propositions, whatever comes after it. -/
theorem Index.terminal_agrees {f : Formula} {idx : Index} (hidx : ofFormula f = .ok idx) :
    ∃ l, idx.terminal? = some l ∧ l.length = idx.size ∧
      (∀ (S : Type) (M : ModalSystem S) (s : S), M.Dead s →
        ∀ (i : Nat) sub, idx.subs[i]? = some sub → ∀ ρ, ∃ ρ',
          (f.occurrences M ρ)[i]? = some (sub.node, ρ') ∧
          (l[i]? = some true ↔ s ∈ sub.node.denote M ρ')) ∧
      ∀ sys d order pg sp g invariants a reports,
        Graph.expand sys = .ok pg → Space.make d order = .ok sp →
        DependencyGraph.build sp pg idx = .ok g → g.solve invariants = .ok (a, reports) →
        ∀ (v : Nat) n, g.nodes[v]? = some n → n.isExit = false → n.links = [] →
          n.state.props = [] → ∃ t, a[v]? = some t ∧
            ∀ bits : List Bool, bits.length = idx.size → sp.evalAll? t bits = some l := by
  have hwf := wellFormed_of_ofFormula hidx
  obtain ⟨l, hl, hlen, hterm⟩ := terminal?_spec hwf
  refine ⟨l, hl, hlen, fun S M s hs i sub hsub ρ => ?_, ?_⟩
  · have hi : i < idx.size := (Array.getElem?_eq_some_iff.mp hsub).1
    have hiff := terminal_iff hidx hterm hs ρ hi
    obtain ⟨n, rfl, hsize, -, hlaid, -⟩ := laid_of_ofFormula hidx
    obtain ⟨sub', hsub', ρ', hρ'⟩ := hlaid.occurrence (L := M) ρ (hsize ▸ hi : i < f.size)
    rw [Nat.zero_add] at hsub'
    obtain rfl : sub = sub' := Option.some.inj (hsub.symm.trans hsub')
    rw [Formula.meaningAt, hρ', Option.elim_some] at hiff
    refine ⟨ρ', hρ', Iff.trans ?_ hiff⟩
    have hi' : i < l.length := hlen.symm ▸ hi
    simp [hi']
  · intro sys d order pg sp g invariants a reports hpg hsp hg hsolve v n hn hexit hlinks hprops
    have hbuilt := DependencyGraph.built_of_build hidx hpg hsp hg
    obtain ⟨r, hr, hsolved⟩ :=
      DependencyGraph.solveBy_spec hbuilt.coherent Schedule.first_picks
    have hrun := (DependencyGraph.solveBy_first g invariants).symm.trans (hr invariants)
    obtain rfl : r = (a, reports) := Except.ok.inj (hrun.symm.trans hsolve)
    have hindex := hbuilt.index_eq
    have hspace := hbuilt.space_eq
    subst hindex hspace
    exact DependencyGraph.evalAll?_dead hbuilt.coherent hsolved hterm ⟨hn, hexit⟩ hlinks hprops
      hlen fun _ => rfl

/-- A process that does one step and stops in another one, which has no rules: its entry has
the values of a terminated process, and these are what holds at a single dead state. -/
theorem Index.terminal_agrees_stopped :
    ∃ idx pg sp g a reports t, ofFormula (.mu "X" (.or (.nu "Y" (.and (.box "a" (.var "Y"))
        (.not (.atom "p")))) (.dia "" (.var "X")))) = .ok idx ∧
      Graph.expand (.ofDefinitions "P" [
        { name := "P", rules := [[.act "a" .must, .run "Q"]] }, { name := "Q" }]) = .ok pg ∧
      Space.make idx.size (some (idx.order.map Int.ofNat)) = .ok sp ∧
      DependencyGraph.build sp pg idx = .ok g ∧ g.solve true = .ok (a, reports) ∧
      idx.terminal? = some [true, true, false, true, true, true, true, false, true, true] ∧
      (∀ ρ, () ∈ Formula.denote ⟨fun _ _ => False, fun _ _ _ => False, fun _ _ _ => False⟩ ρ
        (.mu "X" (.or (.nu "Y" (.and (.box "a" (.var "Y")) (.not (.atom "p"))))
          (.dia "" (.var "X"))))) ∧
      a[3]? = some t ∧ ∀ bits : List Bool, bits.length = 10 → sp.evalAll? t bits =
        some [true, true, false, true, true, true, true, false, true, true] := by
  have hvalue : (ofFormula (.mu "X" (.or (.nu "Y" (.and (.box "a" (.var "Y"))
      (.not (.atom "p")))) (.dia "" (.var "X"))))).toOption.bind (·.terminal?) =
      some [true, true, false, true, true, true, true, false, true, true] := by decide +kernel
  obtain ⟨idx, hidx, hterm⟩ : ∃ idx, ofFormula (.mu "X" (.or (.nu "Y" (.and (.box "a" (.var "Y"))
      (.not (.atom "p")))) (.dia "" (.var "X")))) = .ok idx ∧
      idx.terminal? = some [true, true, false, true, true, true, true, false, true, true] := by
    revert hvalue
    generalize ofFormula _ = outcome
    intro hvalue
    cases outcome with
    | error e => cases hvalue
    | ok idx => exact ⟨idx, rfl, hvalue⟩
  have hten : idx.size = 10 := size_of_ofFormula hidx
  have hmax : idx.size ≤ Space.maxDim := hten ▸ by decide
  obtain ⟨sub, hsub⟩ : ∃ sub, idx.subs[9]? = some sub :=
    ⟨_, Array.getElem?_eq_getElem (show 9 < idx.size by omega)⟩
  have hvalid : (ProcessSystem.ofDefinitions "P" [
      { name := "P", rules := [[.act "a" .must, .run "Q"]] }, { name := "Q" }]).validate =
      .ok () := rfl
  obtain ⟨sp, g, hsp, hpg, hg, hbuilt⟩ := DependencyGraph.exists_build hidx hmax hvalid
  obtain ⟨⟨a, reports⟩, hsolve, -⟩ :=
    DependencyGraph.solveBy_spec hbuilt.coherent Schedule.first_picks
  have hsolve := (DependencyGraph.solveBy_first g true).symm.trans (hsolve true)
  obtain ⟨l, hl, -, hdead, hnode⟩ := terminal_agrees hidx
  obtain rfl := Option.some.inj (hl.symm.trans hterm)
  have hthree : 3 < g.nodes.size := by
    rw [hbuilt.size_eq]
    decide
  have hn := Array.getElem?_eq_getElem hthree
  have hisNode := hbuilt.isNode 3 _ hn
  have hplace : (g.nodes[3]).state.place = .entry := by
    rw [← Option.some.inj hisNode.state_eq]
    rfl
  have hprops : (g.nodes[3]).state.props = [] := by
    rw [← Option.some.inj hisNode.state_eq]
    exact List.mergeSort_nil
  obtain ⟨es, hes, hlinked⟩ := hisNode.links
  obtain rfl : [] = es := Option.some.inj hes
  obtain ⟨t, ht, hvalues⟩ := hnode _ _ _ _ _ _ _ _ _ hpg hsp hg hsolve 3 _ hn
    (by simp [DependencyGraph.Node.isExit, hplace]) (List.forall₂_nil_left_iff.mp hlinked) hprops
  refine ⟨idx, _, sp, g, a, reports, t, hidx, hpg, hsp, hg, hsolve, hterm, fun ρ => ?_, ht, ?_⟩
  · obtain ⟨ρ', hρ', hiff⟩ := hdead Unit
      ⟨fun _ _ => False, fun _ _ _ => False, fun _ _ _ => False⟩ ()
      ⟨fun _ => id, fun _ _ => id, fun _ _ => id⟩ 9 sub hsub ρ
    obtain ⟨hnode, rfl⟩ := Prod.mk.inj (Option.some.inj hρ')
    rw [hnode]
    exact hiff.mp rfl
  · rw [hten] at hvalues
    exact hvalues

end MuProc
