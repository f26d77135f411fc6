import MuProc.Proofs.Solutions
import MuProc.Proofs.Terminals

/-!
# Values of stacks

The values of the nodes, applied one after the other to the values at a terminated
process, give the values of a whole stack. These solve equations over stacks: an exit
is popped, and a call puts the callee on top of where the caller goes on. Block by
block they are the extremal solution of these equations, over all the infinitely many
stacks at once.
-/

namespace MuProc

open Index (From)

namespace DependencyGraph

/-- The values of the subformulas at a stack. A number that is no node counts as a
terminated process. -/
def stackBits (g : DependencyGraph) (a : Assignment) (t : Bits) : List Nat → Bits
  | [] => t
  | v :: σ => if v < g.nodes.size then fun i => a.meaning g.space v i (g.stackBits a t σ) else t

/-- What a link in front of the stack `σ` contributes to a subformula. -/
def Link.stackValue (P : List Nat → Bits) (σ : List Nat) (s : Subformula) (l : Link) : Bool :=
  match l.callee? with
  | some u => P (u :: l.target :: σ) s.var
  | none => s.behind l.step (P (l.target :: σ))

/-- Values of stacks that agree with `T` in the later blocks, and whose values in block `b`
are not exceeded by what the equations give. -/
structure StackPre (g : DependencyGraph) (k : BlockKind) (b : Nat) (T P : List Nat → Bits) :
    Prop where
  later : ∀ c i, From g.index.subs (b + 1) i → P c i = T c i
  empty : ∀ (i : Nat) s, g.index.subs[i]? = some s → s.block = b →
    k.Below (g.index.terminalRhs i (P [])) (P [] i)
  outside : ∀ v σ, g.nodes.size ≤ v → ∀ (i : Nat) s, g.index.subs[i]? = some s → s.block = b →
    k.Below (P [] i) (P (v :: σ) i)
  exit : ∀ (v : Nat) n σ, g.nodes[v]? = some n → n.isExit = true →
    ∀ (i : Nat) s, g.index.subs[i]? = some s → s.block = b → k.Below (P σ i) (P (v :: σ) i)
  inner : ∀ v n σ, g.Inner v n → ∀ (i : Nat) s, g.index.subs[i]? = some s → s.block = b →
    k.Below (n.rule s (P (v :: σ)) (Link.stackValue P σ s)) (P (v :: σ) i)

variable {g : DependencyGraph} {a : Assignment} {t : Bits} {v : Nat} {n : Node} {σ : List Nat}

theorem stackBits_node (hv : v < g.nodes.size) (i : Nat) :
    g.stackBits a t (v :: σ) i = a.meaning g.space v i (g.stackBits a t σ) := by
  rw [stackBits, if_pos hv]

theorem stackBits_outside (hv : g.nodes.size ≤ v) : g.stackBits a t (v :: σ) = t := by
  rw [stackBits, if_neg (Nat.not_lt.mpr hv)]

theorem stackBits_exit (hg : g.Coherent) (ha : g.SolvedFrom 0 a) (hn : g.nodes[v]? = some n)
    (hex : n.isExit = true) {i : Nat} (hi : i < g.index.size) :
    g.stackBits a t (v :: σ) i = g.stackBits a t σ i := by
  rw [stackBits_node (Array.getElem?_eq_some_iff.mp hn).1,
    meaning_of_identity hg (ha.exits v n hn hex) hi]

theorem value_eq_stackValue (hg : g.Coherent) (hn : g.nodes[v]? = some n) {l : Link}
    (hl : l ∈ n.links) {i : Nat} {s : Subformula} (hs : g.index.subs[i]? = some s) :
    l.value g.space (a.meaning g.space) i (g.stackBits a t σ) =
      l.stackValue (g.stackBits a t) σ s := by
  have hreads (u : Nat) := hg.reads_lt v n hn l hl u
  have htarget : (fun j => a.meaning g.space l.target j (g.stackBits a t σ)) =
      g.stackBits a t (l.target :: σ) :=
    funext fun j => (stackBits_node (hreads _ (.inl rfl)) j).symm
  unfold Link.value Link.stackValue
  rw [htarget, hg.index.var_eq i s hs]
  cases hc : l.callee? with
  | some u => exact (stackBits_node (hreads u (.inr hc)) i).symm
  | none => exact (hg.action v n hn l hl hc).2 i s hs _

theorem stackBits_inner (hg : g.Coherent) (ha : g.SolvedFrom 0 a) (hn : g.Inner v n) {i : Nat}
    {s : Subformula} (hs : g.index.subs[i]? = some s) :
    g.stackBits a t (v :: σ) i =
      n.rule s (g.stackBits a t (v :: σ)) (Link.stackValue (g.stackBits a t) σ s) := by
  have hself : (fun j => a.meaning g.space v j (g.stackBits a t σ)) = g.stackBits a t (v :: σ) :=
    funext fun j => (stackBits_node hn.lt j).symm
  rw [stackBits_node hn.lt, ← ha.solved v n hn i ⟨s, hs, Nat.zero_le _⟩, rhs_of_sub hs, hself]
  exact Node.rule_congr (hg.index.shaped i s hs) (fun _ _ => rfl) fun l hl =>
    value_eq_stackValue hg hn.1 hl hs

/-! ### Extremality -/

open Classical in
/-- The family of the greatest lower bounds of what `P` allows in front of a stack: where
some stack above the input has the seed, so has the family. -/
noncomputable def envelope (g : DependencyGraph) (a : Assignment) (k : BlockKind) (b : Nat)
    (vars : List Nat) (P : List Nat → Bits) : Family := fun v i x =>
  if i ∉ vars then a.meaning g.space v i x
  else if ∀ n, ¬ g.Inner v n then x i
  else if ∃ σ, (∀ j, From g.index.subs b j → k.Below (x j) (P σ j)) ∧ P (v :: σ) i = k.seed
    then k.seed else !k.seed

variable {k : BlockKind} {b : Nat} {vars : List Nat} {P : List Nat → Bits}

/-- In front of a stack above the input, the family lies below `P`. -/
theorem envelope_below (ha : g.SolvedFrom 0 a) (hb : g.IsBlock b vars)
    (hP : g.StackPre k b (g.stackBits a t) P) {x : Bits}
    (hx : ∀ j, From g.index.subs b j → k.Below (x j) (P σ j)) (hv : v < g.nodes.size) {i : Nat}
    (hi : From g.index.subs b i) : k.Below (g.envelope a k b vars P v i x) (P (v :: σ) i) := by
  unfold envelope
  rcases hb.mem_or_later hi with hi | ⟨hi, hni⟩
  · obtain ⟨s, hs, hsb⟩ := (hb i).mp hi
    rw [if_neg (not_not_intro hi)]
    obtain ⟨n, hn, hex | hinner⟩ := exit_or_inner hv
    · rw [if_pos (not_inner_of_exit hn hex)]
      exact (hx i (hb.from_of_mem hi)).trans (hP.exit v n σ hn hex i s hs hsb)
    · rw [if_neg fun hno => hno n hinner]
      intro hseed
      exact if_pos ⟨σ, hx, hseed⟩
  · rw [if_pos hni, hP.later _ i hi, stackBits_node hv]
    obtain ⟨s, hs, hle⟩ := hi
    refine (ha.sound.regular v).below hs fun j hj => ?_
    have := hx j (from_of_le (Nat.le_of_succ_le hle) hj)
    rwa [hP.later σ j (from_of_le hle hj)] at this

theorem envelope_preSolution (hg : g.Coherent) (ha : g.SolvedFrom 0 a) (hb : g.IsBlock b vars)
    (hP : g.StackPre k b (g.stackBits a t) P) :
    g.PreSolution k b vars (a.meaning g.space) (g.envelope a k b vars P) where
  later v _ i hi := by
    funext x
    exact if_pos (hb.not_mem_of_later hi)
  exits v n hn hex i hi := by
    obtain ⟨s, hs, -⟩ := (hb i).mp hi
    funext x
    rw [envelope, if_neg (not_not_intro hi), if_pos (not_inner_of_exit hn hex),
      meaning_of_assigned (ha.exits v n hn hex)]
    exact (Space.meaning_identity Func hg.space (hg.index_lt hs) x).symm
  rhs_below v n hn i hi x := by
    obtain ⟨s, hs, hsb⟩ := (hb i).mp hi
    -- if the family has the seed, some stack has it, and the equation of that stack gives it
    intro hseed
    obtain ⟨σ, hx, hPseed⟩ : ∃ σ, (∀ j, From g.index.subs b j → k.Below (x j) (P σ j)) ∧
        P (v :: σ) i = k.seed := by
      rw [envelope, if_neg (not_not_intro hi), if_neg fun hno => hno n hn] at hseed
      by_contra hnone
      rw [if_neg hnone] at hseed
      cases hk : k.seed <;> simp [hk] at hseed
    have hbelow {w : Nat} {τ : List Nat} {y : Bits}
        (hy : ∀ j, From g.index.subs b j → k.Below (y j) (P τ j)) (hw : w < g.nodes.size) {j : Nat}
        (hj : From g.index.subs b j) := envelope_below ha hb hP hy hw hj
    have hrule : k.Below (n.rule s (fun j => g.envelope a k b vars P v j x)
        (Link.value g.space (g.envelope a k b vars P) i x))
        (n.rule s (P (v :: σ)) (Link.stackValue P σ s)) := by
      refine Node.rule_below (hg.index.shaped i s hs) (fun j hj => hbelow hx hn.lt (hsb ▸ hj))
        fun l hl => ?_
      have hreads (u : Nat) := hg.reads_lt v n hn.1 l hl u
      have htarget (j : Nat) (hj : From g.index.subs b j) := hbelow hx (hreads _ (.inl rfl)) hj
      unfold Link.value Link.stackValue
      rw [hg.index.var_eq i s hs]
      cases hc : l.callee? with
      | some u => exact hbelow htarget (hreads u (.inr hc)) (hb.from_of_mem hi)
      | none =>
        simp only [(hg.action v n hn.1 l hl hc).2 i s hs]
        exact BlockKind.below_of_monotone
          (fun _ _ => behind_le (hg.index.shaped i s hs) (hg.from_self hs) l.step)
          fun j hj => htarget j (hsb ▸ hj)
    rw [rhs_of_sub hs]
    exact (hrule.trans (hP.inner v n σ hn i s hs hsb)) hPseed

/-- Block by block, the values of stacks are the extremal solution of their equations. -/
theorem stackBits_below (hg : g.Coherent) (ha : g.SolvedFrom 0 a) {B : Block}
    (hB : g.index.blocks[b]? = some B) (ht : g.index.TerminalFrom 0 t)
    (hP : g.StackPre B.kind b (g.stackBits a t) P) (c : List Nat) (i : Nat)
    (hi : From g.index.subs b i) : B.kind.Below (g.stackBits a t c i) (P c i) := by
  have hb := hg.isBlock hB
  have hlater {c : List Nat} {i : Nat} (hi : From g.index.subs (b + 1) i) :
      B.kind.Below (g.stackBits a t c i) (P c i) := by
    rw [hP.later c i hi]
    exact .rfl
  have hnil (i : Nat) (hi : From g.index.subs b i) : B.kind.Below (t i) (P [] i) :=
    ht.least b B (Nat.zero_le b) hB (P []) (fun j hj => hP.later [] j hj) (fun j hj => by
      obtain ⟨s, hs, hsb⟩ := (hb j).mp hj
      exact hP.empty j s hs hsb) i hi
  induction c generalizing i with
  | nil => exact hnil i hi
  | cons v σ ih =>
    rcases hb.mem_or_later hi with hmem | ⟨hi, -⟩
    · obtain ⟨s, hs, hsb⟩ := (hb i).mp hmem
      by_cases hv : v < g.nodes.size
      · obtain ⟨n, hn, hex | hinner⟩ := exit_or_inner hv
        · rw [stackBits_exit hg ha hn hex (Array.getElem?_eq_some_iff.mp hs).1]
          exact (ih i hi).trans (hP.exit v n σ hn hex i s hs hsb)
        · rw [stackBits_node hv]
          exact (ha.least b B (Nat.zero_le b) hB _ (envelope_preSolution hg ha hb hP) v hv i hi
            _).trans (envelope_below ha hb hP ih hv hi)
      · rw [stackBits_outside (Nat.not_lt.mp hv)]
        exact (hnil i hi).trans (hP.outside v σ (Nat.not_lt.mp hv) i s hs hsb)
    · exact hlater hi

end DependencyGraph

end MuProc
