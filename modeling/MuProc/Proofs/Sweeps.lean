import MuProc.Solver.Worklist
import MuProc.Proofs.Iteration
import Mathlib.Data.Fintype.BigOperators
import Mathlib.Data.Fintype.Pi
import Mathlib.Data.Fintype.Prod

/-!
# Working on a block

The queued nodes of a block may be evaluated in any order: a schedule picks the next
one. While a block is worked on, every value lies below its right-hand side and below
every solution of the block, and the nodes that are not queued solve their equations.
An evaluation keeps this, never fails, and lowers the number of evaluations that can
still follow, so the queue runs empty at the extremal solution of the block.
-/

namespace MuProc

open Index (From)

/-- Which node comes next in the work on a block. -/
abbrev Schedule := Block → Sweep → Nat

/-- The schedule takes one of the queued nodes. -/
def Schedule.Picks (pick : Schedule) : Prop :=
  ∀ b s, s.queue ≠ [] → pick b s ∈ s.queue

/-- The schedule that takes the first queued node. -/
def Schedule.first : Schedule :=
  fun _ s => s.queue.headD 0

theorem Schedule.first_picks : Schedule.first.Picks := by
  intro b s hs
  unfold first
  cases hq : s.queue with
  | nil => exact absurd hq hs
  | cons v queue => exact List.mem_cons_self ..

namespace DependencyGraph

/-- Evaluates queued nodes in the order of a schedule until none is left. -/
def sweepBy (g : DependencyGraph) (pick : Schedule) (invariants : Bool) (b : Block) :
    (fuel : Nat) → Sweep → Except Fault Sweep
  | fuel, s =>
    if s.queue = [] then .ok s
    else
      match fuel with
      | 0 => .error (.unfinished ((g.nodes[pick b s]?).elim "" (·.state.name)))
      | fuel + 1 => do
        let s ← g.evaluate invariants b (pick b s) { s with queue := s.queue.erase (pick b s) }
        sweepBy g pick invariants b fuel s

theorem sweepBy_first (g : DependencyGraph) (invariants : Bool) (b : Block) (fuel : Nat)
    (s : Sweep) : g.sweepBy Schedule.first invariants b fuel s = g.sweep invariants b fuel s := by
  induction fuel generalizing s with
  | zero =>
    unfold sweepBy sweep Schedule.first
    cases hq : s.queue with
    | nil => simp
    | cons v queue => simp
  | succ fuel ih =>
    unfold sweepBy sweep Schedule.first
    cases hq : s.queue with
    | nil => simp
    | cons v queue =>
      simp only [reduceCtorEq, if_false, List.headD_cons, List.erase_cons_head]
      exact congrArg _ (funext ih)

/-! ### The invariant -/

/-- Block `b` of the formula has the given subformulas. -/
def IsBlock (g : DependencyGraph) (b : Nat) (vars : List Nat) : Prop :=
  ∀ i, i ∈ vars ↔ ∃ s, g.index.subs[i]? = some s ∧ s.block = b

/-- A node that takes part in the iteration. -/
def Inner (g : DependencyGraph) (v : Nat) (n : Node) : Prop :=
  g.nodes[v]? = some n ∧ n.isExit = false

/-- A family that agrees with `A` in the later blocks and at the exits, and whose values
in block `b` are not exceeded by their right-hand sides. -/
structure PreSolution (g : DependencyGraph) (k : BlockKind) (b : Nat) (vars : List Nat)
    (A S : Family) : Prop where
  later : ∀ v < g.nodes.size, ∀ i, From g.index.subs (b + 1) i → S v i = A v i
  exits : ∀ (v : Nat) n, g.nodes[v]? = some n → n.isExit = true → ∀ i ∈ vars, S v i = A v i
  rhs_below : ∀ v n, g.Inner v n → ∀ i ∈ vars, ∀ x,
    k.Below (g.rhs S n i x fun j => S v j x) (S v i x)

/-- The state of the work on a block that started from the assignment `a₀`. -/
structure Working (g : DependencyGraph) (k : BlockKind) (b : Nat) (vars : List Nat)
    (a₀ a : Assignment) (queue : List Nat) : Prop where
  sound : g.SoundAssignment a
  exits : ∀ (v : Nat) n, g.nodes[v]? = some n → n.isExit = true → a[v]? = a₀[v]?
  frame : ∀ v i, i ∉ vars → a.meaning g.space v i = a₀.meaning g.space v i
  below_rhs : ∀ v n, g.Inner v n → ∀ i ∈ vars, ∀ x,
    k.Below (a.meaning g.space v i x)
      (g.rhs (a.meaning g.space) n i x fun j => a.meaning g.space v j x)
  least : ∀ S, g.PreSolution k b vars (a₀.meaning g.space) S →
    ∀ v < g.nodes.size, ∀ i, From g.index.subs b i → ∀ x,
      k.Below (a.meaning g.space v i x) (S v i x)
  solved : ∀ v n, g.Inner v n → v ∉ queue → ∀ i ∈ vars, ∀ x,
    g.rhs (a.meaning g.space) n i x (fun j => a.meaning g.space v j x) = a.meaning g.space v i x
  queued : ∀ v ∈ queue, ∃ n, g.Inner v n
  nodup : queue.Nodup

variable {g : DependencyGraph} {a₀ a : Assignment} {k : BlockKind} {b v : Nat} {n : Node}
  {vars queue : List Nat}

theorem IsBlock.inBlock (h : g.IsBlock b vars) : g.InBlock b vars :=
  fun i hi => (h i).mp hi

theorem IsBlock.from_of_mem (h : g.IsBlock b vars) {i : Nat} (hi : i ∈ vars) :
    From g.index.subs b i := by
  obtain ⟨s, hs, hb⟩ := (h i).mp hi
  exact ⟨s, hs, Nat.le_of_eq hb.symm⟩

theorem IsBlock.not_mem_of_later (h : g.IsBlock b vars) {i : Nat}
    (hi : From g.index.subs (b + 1) i) : i ∉ vars := by
  intro hmem
  obtain ⟨s, hs, hsb⟩ := (h i).mp hmem
  obtain ⟨t, ht, hlt⟩ := hi
  obtain rfl : s = t := Option.some.inj (hs.symm.trans ht)
  omega

theorem IsBlock.mem_or_later (h : g.IsBlock b vars) {i : Nat} (hi : From g.index.subs b i) :
    i ∈ vars ∨ From g.index.subs (b + 1) i ∧ i ∉ vars := by
  obtain ⟨s, hs, hle⟩ := hi
  by_cases hb : s.block = b
  · exact .inl ((h i).mpr ⟨s, hs, hb⟩)
  · have hlater : From g.index.subs (b + 1) i := ⟨s, hs, by omega⟩
    exact .inr ⟨hlater, h.not_mem_of_later hlater⟩

theorem Inner.lt (h : g.Inner v n) : v < g.nodes.size :=
  (Array.getElem?_eq_some_iff.mp h.1).1

theorem exit_or_inner (hv : v < g.nodes.size) :
    ∃ n, g.nodes[v]? = some n ∧ (n.isExit = true ∨ g.Inner v n) := by
  refine ⟨g.nodes[v], Array.getElem?_eq_getElem hv, ?_⟩
  cases h : g.nodes[v].isExit with
  | true => exact .inl rfl
  | false => exact .inr ⟨Array.getElem?_eq_getElem hv, h⟩

theorem not_inner_of_exit (hn : g.nodes[v]? = some n) (hex : n.isExit = true) (m : Node) :
    ¬ g.Inner v m := by
  rintro ⟨hm, hinner⟩
  obtain rfl : n = m := Option.some.inj (hn.symm.trans hm)
  simp [hex] at hinner

/-! ### Replacing the value of a node -/

theorem meaning_setIfInBounds {t : Transformer} (sp : Space) (hv : v < a.size) :
    Assignment.meaning sp (a.setIfInBounds v t) =
      Function.update (a.meaning sp) v (t.meaning sp) := by
  show Transformer.meaning sp ∘ (fun w => (a.setIfInBounds v t).getD w #[]) = _
  rw [getD_setIfInBounds hv, Function.comp_update]
  rfl

theorem SoundAssignment.setIfInBounds (ha : g.SoundAssignment a) {t : Transformer}
    (ht : g.Sound t) (hv : v < g.nodes.size) : g.SoundAssignment (a.setIfInBounds v t) := by
  refine ⟨⟨by simpa using ha.valid.size_eq, fun w r hr => ?_⟩, fun w => ?_⟩
  · rw [Array.getElem?_setIfInBounds] at hr
    split at hr
    · split at hr
      · exact Option.some.inj hr ▸ ht.valid
      · cases hr
    · exact ha.valid.valid w r hr
  · rw [meaning_setIfInBounds g.space (ha.valid.size_eq.symm ▸ hv)]
    by_cases hw : w = v
    · subst hw
      simpa using ht.regular
    · simpa [hw] using ha.regular w

/-- Replacing the value of a node by the recomputed one keeps the invariant, if the nodes
that read it are queued. -/
theorem Working.update (hg : g.Coherent) (hb : g.IsBlock b vars)
    (h : g.Working k b vars a₀ a queue) (hn : g.Inner v n) {c d : Transformer}
    (hc : a[v]? = some c) (hd : g.Recomputed k b vars (a.meaning g.space) n c d) {queue' : List Nat}
    (hqueue : ∀ w m, g.Inner w m → w ∉ queue' →
      (w ∉ queue ∨ w = v) ∧ ∀ l ∈ m.links, ¬ l.Reads v)
    (hqueued : ∀ w ∈ queue', ∃ m, g.Inner w m) (hnodup : queue'.Nodup) :
    g.Working k b vars a₀ (a.setIfInBounds v d) queue' := by
  have hsize : v < a.size := (Array.getElem?_eq_some_iff.mp hc).1
  have hcm : a.meaning g.space v = c.meaning g.space := meaning_of_assigned hc
  have hm := meaning_setIfInBounds (t := d) g.space hsize
  have hself : Assignment.meaning g.space (a.setIfInBounds v d) v = d.meaning g.space := by
    rw [hm, Function.update_self]
  have hother {w : Nat} (hw : w ≠ v) :
      Assignment.meaning g.space (a.setIfInBounds v d) w = a.meaning g.space w := by
    rw [hm, Function.update_of_ne hw]
  have hsound := h.sound.setIfInBounds hd.sound hn.lt
  have hup : g.Related k b (a.meaning g.space) (Assignment.meaning g.space (a.setIfInBounds v d)) :=
    related_of_regular h.sound.regular fun w _ i _ x => by
      by_cases hw : w = v
      · subst hw
        rw [hself, hcm]
        exact (hd.approaches x).above i
      · rw [hother hw]
        exact .rfl
  refine ⟨hsound, fun w m hmn hexit => ?_, fun w i hi => ?_, fun w m hmn i hi x => ?_,
    fun S hS w hw i hi x => ?_, fun w m hmn hw i hi x => ?_, hqueued, hnodup⟩
  · have hwv : w ≠ v := by
      rintro rfl
      exact not_inner_of_exit hmn hexit n hn
    rw [Array.getElem?_setIfInBounds, if_neg (Ne.symm hwv)]
    exact h.exits w m hmn hexit
  · by_cases hw : w = v
    · subst hw
      rw [hself, ← h.frame w i hi, hcm]
      exact funext fun x => (hd.approaches x).frame i hi
    · rw [hother hw]
      exact h.frame w i hi
  · obtain ⟨s, hs, hsb⟩ := hb.inBlock i hi
    have hstep := hup.rhs hg hmn.1 hs (Nat.le_of_eq hsb.symm) (x := x) (fun _ _ => .rfl)
      (c := fun j => Assignment.meaning g.space (a.setIfInBounds v d) w j x) fun _ _ => .rfl
    refine BlockKind.Below.trans ?_ hstep
    by_cases hw : w = v
    · subst hw
      obtain rfl : n = m := Option.some.inj (hn.1.symm.trans hmn.1)
      rw [hself, hd.solved x i hi]
      exact .rfl
    · rw [hother hw]
      exact h.below_rhs w m hmn i hi x
  · by_cases hwv : w = v
    · subst hwv
      rw [hself]
      have hAS := related_of_regular h.sound.regular (h.least S hS)
      refine (hd.approaches x).least (fun j => S w j x) (fun m hmem => ?_) (fun j hj => ?_) i hi
      · obtain ⟨s, hs, hsb⟩ := hb.inBlock m hmem
        exact (hAS.rhs hg hn.1 hs (Nat.le_of_eq hsb.symm) (fun _ _ => .rfl) fun _ _ => .rfl).trans
          (hS.rhs_below w n hn m hmem x)
      · rw [← hcm]
        exact h.least S hS w hw j hj x
    · rw [hother hwv]
      exact h.least S hS w hw i hi x
  · obtain ⟨hold, hreads⟩ := hqueue w m hmn hw
    have hkeep : g.rhs (Assignment.meaning g.space (a.setIfInBounds v d)) m i x
        (fun j => Assignment.meaning g.space (a.setIfInBounds v d) w j x) =
        g.rhs (a.meaning g.space) m i x
          fun j => Assignment.meaning g.space (a.setIfInBounds v d) w j x :=
      rhs_eq_of_reads hg (fun l hl u hu => hother fun huv => hreads l hl (huv ▸ hu)) _
    rw [hkeep]
    by_cases hwv : w = v
    · subst hwv
      obtain rfl : n = m := Option.some.inj (hn.1.symm.trans hmn.1)
      rw [hself]
      exact hd.solved x i hi
    · rw [hother hwv]
      exact h.solved w m hmn (hold.resolve_right hwv) i hi x

/-! ### Evaluating a node -/

theorem enqueue_spec (hnodup : queue.Nodup) {vs : List Nat} (hvs : ∀ v ∈ vs, v < g.nodes.size) :
    ∃ queue', g.enqueue queue vs = .ok queue' ∧ queue'.Nodup ∧
      queue'.length ≤ queue.length + vs.length ∧
      ∀ w, w ∈ queue' ↔ w ∈ queue ∨ w ∈ vs ∧ ∃ m, g.Inner w m := by
  unfold enqueue
  induction vs generalizing queue with
  | nil => exact ⟨queue, rfl, hnodup, Nat.le_refl _, by simp⟩
  | cons v vs ih =>
    obtain ⟨m, hm, hcase⟩ := exit_or_inner (hvs v (List.mem_cons_self ..))
    have hrest (w : Nat) (hw : w ∈ vs) := hvs w (List.mem_cons_of_mem _ hw)
    rw [List.foldlM_cons, isInner, hm]
    rcases hcase with hexit | hinner
    · obtain ⟨queue', hq, hnd, hlen, hmem⟩ := ih hnodup hrest
      refine ⟨queue', ?_, hnd, ?_, fun w => ?_⟩
      · simp only [require, Fold.ok_bind, Fold.pure_eq_ok, hexit, Bool.not_true,
          Bool.false_eq_true, if_false]
        exact hq
      · rw [List.length_cons]
        omega
      · have hnot : w = v → ¬ ∃ m', g.Inner w m' := by
          rintro rfl ⟨m', hm', hex⟩
          obtain rfl : m = m' := Option.some.inj (hm.symm.trans hm')
          simp [hexit] at hex
        rw [hmem, List.mem_cons]
        constructor
        · rintro (hw | ⟨hw, hi⟩)
          · exact .inl hw
          · exact .inr ⟨.inr hw, hi⟩
        · rintro (hw | ⟨rfl | hw, hi⟩)
          · exact .inl hw
          · exact absurd hi (hnot rfl)
          · exact .inr ⟨hw, hi⟩
    · obtain ⟨queue', hq, hnd, hlen, hmem⟩ := ih (nodup_appendNew hnodup v) hrest
      refine ⟨queue', ?_, hnd, ?_, fun w => ?_⟩
      · simp only [require, Fold.ok_bind, Fold.pure_eq_ok, hinner.2, Bool.not_false, if_true]
        exact hq
      · have hadd : (Graph.appendNew queue v).length ≤ queue.length + 1 := by
          unfold Graph.appendNew
          split <;> simp
        rw [List.length_cons]
        omega
      · rw [hmem, mem_appendNew, List.mem_cons]
        constructor
        · rintro ((hw | rfl) | ⟨hw, hi⟩)
          · exact .inl hw
          · exact .inr ⟨.inl rfl, m, hinner⟩
          · exact .inr ⟨.inr hw, hi⟩
        · rintro (hw | ⟨rfl | hw, hi⟩)
          · exact .inl (.inl hw)
          · exact .inl (.inr rfl)
          · exact .inr ⟨hw, hi⟩

theorem checkMove_spec (hg : g.Coherent) {B : Block} {old next : Transformer}
    (hold : old.Valid g.space) (hnext : next.Valid g.space)
    (h : ∀ i x, B.kind.Below (old.meaning g.space i x) (next.meaning g.space i x))
    (invariants : Bool) (n : Node) :
    g.checkMove invariants B n old next = .ok () := by
  have hmono : g.space.monotone next = true := Space.monotone_of_valid hg.space hnext
  have hle : Transformer.firstNotLeq
      (if B.kind = .greatest then (next, old) else (old, next)).1.toList
      (if B.kind = .greatest then (next, old) else (old, next)).2.toList 0 = none := by
    split
    · rename_i hk
      rw [hk] at h
      simp only [BlockKind.below_greatest] at h
      exact Transformer.firstNotLeq_eq_none hg.space hnext hold h
    · rename_i hk
      simp only [BlockKind.below_of_ne hk] at h
      exact Transformer.firstNotLeq_eq_none hg.space hold hnext h
  simp only [checkMove, hle, hmono, Bool.not_true, Bool.false_eq_true, and_false, if_false]
  rfl

/-- The longest list of readers. -/
def fan (g : DependencyGraph) : Nat :=
  g.dependents.foldl (fun m l => max m l.length) 0

theorem length_le_fan {vs : List Nat} (h : g.dependents[v]? = some vs) : vs.length ≤ g.fan := by
  have key (l : List (List Nat)) (m : Nat) :
      m ≤ l.foldl (fun m l => max m l.length) m ∧
        ∀ r ∈ l, r.length ≤ l.foldl (fun m l => max m l.length) m := by
    induction l generalizing m with
    | nil => simp
    | cons r l ih =>
      obtain ⟨h1, h2⟩ := ih (max m r.length)
      refine ⟨by rw [List.foldl_cons]; omega, fun r' hr' => ?_⟩
      rw [List.foldl_cons]
      rcases List.mem_cons.mp hr' with rfl | hr'
      · omega
      · exact h2 r' hr'
  rw [fan, ← Array.foldl_toList]
  exact (key g.dependents.toList 0).2 vs (Array.mem_toList_iff.mpr (Array.mem_of_getElem? h))

/-- An input vector of the space. -/
def extend {d : Nat} (x : Fin d → Bool) : Bits :=
  fun j => if h : j < d then x ⟨j, h⟩ else false

/-- The nodes, subformulas and input vectors at which values of a block can move. -/
def places (g : DependencyGraph) (vars : List Nat) :
    Finset (Nat × Nat × (Fin g.space.dim → Bool)) :=
  Finset.range g.nodes.size ×ˢ vars.toFinset ×ˢ Finset.univ

/-- How many values of a block have moved. -/
def progress (g : DependencyGraph) (k : BlockKind) (vars : List Nat) (a : Assignment) : Nat :=
  moved k (g.places vars) fun p => a.meaning g.space p.1 p.2.1 (extend p.2.2)

theorem progress_le (g : DependencyGraph) (k : BlockKind) (vars : List Nat) (a : Assignment) :
    g.progress k vars a ≤ g.nodes.size * vars.length * Nat.pow 2 g.space.dim := by
  have hcard : (g.places vars).card = g.nodes.size * (vars.toFinset.card * 2 ^ g.space.dim) := by
    simp [places]
  calc g.progress k vars a ≤ (g.places vars).card := moved_le ..
    _ = g.nodes.size * (vars.toFinset.card * 2 ^ g.space.dim) := hcard
    _ ≤ g.nodes.size * (vars.length * 2 ^ g.space.dim) :=
      Nat.mul_le_mul_left _ (Nat.mul_le_mul_right _ vars.toFinset_card_le)
    _ = g.nodes.size * vars.length * Nat.pow 2 g.space.dim := (Nat.mul_assoc ..).symm

theorem exists_ne {c d : Transformer} (hg : g.Coherent) (hc : c.Valid g.space)
    (hd : d.Valid g.space) (hne : Transformer.same d c ≠ true) :
    ∃ i, ∃ x : Fin g.space.dim → Bool,
      c.meaning g.space i (extend x) ≠ d.meaning g.space i (extend x) := by
  rw [ne_eq, Transformer.same_iff hg.space hd hc] at hne
  obtain ⟨i, hi⟩ := Function.ne_iff.mp hne
  obtain ⟨x, hx⟩ := Function.ne_iff.mp hi
  refine ⟨i, fun j => x j, fun heq => hx ?_⟩
  have hext (j : Nat) (hj : j < g.space.dim) : x j = extend (fun j : Fin g.space.dim => x j) j := by
    simp [extend, hj]
  rw [hd.meaning_congr hg.space hext, hc.meaning_congr hg.space hext, heq]

/-- The value of a node that moves has left the seed at one place more of any set that holds
all places of the node. -/
theorem moved_lt_of_recomputed (hg : g.Coherent) {c d : Transformer} (hc : a[v]? = some c)
    (hcv : c.Valid g.space) (hd : g.Recomputed k b vars (a.meaning g.space) n c d)
    (hne : Transformer.same d c ≠ true) {T : Finset (Nat × Nat × (Fin g.space.dim → Bool))}
    (hT : ∀ i ∈ vars, ∀ x, (v, i, x) ∈ T) :
    moved k T (fun p => a.meaning g.space p.1 p.2.1 (extend p.2.2)) <
      moved k T
        fun p => Assignment.meaning g.space (a.setIfInBounds v d) p.1 p.2.1 (extend p.2.2) := by
  obtain ⟨i, x, hx⟩ := exists_ne hg hcv hd.sound.valid hne
  have hcm : a.meaning g.space v = c.meaning g.space := meaning_of_assigned hc
  have hm := meaning_setIfInBounds (t := d) g.space (Array.getElem?_eq_some_iff.mp hc).1
  have hi : i ∈ vars := by
    by_contra hi
    exact hx ((hd.approaches (extend x)).frame i hi).symm
  refine moved_lt (p := (v, i, x)) (fun p _ => ?_) (hT i hi x) ?_
  · rw [hm]
    by_cases hp : p.1 = v
    · rw [hp, Function.update_self, hcm]
      exact (hd.approaches _).above _
    · rw [Function.update_of_ne hp]
      exact .rfl
  · rw [hm, Function.update_self, hcm]
    exact hx

theorem progress_lt (hg : g.Coherent) (hn : g.Inner v n) {c d : Transformer} (hc : a[v]? = some c)
    (hcv : c.Valid g.space) (hd : g.Recomputed k b vars (a.meaning g.space) n c d)
    (hne : Transformer.same d c ≠ true) :
    g.progress k vars a < g.progress k vars (a.setIfInBounds v d) :=
  moved_lt_of_recomputed hg hc hcv hd hne fun i hi x => by simp [places, hn.lt, hi]

/-- The number of evaluations that can still follow. -/
def remaining (g : DependencyGraph) (k : BlockKind) (vars : List Nat) (a : Assignment)
    (queue : List Nat) : Nat :=
  queue.length +
    (g.nodes.size * vars.length * Nat.pow 2 g.space.dim - g.progress k vars a) * g.fan

/-- A value that moves pays for the nodes that are queued because of it. -/
theorem remaining_lt {a' : Assignment} {queue' : List Nat}
    (hprogress : g.progress k vars a < g.progress k vars a')
    (hqueue : queue'.length < queue.length + g.fan) :
    g.remaining k vars a' queue' < g.remaining k vars a queue := by
  have hle := g.progress_le k vars a'
  have hstep : (g.nodes.size * vars.length * Nat.pow 2 g.space.dim - g.progress k vars a') * g.fan +
      g.fan ≤ (g.nodes.size * vars.length * Nat.pow 2 g.space.dim -
          g.progress k vars a) * g.fan := by
    rw [← Nat.succ_mul]
    exact Nat.mul_le_mul_right _ (by omega)
  unfold remaining
  omega

theorem not_mem_of_not_mem_erase {w : Nat} (hw : w ∉ queue.erase v) : w ∉ queue ∨ w = v := by
  by_cases hwv : w = v
  · exact .inr hwv
  · exact .inl fun hmem => hw ((List.mem_erase_of_ne hwv).mpr hmem)

/-- A node that solves its equations can leave the queue. -/
theorem Working.pop (h : g.Working k b vars a₀ a queue) (hn : g.Inner v n)
    (hsolved : ∀ i ∈ vars, ∀ x,
      g.rhs (a.meaning g.space) n i x (fun j => a.meaning g.space v j x) =
        a.meaning g.space v i x) :
    g.Working k b vars a₀ a (queue.erase v) := by
  refine { h with
    queued := fun w hw => h.queued w (List.mem_of_mem_erase hw)
    nodup := h.nodup.erase v
    solved := fun w m hm hw i hi x => ?_ }
  rcases not_mem_of_not_mem_erase hw with hw | rfl
  · exact h.solved w m hm hw i hi x
  · obtain rfl : n = m := Option.some.inj (hn.1.symm.trans hm.1)
    exact hsolved i hi x

/-- While a block is worked on, its nodes can be recomputed. -/
theorem Working.recompute (hg : g.Coherent) {B : Block} (hb : g.IsBlock b B.vars)
    (h : g.Working B.kind b B.vars a₀ a queue) (hn : g.Inner v n) :
    ∃ c d, a[v]? = some c ∧ g.Sound c ∧ g.recompute a n B = .ok d ∧
      g.Recomputed B.kind b B.vars (a.meaning g.space) n c d := by
  obtain ⟨c, hc, hcs, hcm⟩ := h.sound.getElem? hn.lt
  have hbelow (x : Bits) (i : Nat) (hi : i ∈ B.vars) := h.below_rhs v n hn i hi x
  rw [hcm] at hbelow
  obtain ⟨d, hd, hrec⟩ := recompute_spec hg h.sound hn.1 hb.inBlock hc hbelow
  exact ⟨c, d, hc, hcs, hd, hrec⟩

/-- Evaluating a queued node succeeds, keeps the invariant and makes progress; the checks
make no difference. -/
theorem evaluate_spec (hg : g.Coherent) {B : Block} (hb : g.IsBlock b B.vars) {s : Sweep}
    (h : g.Working B.kind b B.vars a₀ s.assign s.queue) (hv : v ∈ s.queue) :
    ∃ t, (∀ invariants,
        g.evaluate invariants B v { s with queue := s.queue.erase v } = .ok t) ∧
      g.Working B.kind b B.vars a₀ t.assign t.queue ∧
      g.remaining B.kind B.vars t.assign t.queue <
        g.remaining B.kind B.vars s.assign s.queue := by
  obtain ⟨n, hn⟩ := h.queued v hv
  obtain ⟨c, d, hc, hcs, hd, hrec⟩ := h.recompute hg hb hn
  have hcm : s.assign.meaning g.space v = c.meaning g.space := meaning_of_assigned hc
  have hlen : (s.queue.erase v).length + 1 = s.queue.length := List.length_erase_add_one hv
  by_cases hsame : Transformer.same d c = true
  · refine ⟨{ s with queue := s.queue.erase v, evaluations := s.evaluations + 1 }, ?_, ?_, ?_⟩
    · intro invariants
      simp only [evaluate, hn.1, hd, hc, require, Fold.ok_bind]
      exact if_pos hsame
    · rw [Transformer.same_iff hg.space hrec.sound.valid hcs.valid] at hsame
      refine h.pop hn fun i hi x => ?_
      rw [hcm, ← hsame]
      exact hrec.solved x i hi
    · simp only [remaining]
      omega
  · have hlt : v < g.dependents.size := hg.dependents_size.symm ▸ hn.lt
    have hdeps := Array.getElem?_eq_getElem hlt
    have hmove := checkMove_spec hg hcs.valid hrec.sound.valid fun i x =>
      (hrec.approaches x).above i
    obtain ⟨queue', hq, hnd, hqlen, hqmem⟩ := enqueue_spec (h.nodup.erase v)
      (hg.dependents_lt v _ hdeps)
    let t : Sweep :=
      { assign := s.assign.setIfInBounds v d, queue := queue', evaluations := s.evaluations + 1,
        updates := s.updates + 1 }
    refine ⟨t, ?_, ?_, ?_⟩
    · intro invariants
      simp only [evaluate, hn.1, hd, hc, require, hdeps, Fold.ok_bind]
      rw [if_neg hsame]
      simp only [hmove, hq, Fold.ok_bind]
      rfl
    · refine h.update hg hb hn hc hrec (fun w m hm hw => ?_) (fun w hw => ?_) hnd
      · rw [hqmem, not_or, not_and_or] at hw
        refine ⟨not_mem_of_not_mem_erase hw.1, fun l hl hreads => ?_⟩
        obtain ⟨vs, hvs, hwvs⟩ := hg.mem_dependents w m hm.1 l hl v hreads
        obtain rfl := Option.some.inj (hdeps.symm.trans hvs)
        rcases hw.2 with hw | hw
        · exact hw hwvs
        · exact hw ⟨m, hm⟩
      · rcases (hqmem w).mp hw with hw | ⟨-, hw⟩
        · exact h.queued w (List.mem_of_mem_erase hw)
        · exact hw
    · have hfan := length_le_fan hdeps
      have hqueue : queue'.length < s.queue.length + g.fan := by omega
      exact remaining_lt (progress_lt hg hn hc hcs.valid hrec hsame) hqueue

/-- Whatever the schedule, the queue runs empty. -/
theorem sweepBy_spec (hg : g.Coherent) {B : Block} (hb : g.IsBlock b B.vars) {pick : Schedule}
    (hpick : pick.Picks) {fuel : Nat} {s : Sweep}
    (h : g.Working B.kind b B.vars a₀ s.assign s.queue)
    (hfuel : g.remaining B.kind B.vars s.assign s.queue ≤ fuel) :
    ∃ t, (∀ invariants, g.sweepBy pick invariants B fuel s = .ok t) ∧
      g.Working B.kind b B.vars a₀ t.assign [] := by
  induction fuel generalizing s with
  | zero =>
    have hnil : s.queue = [] := by
      rw [← List.length_eq_zero_iff]
      unfold remaining at hfuel
      omega
    refine ⟨s, fun invariants => ?_, hnil ▸ h⟩
    rw [sweepBy, if_pos hnil]
  | succ fuel ih =>
    by_cases hnil : s.queue = []
    · refine ⟨s, fun invariants => ?_, hnil ▸ h⟩
      rw [sweepBy, if_pos hnil]
    · obtain ⟨t, ht, hw, hlt⟩ := evaluate_spec hg hb h (hpick B s hnil)
      obtain ⟨u, hu, hwu⟩ := ih hw (by omega)
      refine ⟨u, fun invariants => ?_, hwu⟩
      rw [sweepBy, if_neg hnil]
      simp only [ht, Fold.ok_bind]
      exact hu invariants

/-! ### Seeding a block -/

theorem seedVector_spec {B : Block} (hg : g.Coherent) (hb : g.InBlock b B.vars) {c : Transformer}
    (hc : g.Sound c) :
    ∃ d, seedVector B c = some d ∧ g.Sound d ∧
      ∀ i, d.meaning g.space i =
        if i ∈ B.vars then fun _ => B.kind.seed else c.meaning g.space i := by
  unfold seedVector
  generalize hvars : B.vars = vars at hb ⊢
  clear hvars
  induction vars generalizing c with
  | nil => exact ⟨c, rfl, hc, fun i => by simp⟩
  | cons j vars ih =>
    obtain ⟨s, hs, -⟩ := hb j (List.mem_cons_self ..)
    have hsize : j < c.size := hc.valid.size_eq.symm ▸ hg.index_lt hs
    have hm := Transformer.meaning_setIfInBounds g.space
      (f := Func.const (B.kind = .greatest)) hsize
    have hseed : g.space.Valid (Func.const (B.kind = .greatest) : Func) := Space.valid_const _
    have hsound : g.Sound (c.setIfInBounds j (.const (B.kind = .greatest))) := by
      refine ⟨hc.valid.setIfInBounds hseed.fits hseed.monotone, ?_⟩
      intro i t ht x y hxy
      rw [hm]
      by_cases hij : i = j
      · simp [hij]
      · rw [Function.update_of_ne hij]
        exact hc.regular i t ht x y hxy
    obtain ⟨d, hd, hds, hdm⟩ := ih hsound fun i hi => hb i (List.mem_cons_of_mem _ hi)
    refine ⟨d, ?_, hds, fun i => ?_⟩
    · rw [List.foldlM_cons, Transformer.put?_eq_some hsize]
      exact hd
    · rw [hdm, hm]
      by_cases hij : i = j
      · subst hij
        have hconst : g.space.value (Func.const (decide (B.kind = .greatest)) : Func) =
            fun _ => B.kind.seed := funext (Space.value_const _)
        simp [hconst]
      · simp [hij]

/-- The first nodes are seeded and queued, unless they are exits. -/
structure SeededTo (g : DependencyGraph) (B : Block) (a₀ : Assignment) (m : Nat) (s : Sweep) :
    Prop where
  sound : g.SoundAssignment s.assign
  exits : ∀ (v : Nat) n, g.nodes[v]? = some n → n.isExit = true → s.assign[v]? = a₀[v]?
  later : ∀ v, m ≤ v → s.assign[v]? = a₀[v]?
  seeded : ∀ v n, g.Inner v n → v < m → ∀ i,
    s.assign.meaning g.space v i =
      if i ∈ B.vars then fun _ => B.kind.seed else a₀.meaning g.space v i
  queue : ∀ v, v ∈ s.queue ↔ v < m ∧ ∃ n, g.Inner v n
  nodup : s.queue.Nodup
  length_le : s.queue.length ≤ m

theorem length_appendNew_le (l : List Nat) (v : Nat) :
    (Graph.appendNew l v).length ≤ l.length + 1 := by
  unfold Graph.appendNew
  split
  · omega
  · rw [List.length_append, List.length_singleton]

/-- An exit is passed over. -/
theorem SeededTo.exit {B : Block} {m : Nat} {s : Sweep} (h : g.SeededTo B a₀ m s)
    (hn : g.nodes[m]? = some n) (hex : n.isExit = true) : g.SeededTo B a₀ (m + 1) s := by
  have hlt {v : Nat} {n' : Node} (hn' : g.Inner v n') (hv : v < m + 1) : v < m := by
    by_contra hge
    obtain rfl : v = m := by omega
    exact not_inner_of_exit hn hex n' hn'
  refine { h with
    later := fun v hv => h.later v (by omega)
    seeded := fun v n' hn' hv => h.seeded v n' hn' (hlt hn' hv)
    queue := fun v => ?_
    length_le := Nat.le_succ_of_le h.length_le }
  rw [h.queue]
  constructor
  · rintro ⟨hv, hi⟩
    exact ⟨by omega, hi⟩
  · rintro ⟨hv, n', hn'⟩
    exact ⟨hlt hn' hv, n', hn'⟩

/-- Any other node is seeded and queued. -/
theorem SeededTo.inner {B : Block} {m : Nat} {s : Sweep} (h : g.SeededTo B a₀ m s)
    (hinner : g.Inner m n) {c d : Transformer} (hc : s.assign[m]? = some c) (hd : g.Sound d)
    (hdm : ∀ i, d.meaning g.space i =
      if i ∈ B.vars then fun _ => B.kind.seed else c.meaning g.space i) :
    g.SeededTo B a₀ (m + 1)
      { s with assign := s.assign.setIfInBounds m d, queue := Graph.appendNew s.queue m } := by
  have hmeaning := meaning_setIfInBounds (t := d) g.space (Array.getElem?_eq_some_iff.mp hc).1
  have hget (v : Nat) (hv : v ≠ m) : (s.assign.setIfInBounds m d)[v]? = s.assign[v]? := by
    rw [Array.getElem?_setIfInBounds, if_neg (Ne.symm hv)]
  refine ⟨h.sound.setIfInBounds hd hinner.lt, fun v n' hn' hex => ?_, fun v hv => ?_,
    fun v n' hn' hv i => ?_, fun v => ?_, nodup_appendNew h.nodup m, ?_⟩
  · have hv : v ≠ m := by
      rintro rfl
      exact not_inner_of_exit hn' hex n hinner
    rw [hget v hv]
    exact h.exits v n' hn' hex
  · rw [hget v (by omega)]
    exact h.later v (by omega)
  · rw [hmeaning]
    by_cases hvm : v = m
    · subst hvm
      have hold : a₀.meaning g.space v = c.meaning g.space :=
        meaning_of_assigned ((h.later v (Nat.le_refl _)).symm.trans hc)
      rw [Function.update_self, hdm, hold]
    · rw [Function.update_of_ne hvm]
      exact h.seeded v n' hn' (by omega) i
  · rw [mem_appendNew, h.queue]
    constructor
    · rintro (⟨hv, hi⟩ | rfl)
      · exact ⟨by omega, hi⟩
      · exact ⟨by omega, n, hinner⟩
    · rintro ⟨hv, hi⟩
      by_cases hvm : v = m
      · exact .inr hvm
      · exact .inl ⟨by omega, hi⟩
  · exact Nat.le_trans (length_appendNew_le s.queue m) (Nat.succ_le_succ h.length_le)

theorem seedNode_spec {B : Block} (hg : g.Coherent) (hb : g.InBlock b B.vars) {m : Nat} {s : Sweep}
    (hn : g.nodes[m]? = some n) (h : g.SeededTo B a₀ m s) :
    ∃ t, seedNode B s n = .ok t ∧ g.SeededTo B a₀ (m + 1) t := by
  have hid := hg.id_eq m n hn
  unfold seedNode
  cases hexit : n.isExit with
  | true => exact ⟨s, rfl, h.exit hn hexit⟩
  | false =>
    have hinner : g.Inner m n := ⟨hn, hexit⟩
    obtain ⟨c, hc, hcs, -⟩ := h.sound.getElem? hinner.lt
    obtain ⟨d, hd, hds, hdm⟩ := seedVector_spec hg hb hcs
    refine ⟨_, ?_, h.inner hinner hc hds hdm⟩
    simp only [hid, hc, Option.bind_some, hd, require, Fold.ok_bind]
    rfl

/-- The work on a block can begin, and there is enough fuel for it. -/
theorem seed_spec {B : Block} (hg : g.Coherent) (hb : g.IsBlock b B.vars)
    (ha : g.SoundAssignment a₀) :
    ∃ s, g.nodes.toList.foldlM (seedNode B) { assign := a₀, queue := [] } = .ok s ∧
      g.Working B.kind b B.vars a₀ s.assign s.queue ∧
      g.remaining B.kind B.vars s.assign s.queue ≤ g.sweepBound B := by
  obtain ⟨s, hs, h⟩ := Fold.foldlM_ok (l := g.nodes.toList) (f := seedNode B)
    (P := g.SeededTo B a₀) (b := { assign := a₀, queue := [] })
    ⟨ha, fun _ _ _ _ => rfl, fun _ _ => rfl, by omega, by simp, List.nodup_nil, Nat.le_refl _⟩
    fun m n s hn h => seedNode_spec hg hb.inBlock (by simpa using hn) h
  rw [Array.length_toList] at h
  have hexits {v : Nat} {n : Node} (hn : g.nodes[v]? = some n) (hex : n.isExit = true) :
      s.assign.meaning g.space v = a₀.meaning g.space v := by
    rw [Assignment.meaning, Assignment.meaning, Array.getD_eq_getD_getElem?,
      Array.getD_eq_getD_getElem?, h.exits v n hn hex]
  have hseed {v : Nat} {n : Node} (hn : g.Inner v n) {i : Nat} (hi : i ∈ B.vars) (x : Bits) :
      s.assign.meaning g.space v i x = B.kind.seed := by
    rw [h.seeded v n hn hn.lt, if_pos hi]
  refine ⟨s, hs, ⟨h.sound, h.exits, fun v i hi => ?_, fun v n hn i hi x => ?_,
    fun S hS v hv i hi x => ?_, fun v n hn hv => ?_,
    fun v hv => ((h.queue v).mp hv).2, h.nodup⟩, ?_⟩
  · by_cases hv : v < g.nodes.size
    · obtain ⟨n, hn, hex | hinner⟩ := exit_or_inner hv
      · rw [hexits hn hex]
      · rw [h.seeded v n hinner hv, if_neg hi]
    · rw [Assignment.meaning, Assignment.meaning, Array.getD_eq_getD_getElem?,
        Array.getD_eq_getD_getElem?, h.later v (by omega)]
  · rw [hseed hn hi]
    exact BlockKind.seed_below _ _
  · obtain ⟨n, hn, hex | hinner⟩ := exit_or_inner hv
    · rw [hexits hn hex]
      rcases hb.mem_or_later hi with hi | ⟨hi, -⟩
      · rw [hS.exits v n hn hex i hi]
        exact .rfl
      · rw [hS.later v hv i hi]
        exact .rfl
    · rcases hb.mem_or_later hi with hi | ⟨hi, hni⟩
      · rw [hseed hinner hi]
        exact BlockKind.seed_below _ _
      · rw [h.seeded v n hinner hv, if_neg hni, hS.later v hv i hi]
        exact .rfl
  · exact absurd ((h.queue v).mpr ⟨hn.lt, n, hn⟩) hv
  · have hlen := h.length_le
    have hmul : (g.nodes.size * B.vars.length * Nat.pow 2 g.space.dim -
        g.progress B.kind B.vars s.assign) * g.fan ≤
        g.nodes.size * B.vars.length * Nat.pow 2 g.space.dim * g.fan :=
      Nat.mul_le_mul_right _ (Nat.sub_le ..)
    exact Nat.add_le_add hlen hmul

end DependencyGraph

end MuProc
