import MuProc.Proofs.Equations
import Mathlib.Data.Finset.Card

/-!
# In-place iteration

A pass replaces the values of some subformulas one after the other, each computed
from the vector as it stands. From values that lie below their right-hand sides a
pass only moves values away from the seed, stays below every vector that the
right-hand sides do not exceed, and changes nothing only at a solution. Every value
moves at most once, so the passes of a node end.
-/

namespace MuProc

open Index (From)

/-- One pass over a list of subformulas; `G i` is the right-hand side of subformula `i`. -/
def inPlace (G : Nat → Bits → Bool) (vars : List Nat) (c : Bits) : Bits :=
  vars.foldl (fun c i => Function.update c i (G i c)) c

/-- The number of places at which the values have left the seed. -/
def moved {ι : Type} (k : BlockKind) (T : Finset ι) (c : ι → Bool) : Nat :=
  (T.filter fun p => c p ≠ k.seed).card

theorem moved_le {ι : Type} (k : BlockKind) (T : Finset ι) (c : ι → Bool) : moved k T c ≤ T.card :=
  Finset.card_filter_le _ _

theorem moved_lt {ι : Type} {k : BlockKind} {T : Finset ι} {c c' : ι → Bool}
    (h : ∀ p ∈ T, k.Below (c p) (c' p)) {p : ι} (hp : p ∈ T) (hne : c p ≠ c' p) :
    moved k T c < moved k T c' := by
  apply Finset.card_lt_card
  rw [Finset.ssubset_iff_of_subset]
  · refine ⟨p, Finset.mem_filter.mpr ⟨hp, fun hs => ?_⟩, fun hmem => ?_⟩
    · exact hne ((h p hp hs).trans hs.symm)
    · obtain ⟨-, hc⟩ := Finset.mem_filter.mp hmem
      have hc' : c' p = k.seed := by
        rw [Bool.eq_not_of_ne hc] at hne
        cases hk : k.seed <;> cases hv : c' p <;> simp_all
      exact hc (h p hp hc')
  · intro q hq
    obtain ⟨hT, hc⟩ := Finset.mem_filter.mp hq
    exact Finset.mem_filter.mpr ⟨hT, fun hc' => hc (h q hT hc')⟩

/-! ### One pass -/

section Pass

variable {k : BlockKind} {R : Nat → Prop} {G : Nat → Bits → Bool} {vars : List Nat} {c : Bits}

/-- Right-hand sides keep the order on the values they refer to. -/
def KeepsOrder (k : BlockKind) (R : Nat → Prop) (G : Nat → Bits → Bool) (vars : List Nat) : Prop :=
  ∀ i ∈ vars, ∀ c c' : Bits, (∀ j, R j → k.Below (c j) (c' j)) → k.Below (G i c) (G i c')

theorem inPlace_of_not_mem {j : Nat} (hj : j ∉ vars) : inPlace G vars c j = c j := by
  induction vars generalizing c with
  | nil => rfl
  | cons i vars ih =>
    rw [List.mem_cons, not_or] at hj
    exact (ih hj.2).trans (Function.update_of_ne hj.1 ..)

theorem inPlace_eq_self (h : ∀ i ∈ vars, G i c = c i) : inPlace G vars c = c := by
  induction vars with
  | nil => rfl
  | cons i vars ih =>
    have hi : Function.update c i (G i c) = c := by
      rw [h i (List.mem_cons_self ..), Function.update_eq_self]
    show inPlace G vars (Function.update c i (G i c)) = c
    rw [hi]
    exact ih fun j hj => h j (List.mem_cons_of_mem _ hj)

theorem update_above {i : Nat} (h : k.Below (c i) (G i c)) (j : Nat) :
    k.Below (c j) (Function.update c i (G i c) j) := by
  by_cases hj : j = i
  · subst hj
    rwa [Function.update_self]
  · rw [Function.update_of_ne hj]
    exact .rfl

/-- A pass over some of the subformulas moves values away from the seed and leaves all
of them below their right-hand sides. -/
theorem inPlace_above (hG : KeepsOrder k R G vars) (h : ∀ i ∈ vars, k.Below (c i) (G i c))
    {l : List Nat} (hl : ∀ i ∈ l, i ∈ vars) :
    (∀ j, k.Below (c j) (inPlace G l c j)) ∧
      ∀ i ∈ vars, k.Below (inPlace G l c i) (G i (inPlace G l c)) := by
  induction l generalizing c with
  | nil => exact ⟨fun _ => .rfl, h⟩
  | cons i l ih =>
    have hi := h i (hl i (List.mem_cons_self ..))
    have hup := update_above (G := G) hi
    obtain ⟨habove, hbelow⟩ := ih (c := Function.update c i (G i c)) (by
      intro m hm
      have hstep := hG m hm c _ fun j _ => hup j
      by_cases hmi : m = i
      · subst hmi
        rwa [Function.update_self]
      · rw [Function.update_of_ne hmi]
        exact (h m hm).trans hstep) fun j hj => hl j (List.mem_cons_of_mem _ hj)
    exact ⟨fun j => (hup j).trans (habove j), hbelow⟩

/-- A pass stays below every vector that the right-hand sides do not exceed. -/
theorem inPlace_below (hG : KeepsOrder k R G vars) {p : Bits}
    (hp : ∀ i ∈ vars, k.Below (G i p) (p i)) (hc : ∀ j, R j → k.Below (c j) (p j))
    {l : List Nat} (hl : ∀ i ∈ l, i ∈ vars) : ∀ j, R j → k.Below (inPlace G l c j) (p j) := by
  induction l generalizing c with
  | nil => exact hc
  | cons i l ih =>
    have hi := hl i (List.mem_cons_self ..)
    refine ih (c := Function.update c i (G i c)) (fun j hj => ?_) fun j hj =>
      hl j (List.mem_cons_of_mem _ hj)
    by_cases hji : j = i
    · subst hji
      rw [Function.update_self]
      exact (hG j hi c p hc).trans (hp j hi)
    · rw [Function.update_of_ne hji]
      exact hc j hj

theorem solved_of_inPlace_eq (hG : KeepsOrder k R G vars) (h : ∀ i ∈ vars, k.Below (c i) (G i c))
    {l : List Nat} (hl : ∀ i ∈ l, i ∈ vars) (heq : inPlace G l c = c) : ∀ i ∈ l, G i c = c i := by
  induction l with
  | nil => simp
  | cons i l ih =>
    have hi := hl i (List.mem_cons_self ..)
    have hrest (j : Nat) (hj : j ∈ l) : j ∈ vars := hl j (List.mem_cons_of_mem _ hj)
    have hup := update_above (G := G) (h i hi)
    -- the step lies between the vector and the result of the pass, which are the same
    have hself : Function.update c i (G i c) = c := by
      have hnext : ∀ m ∈ vars, k.Below (Function.update c i (G i c) m)
          (G m (Function.update c i (G i c))) :=
        (inPlace_above hG h (l := [i]) (by simpa using hi)).2
      funext j
      refine BlockKind.Below.antisymm (k := k) ?_ (hup j)
      have hlast := (inPlace_above hG hnext hrest).1 j
      rwa [show inPlace G l (Function.update c i (G i c)) = c from heq] at hlast
    intro j hj
    rcases List.mem_cons.mp hj with rfl | hj
    · have := congrFun hself j
      rwa [Function.update_self] at this
    · refine ih hrest ?_ j hj
      have heq' : inPlace G l (Function.update c i (G i c)) = c := heq
      rwa [hself] at heq'

/-! ### Iterated passes -/

/-- How the vector after some passes lies to the one before. -/
structure Approaches (k : BlockKind) (R : Nat → Prop) (G : Nat → Bits → Bool) (vars : List Nat)
    (c d : Bits) : Prop where
  frame : ∀ j, j ∉ vars → d j = c j
  above : ∀ j, k.Below (c j) (d j)
  below_rhs : ∀ i ∈ vars, k.Below (d i) (G i d)
  least : ∀ p : Bits, (∀ i ∈ vars, k.Below (G i p) (p i)) → (∀ j, R j → k.Below (c j) (p j)) →
    ∀ j, R j → k.Below (d j) (p j)

variable {d : Bits}

theorem Approaches.refl (h : ∀ i ∈ vars, k.Below (c i) (G i c)) : Approaches k R G vars c c :=
  ⟨fun _ _ => rfl, fun _ => .rfl, h, fun _ _ hc => hc⟩

theorem Approaches.pass (hG : KeepsOrder k R G vars) (h : Approaches k R G vars c d) :
    Approaches k R G vars c (inPlace G vars d) := by
  obtain ⟨habove, hrhs⟩ := inPlace_above hG h.below_rhs fun _ hi => hi
  exact {
    frame := fun j hj => (inPlace_of_not_mem hj).trans (h.frame j hj)
    above := fun j => (h.above j).trans (habove j)
    below_rhs := hrhs
    least := fun p hp hc => inPlace_below hG hp (h.least p hp hc) fun _ hi => hi }

theorem Approaches.moved_lt (hG : KeepsOrder k R G vars) (h : Approaches k R G vars c d)
    (hne : inPlace G vars d ≠ d) :
    moved k vars.toFinset d < moved k vars.toFinset (inPlace G vars d) := by
  obtain ⟨j, hj⟩ := Function.ne_iff.mp hne
  have hmem : j ∈ vars := by
    by_contra hj'
    exact hj (inPlace_of_not_mem hj')
  exact MuProc.moved_lt (fun p _ => (inPlace_above hG h.below_rhs fun _ hi => hi).1 p)
    (List.mem_toFinset.mpr hmem) (Ne.symm hj)

end Pass

/-! ### Recomputing a node -/

namespace DependencyGraph

/-- A transformer of the space whose components depend only on inputs from their block on. -/
structure Sound (g : DependencyGraph) (c : Transformer) : Prop where
  valid : c.Valid g.space
  regular : g.Regular (c.meaning g.space)

/-- An assignment of such transformers to all nodes. -/
structure SoundAssignment (g : DependencyGraph) (a : Assignment) : Prop where
  valid : g.ValidAssignment a
  regular : ∀ v, g.Regular (a.meaning g.space v)

/-- The subformulas of a list lie in block `b`. -/
def InBlock (g : DependencyGraph) (b : Nat) (vars : List Nat) : Prop :=
  ∀ i ∈ vars, ∃ s, g.index.subs[i]? = some s ∧ s.block = b

variable {g : DependencyGraph} {a : Assignment} {v b : Nat} {n : Node} {k : BlockKind}
  {vars : List Nat}

theorem SoundAssignment.getElem? (ha : g.SoundAssignment a) (hv : v < g.nodes.size) :
    ∃ t, a[v]? = some t ∧ g.Sound t ∧ a.meaning g.space v = t.meaning g.space := by
  obtain ⟨t, ht, hvalid, hmeaning⟩ := ha.valid.getElem? hv
  exact ⟨t, ht, ⟨hvalid, hmeaning ▸ ha.regular v⟩, hmeaning⟩

section Recompute

variable (hg : g.Coherent) (ha : g.SoundAssignment a) (hn : g.nodes[v]? = some n)
include hg ha hn

theorem keepsOrder_rhs (hvars : g.InBlock b vars) (k : BlockKind) (x : Bits) :
    KeepsOrder k (From g.index.subs b) (fun i => g.rhs (a.meaning g.space) n i x) vars := by
  intro i hi c c' hcc
  obtain ⟨s, hs, rfl⟩ := hvars i hi
  have h : g.Related k s.block (a.meaning g.space) (a.meaning g.space) :=
    related_of_regular ha.regular fun _ _ _ _ _ => .rfl
  exact h.rhs hg hn hs (Nat.le_refl _) (fun _ _ => .rfl) hcc

theorem refresh_spec {c : Transformer} (hc : g.Sound c) {i : Nat} {s : Subformula}
    (hs : g.index.subs[i]? = some s) :
    ∃ c', g.refresh a n c i = .ok c' ∧ g.Sound c' ∧ ∀ x, (fun j => c'.meaning g.space j x) =
      Function.update (fun j => c.meaning g.space j x) i
        (g.rhs (a.meaning g.space) n i x fun j => c.meaning g.space j x) := by
  obtain ⟨f, hf, hfits, heval⟩ := component_spec hg ha.valid hn hs hc.valid
  have hsize : i < c.size := hc.valid.size_eq.symm ▸ hg.index_lt hs
  have hle (x y : Bits) (hxy : ∀ j, From g.index.subs s.block j → x j ≤ y j) :
      g.space.value f x ≤ g.space.value f y := by
    rw [heval, heval]
    refine rhs_le_of_regular hg ha.regular hn hs hxy fun j hj => ?_
    obtain ⟨t, ht, hle⟩ := hj
    exact hc.regular j t ht x y fun j' hj' => hxy j' (from_of_le hle hj')
  have hmeaning := Transformer.meaning_setIfInBounds g.space (f := f) hsize
  refine ⟨c.setIfInBounds i f, ?_, ⟨hc.valid.setIfInBounds hfits fun x y hxy =>
    hle x y fun j _ => hxy j, ?_⟩, fun x => ?_⟩
  · simp only [refresh, hf, Transformer.put?_eq_some hsize]
    rfl
  · intro j t ht x y hxy
    rw [hmeaning]
    by_cases hji : j = i
    · subst hji
      obtain rfl : s = t := Option.some.inj (hs.symm.trans ht)
      rw [Function.update_self]
      exact hle x y hxy
    · rw [Function.update_of_ne hji]
      exact hc.regular j t ht x y hxy
  · funext j
    rw [hmeaning]
    by_cases hji : j = i
    · subst hji
      rw [Function.update_self, Function.update_self, heval]
    · rw [Function.update_of_ne hji, Function.update_of_ne hji]

/-- A pass can be made, and at every input it is a pass over the values there. -/
theorem pass_spec (hvars : g.InBlock b vars) {c : Transformer} (hc : g.Sound c) :
    ∃ c', g.pass a n vars c = .ok c' ∧ g.Sound c' ∧ ∀ x, (fun j => c'.meaning g.space j x) =
      inPlace (fun i => g.rhs (a.meaning g.space) n i x) vars fun j => c.meaning g.space j x := by
  unfold pass
  induction vars generalizing c with
  | nil => exact ⟨c, rfl, hc, fun _ => rfl⟩
  | cons i vars ih =>
    obtain ⟨s, hs, -⟩ := hvars i (List.mem_cons_self ..)
    obtain ⟨c₁, h₁, hc₁, hm₁⟩ := refresh_spec hg ha hn hc hs
    obtain ⟨c₂, h₂, hc₂, hm₂⟩ := ih (fun j hj => hvars j (List.mem_cons_of_mem _ hj)) hc₁
    refine ⟨c₂, ?_, hc₂, fun x => ?_⟩
    · rw [List.foldlM_cons, h₁]
      exact h₂
    · rw [hm₂, hm₁]
      rfl

/-- The values of a node that has been recomputed, next to its old ones. -/
structure Recomputed (g : DependencyGraph) (k : BlockKind) (b : Nat) (vars : List Nat) (A : Family)
    (n : Node) (c d : Transformer) : Prop where
  sound : g.Sound d
  approaches : ∀ x, Approaches k (From g.index.subs b) (fun i => g.rhs A n i x) vars
    (fun j => c.meaning g.space j x) fun j => d.meaning g.space j x
  solved : ∀ x, ∀ i ∈ vars, g.rhs A n i x (fun j => d.meaning g.space j x) = d.meaning g.space i x

theorem passes_of_inPlace_eq (hvars : g.InBlock b vars) {c : Transformer} (hc : g.Sound c)
    (hfix : ∀ x,
      inPlace (fun i => g.rhs (a.meaning g.space) n i x) vars (fun j => c.meaning g.space j x) =
      fun j => c.meaning g.space j x) (fuel : Nat) : g.passes a n vars (fuel + 1) c = .ok c := by
  obtain ⟨next, hnext, hsound, hmeaning⟩ := pass_spec hg ha hn hvars hc
  have hsame : Transformer.same next c = true := by
    rw [Transformer.same_iff hg.space hsound.valid hc.valid]
    funext j x
    exact congrFun ((hmeaning x).trans (hfix x)) j
  rw [passes, hnext]
  exact if_pos hsame

/-- Passes end: after `m` of them, an input at which something still changes has moved
`m` values. -/
theorem passes_spec (hvars : g.InBlock b vars) {c₀ c : Transformer} {fuel m : Nat} (hc : g.Sound c)
    (happ : ∀ x, Approaches k (From g.index.subs b) (fun i => g.rhs (a.meaning g.space) n i x) vars
      (fun j => c₀.meaning g.space j x) fun j => c.meaning g.space j x)
    (hmoved : ∀ x,
      inPlace (fun i => g.rhs (a.meaning g.space) n i x) vars (fun j => c.meaning g.space j x) ≠
      (fun j => c.meaning g.space j x) → m ≤ moved k vars.toFinset fun j => c.meaning g.space j x)
    (hfuel : vars.toFinset.card ≤ fuel + m) :
    ∃ d, g.passes a n vars (fuel + 1) c = .ok d ∧
      g.Recomputed k b vars (a.meaning g.space) n c₀ d := by
  have hG (x : Bits) := keepsOrder_rhs hg ha hn hvars k x
  induction fuel generalizing c m with
  | zero =>
    have hfix (x : Bits) :
        inPlace (fun i => g.rhs (a.meaning g.space) n i x) vars (fun j => c.meaning g.space j x) =
        fun j => c.meaning g.space j x := by
      by_contra hne
      have h1 := hmoved x hne
      have h2 := (happ x).moved_lt (hG x) hne
      have h3 := moved_le k vars.toFinset
        (inPlace (fun i => g.rhs (a.meaning g.space) n i x) vars fun j => c.meaning g.space j x)
      omega
    exact ⟨c, passes_of_inPlace_eq hg ha hn hvars hc hfix 0, hc, happ, fun x =>
      solved_of_inPlace_eq (hG x) (happ x).below_rhs (fun _ hi => hi) (hfix x)⟩
  | succ fuel ih =>
    by_cases hfix : ∀ x,
        inPlace (fun i => g.rhs (a.meaning g.space) n i x) vars (fun j => c.meaning g.space j x) =
        fun j => c.meaning g.space j x
    · exact ⟨c, passes_of_inPlace_eq hg ha hn hvars hc hfix _, hc, happ, fun x =>
        solved_of_inPlace_eq (hG x) (happ x).below_rhs (fun _ hi => hi) (hfix x)⟩
    · obtain ⟨next, hnext, hsound, hmeaning⟩ := pass_spec hg ha hn hvars hc
      have hsame : ¬ Transformer.same next c = true := by
        rw [Transformer.same_iff hg.space hsound.valid hc.valid]
        exact fun heq => hfix fun x => by rw [← hmeaning, heq]
      obtain ⟨d, hd, hrec⟩ := ih (c := next) (m := m + 1) hsound (fun x => by
        rw [hmeaning]
        exact (happ x).pass (hG x)) (fun x hne => by
        rw [hmeaning] at hne ⊢
        have hold : inPlace (fun i => g.rhs (a.meaning g.space) n i x) vars
            (fun j => c.meaning g.space j x) ≠
            fun j => c.meaning g.space j x := fun heq => hne (by rw [heq, heq])
        have h1 := hmoved x hold
        have h2 := (happ x).moved_lt (hG x) hold
        omega) (by omega)
      refine ⟨d, ?_, hrec⟩
      rw [passes, hnext]
      exact (if_neg hsame).trans hd

theorem recompute_spec {B : Block} (hvars : g.InBlock b B.vars) {c : Transformer}
    (hc : a[v]? = some c)
    (hbelow : ∀ x, ∀ i ∈ B.vars, k.Below (c.meaning g.space i x)
      (g.rhs (a.meaning g.space) n i x fun j => c.meaning g.space j x)) :
    ∃ d, g.recompute a n B = .ok d ∧ g.Recomputed k b B.vars (a.meaning g.space) n c d := by
  have hv := (Array.getElem?_eq_some_iff.mp hc).1
  obtain ⟨t, ht, hsound, -⟩ := ha.getElem? (ha.valid.size_eq ▸ hv)
  obtain rfl : c = t := Option.some.inj (hc.symm.trans ht)
  have hbound : B.vars.toFinset.card ≤ B.vars.length * Nat.pow 2 g.space.dim + 0 := by
    have h1 := B.vars.toFinset_card_le
    have h2 : B.vars.length * 1 ≤ B.vars.length * Nat.pow 2 g.space.dim :=
      Nat.mul_le_mul_left _ (Nat.one_le_two_pow)
    omega
  obtain ⟨d, hd, hrec⟩ := passes_spec hg ha hn hvars (k := k) (m := 0) hsound
    (fun x => .refl (hbelow x)) (fun _ _ => Nat.zero_le _) hbound
  refine ⟨d, ?_, hrec⟩
  rw [recompute, hg.id_eq v n hn, hc]
  exact hd

theorem recompute_of_solved {B : Block} (hvars : g.InBlock b B.vars) {c : Transformer}
    (hc : a[v]? = some c)
    (hsolved : ∀ x, ∀ i ∈ B.vars,
      g.rhs (a.meaning g.space) n i x (fun j => c.meaning g.space j x) = c.meaning g.space i x) :
    g.recompute a n B = .ok c := by
  have hv := (Array.getElem?_eq_some_iff.mp hc).1
  obtain ⟨t, ht, hsound, -⟩ := ha.getElem? (ha.valid.size_eq ▸ hv)
  obtain rfl : c = t := Option.some.inj (hc.symm.trans ht)
  rw [recompute, hg.id_eq v n hn, hc]
  exact passes_of_inPlace_eq hg ha hn hvars hsound (fun x => inPlace_eq_self (hsolved x)) _

end Recompute

end DependencyGraph

end MuProc
