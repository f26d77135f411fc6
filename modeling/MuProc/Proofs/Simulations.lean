import MuProc.Proofs.Solutions

/-!
# Comparing the solutions of two graphs

Two dependency graphs of the same formula may differ in the number and the order of their
nodes and links. If a relation matches nodes so that every link of the one has a partner at
the other, then the solutions are ordered along the relation. In each block the values of
the one graph, carried over along the relation, are a pre-solution for the other.
-/

namespace MuProc

open Index (From)

namespace BlockKind

variable {k : BlockKind} {a b a' b' : Bool}

theorem Below.and (h : k.Below a b) (h' : k.Below a' b') : k.Below (a && a') (b && b') := by
  by_cases hk : k = .greatest
  · subst hk
    rw [below_greatest] at h h' ⊢
    exact inf_le_inf h h'
  · rw [below_of_ne hk] at h h' ⊢
    exact inf_le_inf h h'

theorem Below.or (h : k.Below a b) (h' : k.Below a' b') : k.Below (a || a') (b || b') := by
  by_cases hk : k = .greatest
  · subst hk
    rw [below_greatest] at h h' ⊢
    exact sup_le_sup h h'
  · rw [below_of_ne hk] at h h' ⊢
    exact sup_le_sup h h'

section Lists

variable {α β : Type} {l : List α} {m : List β} {f : α → Bool} {g : β → Bool}
  (hforth : ∀ a ∈ l, ∃ b ∈ m, k.Below (f a) (g b)) (hback : ∀ b ∈ m, ∃ a ∈ l, k.Below (f a) (g b))
include hforth hback

theorem Below.all : k.Below (l.all f) (m.all g) := by
  by_cases hk : k = .greatest
  · subst hk
    simp only [below_greatest, Bool.le_iff_imp, List.all_eq_true] at hforth ⊢
    intro hm a ha
    obtain ⟨b, hb, hle⟩ := hforth a ha
    exact hle (hm b hb)
  · simp only [below_of_ne hk, Bool.le_iff_imp, List.all_eq_true] at hback ⊢
    intro hl b hb
    obtain ⟨a, ha, hle⟩ := hback b hb
    exact hle (hl a ha)

theorem Below.any : k.Below (l.any f) (m.any g) := by
  by_cases hk : k = .greatest
  · subst hk
    simp only [below_greatest, Bool.le_iff_imp, List.any_eq_true] at hback ⊢
    rintro ⟨b, hb, htrue⟩
    obtain ⟨a, ha, hle⟩ := hback b hb
    exact ⟨a, ha, hle htrue⟩
  · simp only [below_of_ne hk, Bool.le_iff_imp, List.any_eq_true] at hforth ⊢
    rintro ⟨a, ha, htrue⟩
    obtain ⟨b, hb, hle⟩ := hforth a ha
    exact ⟨b, hb, hle htrue⟩

end Lists

end BlockKind

namespace DependencyGraph

/-! ### Matching nodes -/

/-- Links that lead to related nodes; in the direction of `k`, the step of the first one
contributes no more than that of the second. -/
structure Link.Match (k : BlockKind) (R : Nat → Nat → Prop) (l l' : Link) : Prop where
  target : R l.target l'.target
  callee : Option.Rel R l.callee? l'.callee?
  behind : ∀ (s : Subformula) (x : Bits), k.Below (s.behind l.step x) (s.behind l'.step x)

/-- Nodes that say the same, with links that have partners in both directions. -/
structure Node.Match (P : Link → Link → Prop) (n n' : Node) : Prop where
  hasProp : ∀ p, n.state.hasProp p = n'.state.hasProp p
  onlyCall : Option.Rel P n.onlyCall? n'.onlyCall?
  forth : ∀ l ∈ n.links, ∃ l' ∈ n'.links, P l l'
  back : ∀ l' ∈ n'.links, ∃ l ∈ n.links, P l l'

theorem rel_imp {α β : Type} {R S : α → β → Prop} {o : Option α} {o' : Option β}
    (h : Option.Rel R o o') (hRS : ∀ a b, R a b → S a b) : Option.Rel S o o' := by
  cases h with
  | some hR => exact .some (hRS _ _ hR)
  | none => exact .none

theorem rel_flip {α β : Type} {R : α → β → Prop} {o : Option α} {o' : Option β}
    (h : Option.Rel R o o') : Option.Rel (fun b a => R a b) o' o := by
  cases h with
  | some hR => exact .some hR
  | none => exact .none

theorem Node.Match.imp {P Q : Link → Link → Prop} {n n' : Node} (h : n.Match P n')
    (hPQ : ∀ l l', P l l' → Q l l') : n.Match Q n' := by
  refine ⟨h.hasProp, rel_imp h.onlyCall hPQ, fun l hl => ?_, fun l' hl' => ?_⟩
  · obtain ⟨l', hl', hP⟩ := h.forth l hl
    exact ⟨l', hl', hPQ l l' hP⟩
  · obtain ⟨l, hl, hP⟩ := h.back l' hl'
    exact ⟨l, hl, hPQ l l' hP⟩

theorem Node.Match.flip {P : Link → Link → Prop} {n n' : Node} (h : n.Match P n') :
    n'.Match (fun l' l => P l l') n :=
  ⟨fun p => (h.hasProp p).symm, rel_flip h.onlyCall, h.back, h.forth⟩

/-- Related nodes are exits, or match each other. -/
def Simulates (k : BlockKind) (R : Nat → Nat → Prop) (g g' : DependencyGraph) : Prop :=
  ∀ v v', R v v' → ∃ n n', g.nodes[v]? = some n ∧ g'.nodes[v']? = some n' ∧
    n.isExit = n'.isExit ∧ (n.isExit = false → n.Match (Link.Match k R) n')

variable {k : BlockKind} {R : Nat → Nat → Prop} {g g' : DependencyGraph} {A A' : Family}
  {b v v' i : Nat} {n n' : Node} {s : Subformula} {x y c c' : Bits}

theorem Node.Match.rule_below {P : Link → Link → Prop} (h : n.Match P n') {ref : Nat → Prop}
    (hs : s.Shaped ref) (hc : ∀ j, ref j → k.Below (c j) (c' j)) {L L' : Link → Bool}
    (hL : ∀ l ∈ n.links, ∀ l' ∈ n'.links, P l l' → k.Below (L l) (L' l')) :
    k.Below (n.rule s c L) (n'.rule s c' L') := by
  have hat {ref : Option Nat} {j : Nat} (href : ref = some j) (hj : k.Below (c j) (c' j)) :
      k.Below (Subformula.at ref c) (Subformula.at ref c') := by
    rwa [href]
  have hforth : ∀ l ∈ n.links, ∃ l' ∈ n'.links, k.Below (L l) (L' l') := by
    intro l hl
    obtain ⟨l', hl', hm⟩ := h.forth l hl
    exact ⟨l', hl', hL l hl l' hl' hm⟩
  have hback : ∀ l' ∈ n'.links, ∃ l ∈ n.links, k.Below (L l) (L' l') := by
    intro l' hl'
    obtain ⟨l, hl, hm⟩ := h.back l' hl'
    exact ⟨l, hl, hL l hl l' hl' hm⟩
  have honly := h.onlyCall
  unfold rule
  cases hcall : n.onlyCall? with
  | some l =>
    cases hcall' : n'.onlyCall? with
    | some l' =>
      rw [hcall, hcall'] at honly
      cases honly with
      | some hm => exact hL l (onlyCall?_mem hcall) l' (onlyCall?_mem hcall') hm
    | none =>
      rw [hcall, hcall'] at honly
      cases honly
  | none =>
    cases hcall' : n'.onlyCall? with
    | some l' =>
      rw [hcall, hcall'] at honly
      cases honly
    | none =>
      unfold Subformula.Shaped at hs
      cases hnode : s.node with
      | tt => exact .rfl
      | ff => exact .rfl
      | atom p => simp only [h.hasProp]; exact .rfl
      | not f =>
        simp only [hnode] at hs
        obtain ⟨p, rfl⟩ := hs
        simp only [h.hasProp]
        exact .rfl
      | and f g =>
        simp only [hnode] at hs
        obtain ⟨l, r, hl, hr, hrefl, hrefr⟩ := hs
        exact (hat hl (hc l hrefl)).and (hat hr (hc r hrefr))
      | or f g =>
        simp only [hnode] at hs
        obtain ⟨l, r, hl, hr, hrefl, hrefr⟩ := hs
        exact (hat hl (hc l hrefl)).or (hat hr (hc r hrefr))
      | mu z f =>
        simp only [hnode] at hs
        obtain ⟨l, hl, hrefl⟩ := hs
        exact hat hl (hc l hrefl)
      | nu z f =>
        simp only [hnode] at hs
        obtain ⟨l, hl, hrefl⟩ := hs
        exact hat hl (hc l hrefl)
      | var z =>
        simp only [hnode] at hs
        obtain ⟨b, hb, hrefb⟩ := hs
        exact hat hb (hc b hrefb)
      | box a f => exact .all hforth hback
      | dia a f => exact .any hforth hback

/-! ### Related families -/

/-- From block `b` on, the components of the first family lie below those of the second at
related nodes, wherever the inputs from their block on do. -/
def RelatedBy (R : Nat → Nat → Prop) (g : DependencyGraph) (k : BlockKind) (b : Nat)
    (A A' : Family) : Prop :=
  ∀ v v', R v v' → ∀ (i : Nat) s, g.index.subs[i]? = some s → b ≤ s.block →
    ∀ x y, (∀ j, From g.index.subs s.block j → k.Below (x j) (y j)) → k.Below (A v i x) (A' v' i y)

section Coherent

variable (hg : g.Coherent) (hg' : g'.Coherent) (hindex : g'.index = g.index)
include hg hg' hindex

theorem RelatedBy.link (h : RelatedBy R g k b A A') (hn : g.nodes[v]? = some n)
    (hn' : g'.nodes[v']? = some n') (hs : g.index.subs[i]? = some s) (hb : b ≤ s.block)
    (hxy : ∀ j, From g.index.subs s.block j → k.Below (x j) (y j)) {l l' : Link}
    (hl : l ∈ n.links) (hl' : l' ∈ n'.links) (hm : l.Match k R l') :
    k.Below (l.value g.space A i x) (l'.value g'.space A' i y) := by
  have htarget (j : Nat) (hj : From g.index.subs s.block j) :
      k.Below (A l.target j x) (A' l'.target j y) := by
    obtain ⟨t, ht, hle⟩ := hj
    exact h _ _ hm.target j t ht (Nat.le_trans hb hle) x y fun j' hj' => hxy j' (from_of_le hle hj')
  have hcallee := hm.callee
  unfold Link.value
  cases hc : l.callee? with
  | some u =>
    cases hc' : l'.callee? with
    | some u' =>
      rw [hc, hc'] at hcallee
      cases hcallee with
      | some hu => exact h u u' hu i s hs hb _ _ htarget
    | none =>
      rw [hc, hc'] at hcallee
      cases hcallee
  | none =>
    cases hc' : l'.callee? with
    | some u' =>
      rw [hc, hc'] at hcallee
      cases hcallee
    | none =>
      obtain ⟨-, haction⟩ := hg.action v n hn l hl hc
      obtain ⟨-, haction'⟩ := hg'.action v' n' hn' l' hl' hc'
      simp only [haction i s hs, haction' i s (hindex ▸ hs)]
      exact (BlockKind.below_of_monotone
        (fun _ _ => behind_le (hg.index.shaped i s hs) (hg.from_self hs) l.step) htarget).trans
        (hm.behind s _)

theorem RelatedBy.rhs (h : RelatedBy R g k b A A') (hn : g.nodes[v]? = some n)
    (hn' : g'.nodes[v']? = some n') (hm : n.Match (Link.Match k R) n')
    (hs : g.index.subs[i]? = some s) (hb : b ≤ s.block)
    (hxy : ∀ j, From g.index.subs s.block j → k.Below (x j) (y j))
    (hc : ∀ j, From g.index.subs s.block j → k.Below (c j) (c' j)) :
    k.Below (g.rhs A n i x c) (g'.rhs A' n' i y c') := by
  rw [rhs_of_sub hs, rhs_of_sub (hindex ▸ hs)]
  exact hm.rule_below (hg.index.shaped i s hs) hc fun l hl l' hl' =>
    h.link hg hg' hindex hn hn' hs hb hxy hl hl'

end Coherent

/-! ### Carrying a solution over -/

variable {a a' : Assignment} {vars : List Nat}

open Classical in
/-- In a block, the seed where some related node of the other graph has it by `A'`; everywhere
else and at the exits the values `A` of the graph itself. -/
noncomputable def carried (R : Nat → Nat → Prop) (g : DependencyGraph) (k : BlockKind)
    (vars : List Nat) (A A' : Family) : Family := fun v i x =>
  if i ∉ vars ∨ ∀ n, ¬ g.Inner v n then A v i x
  else if ∃ v', R v v' ∧ A' v' i x = k.seed then k.seed else !k.seed

theorem exists_of_carried_eq_seed (hi : i ∈ vars) (hn : g.Inner v n)
    (h : carried R g k vars A A' v i x = k.seed) : ∃ v', R v v' ∧ A' v' i x = k.seed := by
  have hcond : ¬ (i ∉ vars ∨ ∀ n, ¬ g.Inner v n) := by
    rintro (hno | hno)
    · exact hno hi
    · exact hno n hn
  by_contra hnone
  rw [carried, if_neg hcond, if_neg hnone] at h
  cases hk : k.seed <;> simp [hk] at h

theorem meaning_exit (hg : g.Coherent) (ha : g.SolvedFrom 0 a) (hn : g.nodes[v]? = some n)
    (hex : n.isExit = true) (hs : g.index.subs[i]? = some s) (x : Bits) :
    a.meaning g.space v i x = x i :=
  meaning_of_identity hg (ha.exits v n hn hex) (Array.getElem?_eq_some_iff.mp hs).1 x

section Solved

variable (hg : g.Coherent) (hg' : g'.Coherent) (hindex : g'.index = g.index)
  (hsim : Simulates k R g g') (ha : g.SolvedFrom 0 a) (ha' : g'.SolvedFrom 0 a')
  (hb : g.IsBlock b vars)
  (hlater : ∀ v v', R v v' → ∀ i, From g.index.subs (b + 1) i → ∀ x,
    k.Below (a.meaning g.space v i x) (a'.meaning g'.space v' i x))
include hg hg' hindex hsim ha ha' hb hlater

theorem carried_below (hR : R v v') (hi : From g.index.subs b i) (x : Bits) :
    k.Below (carried R g k vars (a.meaning g.space) (a'.meaning g'.space) v i x)
      (a'.meaning g'.space v' i x) := by
  obtain ⟨n, n', hn, hn', hexit, -⟩ := hsim v v' hR
  unfold carried
  rcases hb.mem_or_later hi with hmem | ⟨hi, hni⟩
  · cases hex : n.isExit with
    | true =>
      have hex' : n'.isExit = true := hexit ▸ hex
      obtain ⟨s, hs, -⟩ := (hb i).mp hmem
      rw [if_pos (.inr (not_inner_of_exit hn hex)), meaning_exit hg ha hn hex hs,
        meaning_exit hg' ha' hn' hex' (hindex ▸ hs)]
      exact .rfl
    | false =>
      rw [if_neg (not_or.mpr ⟨not_not_intro hmem, fun hno => hno n ⟨hn, hex⟩⟩)]
      intro hseed
      exact if_pos ⟨v', hR, hseed⟩
  · rw [if_pos (.inl hni)]
    exact hlater v v' hR i hi x

theorem carried_preSolution : g.PreSolution k b vars (a.meaning g.space)
    (carried R g k vars (a.meaning g.space) (a'.meaning g'.space)) where
  later v _ i hi := by
    funext x
    exact if_pos (.inl (hb.not_mem_of_later hi))
  exits v n hn hex i _ := by
    funext x
    exact if_pos (.inr (not_inner_of_exit hn hex))
  rhs_below v n hn i hi x := by
    -- the node that has the seed solves its equation, and the equations are related
    intro hseed
    obtain ⟨v', hR, hseed'⟩ := exists_of_carried_eq_seed hi hn hseed
    obtain ⟨m, n', hm, hn', hexit, hmatch⟩ := hsim v v' hR
    obtain rfl : n = m := Option.some.inj (hn.1.symm.trans hm)
    obtain ⟨s, hs, hsb⟩ := (hb i).mp hi
    have hbelow {w w' j : Nat} (hw : R w w') (hj : From g.index.subs b j) (y : Bits) :=
      carried_below hg hg' hindex hsim ha ha' hb hlater hw hj y
    have hrel : RelatedBy R g k b (carried R g k vars (a.meaning g.space) (a'.meaning g'.space))
        (a'.meaning g'.space) := by
      intro w w' hw j t ht hbt y z hyz
      refine (hbelow hw ⟨t, ht, hbt⟩ y).trans ?_
      exact (ha'.sound.regular w').below (hindex ▸ ht) (hindex ▸ hyz)
    have hrhs := hrel.rhs hg hg' hindex hn.1 hn' (hmatch hn.2) hs (Nat.le_of_eq hsb.symm)
      (x := x) (y := x) (fun _ _ => .rfl) fun j hj => hbelow hR (hsb ▸ hj) x
    have hinner : g'.Inner v' n' := ⟨hn', hexit ▸ hn.2⟩
    rw [ha'.solved v' n' hinner i ⟨s, hindex ▸ hs, Nat.zero_le _⟩] at hrhs
    exact hrhs hseed'

end Solved

/-- In one block, related nodes have ordered values if they do in the later blocks. -/
theorem SolvedFrom.below {B : Block} (hg : g.Coherent) (hg' : g'.Coherent)
    (hindex : g'.index = g.index) (ha : g.SolvedFrom 0 a) (ha' : g'.SolvedFrom 0 a')
    (hB : g.index.blocks[b]? = some B) (hsim : Simulates B.kind R g g')
    (hlater : ∀ v v', R v v' → ∀ i, From g.index.subs (b + 1) i → ∀ x,
      B.kind.Below (a.meaning g.space v i x) (a'.meaning g'.space v' i x)) :
    ∀ v v', R v v' → ∀ i, From g.index.subs b i → ∀ x,
      B.kind.Below (a.meaning g.space v i x) (a'.meaning g'.space v' i x) := by
  intro v v' hR i hi x
  obtain ⟨n, -, hn, -⟩ := hsim v v' hR
  have hb := hg.isBlock hB
  have hpre := carried_preSolution hg hg' hindex hsim ha ha' hb hlater
  have hlt := (Array.getElem?_eq_some_iff.mp hn).1
  have hleast := ha.least b B (Nat.zero_le b) hB _ hpre v hlt i hi x
  exact hleast.trans (carried_below hg hg' hindex hsim ha ha' hb hlater hR hi x)

/-- Solutions are ordered along a relation whose nodes match: from the first graph to the second
for blocks that move up, and backwards for blocks that move down. -/
theorem SolvedFrom.meaning_le (hg : g.Coherent) (hg' : g'.Coherent) (hindex : g'.index = g.index)
    (ha : g.SolvedFrom 0 a) (ha' : g'.SolvedFrom 0 a')
    (hup : ∀ k, k ≠ .greatest → Simulates k R g g')
    (hdown : Simulates .greatest (fun v' v => R v v') g' g) :
    ∀ v v', R v v' → ∀ i x, a.meaning g.space v i x ≤ a'.meaning g'.space v' i x := by
  have hblocks (m : Nat) : ∀ b, b + m = g.index.blocks.size → ∀ v v', R v v' →
      ∀ i, From g.index.subs b i → ∀ x, a.meaning g.space v i x ≤ a'.meaning g'.space v' i x := by
    induction m with
    | zero =>
      intro b hb v v' _ i hi
      exact absurd hi (hg.index.not_from (Nat.le_of_eq hb.symm))
    | succ m ih =>
      intro b hb v v' hR i hi x
      have hlater := ih (b + 1) (by omega)
      obtain ⟨B, hB⟩ : ∃ B, g.index.blocks[b]? = some B :=
        ⟨_, Array.getElem?_eq_getElem (by omega)⟩
      by_cases hk : B.kind = .greatest
      · rw [← BlockKind.below_greatest, ← hk]
        have hi' : From g'.index.subs b i := hindex ▸ hi
        refine ha'.below hg' hg hindex.symm ha (hindex ▸ hB) (hk ▸ hdown) ?_ v' v hR i hi' x
        intro w' w hw j hj y
        rw [hk, BlockKind.below_greatest]
        exact hlater w w' hw j (hindex ▸ hj) y
      · rw [← BlockKind.below_of_ne hk]
        refine ha.below hg hg' hindex ha' hB (hup _ hk) ?_ v v' hR i hi x
        intro w w' hw j hj y
        rw [BlockKind.below_of_ne hk]
        exact hlater w w' hw j hj y
  intro v v' hR i x
  by_cases hi : i < g.index.size
  · exact hblocks _ 0 (Nat.zero_add _) v v' hR i ⟨_, Array.getElem?_eq_getElem hi, Nat.zero_le _⟩ x
  · obtain ⟨n, -, hn, -⟩ := hup .plain (by decide) v v' hR
    obtain ⟨t, -, ht, hm⟩ := ha.sound.valid.getElem? (Array.getElem?_eq_some_iff.mp hn).1
    have hdim := hg.dim_eq
    rw [hm, Transformer.meaning_of_size_le (by rw [ht.size_eq]; omega)]
    exact Bool.false_le _

end DependencyGraph

end MuProc
