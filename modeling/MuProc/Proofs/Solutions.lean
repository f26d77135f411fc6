import MuProc.Proofs.Sweeps

/-!
# The solution of all blocks

The blocks are solved from the last one to the first. Solving a block leaves the later
blocks alone, and these read nothing of it, so their equations go on to hold: in the end
every block is solved, each at its extremal solution given the blocks after it. This
determines the values of all nodes, so the order in which nodes are evaluated does not
matter.
-/

namespace MuProc

open Index (From)

namespace DependencyGraph

/-! ### Solving by a schedule -/

/-- Solves the equations of one block in the order of a schedule. -/
def solveBlockBy (g : DependencyGraph) (pick : Schedule) (invariants : Bool) (assign : Assignment)
    (b : Block) : Except Fault Sweep := do
  let s ← g.nodes.toList.foldlM (seedNode b) { assign, queue := [] }
  g.sweepBy pick invariants b (g.sweepBound b) s

/-- Solves a block after others, in the order of a schedule. -/
def solveNextBy (g : DependencyGraph) (pick : Schedule) (invariants : Bool)
    (acc : Assignment × List BlockReport) (b : Block) :
    Except Fault (Assignment × List BlockReport) := do
  if b.vars.isEmpty then return acc
  let s ← g.solveBlockBy pick invariants acc.1 b
  let report := {
    block := b.number
    kind := b.kind
    vars := b.vars.length
    evaluations := s.evaluations
    updates := s.updates }
  return (s.assign, acc.2 ++ [report])

/-- Solves all blocks, from the last one to the first, in the order of a schedule. -/
def solveBy (g : DependencyGraph) (pick : Schedule) (invariants : Bool) :
    Except Fault (Assignment × List BlockReport) :=
  g.index.blocks.toList.reverse.foldlM (g.solveNextBy pick invariants)
    (g.nodes.map g.startValue, [])

theorem solveNextBy_first (g : DependencyGraph) (invariants : Bool) :
    g.solveNextBy Schedule.first invariants = g.solveNext invariants := by
  funext acc b
  simp only [solveNextBy, solveNext, solveBlockBy, solveBlock, sweepBy_first]

theorem solveBy_first (g : DependencyGraph) (invariants : Bool) :
    g.solveBy Schedule.first invariants = g.solve invariants := by
  rw [solveBy, solve, solveNextBy_first]

/-! ### Solved blocks -/

/-- The blocks from `b` on are solved, each at its extremal solution. -/
structure SolvedFrom (g : DependencyGraph) (b : Nat) (a : Assignment) : Prop where
  sound : g.SoundAssignment a
  exits : ∀ (v : Nat) n, g.nodes[v]? = some n → n.isExit = true → a[v]? = some g.space.identity
  solved : ∀ v n, g.Inner v n → ∀ i, From g.index.subs b i → ∀ x,
    g.rhs (a.meaning g.space) n i x (fun j => a.meaning g.space v j x) = a.meaning g.space v i x
  least : ∀ (b' : Nat) B, b ≤ b' → g.index.blocks[b']? = some B →
    ∀ S, g.PreSolution B.kind b' B.vars (a.meaning g.space) S → ∀ v < g.nodes.size,
      ∀ i, From g.index.subs b' i → ∀ x, B.kind.Below (a.meaning g.space v i x) (S v i x)

variable {g : DependencyGraph} {a₀ a : Assignment} {b : Nat} {B : Block}

theorem Coherent.isBlock (hg : g.Coherent) (hB : g.index.blocks[b]? = some B) :
    g.IsBlock b B.vars :=
  fun _ => hg.index.mem_vars hB

theorem meaning_of_identity (hg : g.Coherent) {v : Nat} (hv : a[v]? = some g.space.identity)
    {i : Nat} (hi : i < g.index.size) (x : Bits) : a.meaning g.space v i x = x i := by
  rw [meaning_of_assigned hv]
  exact Space.meaning_identity Func hg.space (hg.dim_eq ▸ hi) x

theorem PreSolution.congr {k : BlockKind} {vars : List Nat} {A A' S : Family}
    (hvars : g.IsBlock b vars)
    (h : ∀ v < g.nodes.size, ∀ i, From g.index.subs b i → A v i = A' v i)
    (hS : g.PreSolution k b vars A S) : g.PreSolution k b vars A' S where
  later v hv i hi := (hS.later v hv i hi).trans (h v hv i (from_of_le (Nat.le_succ b) hi))
  exits v n hn hex i hi := (hS.exits v n hn hex i hi).trans
    (h v (Array.getElem?_eq_some_iff.mp hn).1 i (hvars.from_of_mem hi))
  rhs_below := hS.rhs_below

theorem SolvedFrom.step (hg : g.Coherent) (hB : g.index.blocks[b]? = some B)
    (h : g.SolvedFrom (b + 1) a₀) (hw : g.Working B.kind b B.vars a₀ a []) : g.SolvedFrom b a := by
  have hb := hg.isBlock hB
  have hlater (v : Nat) (i : Nat) (hi : From g.index.subs (b + 1) i) :
      a.meaning g.space v i = a₀.meaning g.space v i :=
    hw.frame v i (hb.not_mem_of_later hi)
  have hexits (v : Nat) (n : Node) (hn : g.nodes[v]? = some n) (hex : n.isExit = true) :
      a.meaning g.space v = a₀.meaning g.space v := by
    rw [Assignment.meaning, Assignment.meaning, Array.getD_eq_getD_getElem?,
      Array.getD_eq_getD_getElem?, hw.exits v n hn hex]
  refine ⟨hw.sound, fun v n hn hex => ?_, fun v n hn i hi x => ?_, fun b' B' hle hB' S hS => ?_⟩
  · rw [hw.exits v n hn hex]
    exact h.exits v n hn hex
  · rcases hb.mem_or_later hi with hi | ⟨hi, -⟩
    · exact hw.solved v n hn (List.not_mem_nil) i hi x
    · obtain ⟨s, hs, hle⟩ := hi
      rw [rhs_congr hg hw.sound.regular (b := b + 1) (B := a₀.meaning g.space)
        (fun w _ j hj => hlater w j hj) hn.1 hs hle fun j hj => congrFun (hlater v j hj) x,
        hlater v i ⟨s, hs, hle⟩]
      exact h.solved v n hn i ⟨s, hs, hle⟩ x
  · rcases Nat.eq_or_lt_of_le hle with rfl | hlt
    · obtain rfl : B = B' := Option.some.inj (hB.symm.trans hB')
      refine hw.least S ⟨fun v hv i hi => ?_, fun v n hn hex i hi => ?_, hS.rhs_below⟩
      · rw [hS.later v hv i hi, hlater v i hi]
      · rw [hS.exits v n hn hex i hi, hexits v n hn hex]
    · intro v hv i hi x
      have hagree (w : Nat) (_ : w < g.nodes.size) (j : Nat) (hj : From g.index.subs b' j) :=
        hlater w j (from_of_le hlt hj)
      rw [hagree v hv i hi]
      exact h.least b' B' hlt hB' S (hS.congr (hg.isBlock hB') hagree) v hv i hi x

theorem solvedFrom_start (hg : g.Coherent) :
    g.SolvedFrom g.index.blocks.size (g.nodes.map g.startValue) := by
  have hsound (n : Node) : g.Sound (g.startValue n) := by
    unfold startValue
    split
    · refine ⟨Space.valid_identity Func hg.space, fun i s hs x y hxy => ?_⟩
      have hi := hg.index_lt hs
      rw [Space.meaning_identity Func hg.space hi, Space.meaning_identity Func hg.space hi]
      exact hxy i ⟨s, hs, Nat.le_refl _⟩
    · exact ⟨Space.valid_bottom Func, fun i s _ x y _ => by
        rw [Space.meaning_bottom, Space.meaning_bottom]⟩
  have hget {v : Nat} {t : Transformer} (ht : (g.nodes.map g.startValue)[v]? = some t) :
      ∃ n, g.nodes[v]? = some n ∧ g.startValue n = t := by
    simpa using ht
  refine ⟨⟨⟨by simp, fun v t ht => ?_⟩, fun v => ?_⟩, fun v n hn hex => ?_,
    fun v n hn i hi => absurd hi (hg.index.not_from (Nat.le_refl _)),
    fun b' B hle hB S hS v hv i hi => absurd hi (hg.index.not_from hle)⟩
  · obtain ⟨n, -, rfl⟩ := hget ht
    exact (hsound n).valid
  · cases hv : (g.nodes.map g.startValue)[v]? with
    | none =>
      intro i s _ x y _
      rw [Assignment.meaning, Array.getD_eq_getD_getElem?, hv, Option.getD_none]
      exact le_of_eq ((Transformer.meaning_of_size_le (by simp) x).trans
        (Transformer.meaning_of_size_le (by simp) y).symm)
    | some t =>
      obtain ⟨n, -, rfl⟩ := hget hv
      rw [meaning_of_assigned hv]
      exact (hsound n).regular
  · rw [Array.getElem?_map, hn, Option.map_some, startValue, if_pos hex]

/-- On a block without subformulas there is nothing to do. -/
theorem Working.of_empty {k : BlockKind} (hb : g.IsBlock b []) (ha : g.SoundAssignment a) :
    g.Working k b [] a a [] where
  sound := ha
  exits _ _ _ _ := rfl
  frame _ _ _ := rfl
  below_rhs _ _ _ i hi := absurd hi List.not_mem_nil
  least S hS v hv i hi x := by
    rcases hb.mem_or_later hi with hi | ⟨hi, -⟩
    · exact absurd hi List.not_mem_nil
    · rw [hS.later v hv i hi]
      exact .rfl
  solved _ _ _ _ i hi := absurd hi List.not_mem_nil
  queued v hv := absurd hv List.not_mem_nil
  nodup := List.nodup_nil

/-- Whatever the schedule, the work on a block comes to its end; the checks make no difference. -/
theorem solveNextBy_spec (hg : g.Coherent) {pick : Schedule} (hpick : pick.Picks)
    (hb : g.IsBlock b B.vars) {r : Assignment × List BlockReport} (ha : g.SoundAssignment r.1) :
    ∃ r', (∀ invariants, g.solveNextBy pick invariants r B = .ok r') ∧
      g.Working B.kind b B.vars r.1 r'.1 [] := by
  cases hempty : B.vars.isEmpty with
  | true =>
    refine ⟨r, fun invariants => ?_, ?_⟩
    · simp only [solveNextBy, hempty, if_true, Fold.pure_eq_ok]
    · rw [List.isEmpty_iff.mp hempty] at hb ⊢
      exact .of_empty hb ha
  | false =>
    obtain ⟨s, hs, hw, hfuel⟩ := seed_spec hg hb ha
    obtain ⟨t, ht, hwt⟩ := sweepBy_spec hg hb hpick hw hfuel
    let report : BlockReport :=
      { block := B.number, kind := B.kind, vars := B.vars.length,
        evaluations := t.evaluations, updates := t.updates }
    refine ⟨(t.assign, r.2 ++ [report]), fun invariants => ?_, hwt⟩
    simp only [solveNextBy, solveBlockBy, hempty, Bool.false_eq_true, if_false, hs,
      Fold.ok_bind, ht]
    rfl

theorem SolvedFrom.next (hg : g.Coherent) {pick : Schedule} (hpick : pick.Picks)
    (hB : g.index.blocks[b]? = some B) {r : Assignment × List BlockReport}
    (h : g.SolvedFrom (b + 1) r.1) :
    ∃ r', (∀ invariants, g.solveNextBy pick invariants r B = .ok r') ∧ g.SolvedFrom b r'.1 := by
  obtain ⟨r', hr', hw⟩ := solveNextBy_spec hg hpick (hg.isBlock hB) h.sound
  exact ⟨r', hr', h.step hg hB hw⟩

/-- Whatever the schedule, all blocks are solved; the checks make no difference. -/
theorem solveBy_spec (hg : g.Coherent) {pick : Schedule} (hpick : pick.Picks) :
    ∃ r, (∀ invariants, g.solveBy pick invariants = .ok r) ∧ g.SolvedFrom 0 r.1 := by
  obtain ⟨r, hr, h⟩ := Fold.foldlM_ok_forall (l := g.index.blocks.toList.reverse)
    (P := fun m r => g.SolvedFrom (g.index.blocks.size - m) r.1)
    (f := g.solveNextBy pick) (b := (g.nodes.map g.startValue, [])) (solvedFrom_start hg) (by
      intro m B r hB h
      obtain ⟨hm, hblock⟩ := Index.blocks_reverse hB
      have hnum : g.index.blocks.size - m = g.index.blocks.size - (m + 1) + 1 := by omega
      rw [hnum] at h
      exact h.next hg hpick hblock)
  refine ⟨r, hr, ?_⟩
  rwa [List.length_reverse, Array.length_toList, Nat.sub_self] at h

/-! ### The blocks from one on -/

/-- Solves the blocks from `b` on, from the last one to block `b`. -/
def solveFrom (g : DependencyGraph) (invariants : Bool) (b : Nat) :
    Except Fault (Assignment × List BlockReport) :=
  (g.index.blocks.toList.drop b).reverse.foldlM (g.solveNext invariants)
    (g.nodes.map g.startValue, [])

theorem drop_blocks {idx : Index} (hB : idx.blocks[b]? = some B) :
    idx.blocks.toList.drop b = B :: idx.blocks.toList.drop (b + 1) := by
  obtain ⟨hb, rfl⟩ := Array.getElem?_eq_some_iff.mp hB
  exact List.drop_eq_getElem_cons (by simpa using hb)

theorem solveFrom_zero (g : DependencyGraph) (invariants : Bool) :
    g.solveFrom invariants 0 = g.solve invariants := by
  rw [solveFrom, solve, List.drop_zero]

theorem solveFrom_eq (hB : g.index.blocks[b]? = some B) (invariants : Bool) :
    g.solveFrom invariants b = g.solveFrom invariants (b + 1) >>= (g.solveNext invariants · B) := by
  rw [solveFrom, drop_blocks hB, List.reverse_cons, List.foldlM_append]
  simp only [List.foldlM_cons, List.foldlM_nil, bind_pure]
  rfl

theorem solveFrom_spec (hg : g.Coherent) (hb : b ≤ g.index.blocks.size) :
    ∃ r, (∀ invariants, g.solveFrom invariants b = .ok r) ∧ g.SolvedFrom b r.1 := by
  -- Induction on the number of blocks from `b` on; the last of them to be solved is block `b`.
  obtain ⟨m, hm⟩ := Nat.exists_eq_add_of_le hb
  induction m generalizing b with
  | zero =>
    obtain rfl : g.index.blocks.size = b := hm
    refine ⟨(g.nodes.map g.startValue, []), fun invariants => ?_, solvedFrom_start hg⟩
    rw [solveFrom, List.drop_of_length_le (by simp)]
    rfl
  | succ m ih =>
    have hlt : b < g.index.blocks.size := by omega
    have hB := Array.getElem?_eq_getElem hlt
    obtain ⟨r, hr, hsolved⟩ := ih hlt (by omega)
    obtain ⟨r', hr', hsolved'⟩ := hsolved.next hg Schedule.first_picks hB
    refine ⟨r', fun invariants => ?_, hsolved'⟩
    rw [solveFrom_eq hB, hr invariants, Fold.ok_bind, ← solveNextBy_first]
    exact hr' invariants

/-! ### There is one solution -/

/-- Another assignment that solves the later blocks as well is a pre-solution of a block. -/
theorem SolvedFrom.preSolution {a' : Assignment} (hg : g.Coherent) (h : g.SolvedFrom 0 a)
    (h' : g.SolvedFrom 0 a') (hB : g.index.blocks[b]? = some B)
    (hlater : ∀ v < g.nodes.size, ∀ i, From g.index.subs (b + 1) i →
      a'.meaning g.space v i = a.meaning g.space v i) :
    g.PreSolution B.kind b B.vars (a.meaning g.space) (a'.meaning g.space) where
  later := hlater
  exits v n hn hex i _ := by
    rw [meaning_of_assigned (h.exits v n hn hex), meaning_of_assigned (h'.exits v n hn hex)]
  rhs_below v n hn i hi x := by
    have hfrom := from_of_le (Nat.zero_le b) ((hg.isBlock hB).from_of_mem hi)
    rw [h'.solved v n hn i hfrom x]
    exact .rfl

theorem ValidAssignment.meaning_ext {a' : Assignment} (hg : g.Coherent) (h : g.ValidAssignment a)
    (h' : g.ValidAssignment a') {v : Nat} (hv : v < g.nodes.size)
    (heq : ∀ (i : Nat) s, g.index.subs[i]? = some s →
      a.meaning g.space v i = a'.meaning g.space v i) :
    a.meaning g.space v = a'.meaning g.space v := by
  funext i
  by_cases hi : i < g.index.size
  · exact heq i _ (Array.getElem?_eq_getElem hi)
  · obtain ⟨t, -, ht, hm⟩ := h.getElem? hv
    obtain ⟨t', -, ht', hm'⟩ := h'.getElem? hv
    have hdim := hg.dim_eq
    funext x
    rw [hm, hm', Transformer.meaning_of_size_le (by rw [ht.size_eq]; omega),
      Transformer.meaning_of_size_le (by rw [ht'.size_eq]; omega)]

theorem SolvedFrom.unique {a' : Assignment} (hg : g.Coherent) (h : g.SolvedFrom 0 a)
    (h' : g.SolvedFrom 0 a') : ∀ v < g.nodes.size, a.meaning g.space v = a'.meaning g.space v := by
  have hfrom (m : Nat) : ∀ b, b + m = g.index.blocks.size → ∀ v < g.nodes.size,
      ∀ i, From g.index.subs b i → a'.meaning g.space v i = a.meaning g.space v i := by
    induction m with
    | zero => exact fun b hb v _ i hi => absurd hi (hg.index.not_from (Nat.le_of_eq hb.symm))
    | succ m ih =>
      intro b hb v hv i hi
      have hlater := ih (b + 1) (by omega)
      have hB := Array.getElem?_eq_getElem (show b < g.index.blocks.size by omega)
      funext x
      exact BlockKind.Below.antisymm
        (h'.least b _ (Nat.zero_le b) hB _ (h'.preSolution hg h hB fun w hw j hj =>
          (hlater w hw j hj).symm) v hv i hi x)
        (h.least b _ (Nat.zero_le b) hB _ (h.preSolution hg h' hB hlater) v hv i hi x)
  intro v hv
  refine h.sound.valid.meaning_ext hg h'.sound.valid hv fun i s hs => ?_
  exact (hfrom _ 0 (Nat.zero_add _) v hv i ⟨s, hs, Nat.zero_le _⟩).symm

/-- An assignment of monotone transformers that solves the equations of a block, where
the exits and the other blocks are as in `a`. -/
structure SolvesBlock (g : DependencyGraph) (B : Block) (a other : Assignment) : Prop where
  valid : g.ValidAssignment other
  exits : ∀ (v : Nat) n, g.nodes[v]? = some n → n.isExit = true → other[v]? = a[v]?
  others : ∀ v i, i ∉ B.vars → other.meaning g.space v i = a.meaning g.space v i
  solves : ∀ v n, g.Inner v n → ∀ t, other[v]? = some t → ∀ i ∈ B.vars,
    ∃ f h, g.component other n i t = .ok f ∧ t[i]? = some h ∧ Func.same f h = true

theorem SolvedFrom.solvesBlock (hg : g.Coherent) (h : g.SolvedFrom 0 a)
    (hB : g.index.blocks[b]? = some B) : g.SolvesBlock B a a := by
  refine ⟨h.sound.valid, fun _ _ _ _ => rfl, fun _ _ _ => rfl, fun v n hn t ht i hi => ?_⟩
  obtain ⟨s, hs, -⟩ := (hg.isBlock hB i).mp hi
  have htv := h.sound.valid.valid v t ht
  have htm : a.meaning g.space v = t.meaning g.space := meaning_of_assigned ht
  obtain ⟨f, hf, hfits, hfe⟩ := component_spec hg h.sound.valid hn.1 hs htv
  obtain ⟨r, hr, hrfits, -, hre⟩ := htv.getElem? (hg.index_lt hs)
  refine ⟨f, r, hf, hr, (Space.same_iff hg.space hfits hrfits).mpr fun x => ?_⟩
  have hsolved := h.solved v n hn i ⟨s, hs, Nat.zero_le _⟩ x
  rw [htm] at hsolved
  rw [hfe, hre, hsolved]

theorem SolvesBlock.rhs_eq {other : Assignment} (hg : g.Coherent)
    (hB : g.index.blocks[b]? = some B) (h : g.SolvesBlock B a other) {v : Nat} {n : Node}
    (hn : g.Inner v n) {i : Nat} (hi : i ∈ B.vars) (x : Bits) :
    g.rhs (other.meaning g.space) n i x (fun j => other.meaning g.space v j x) =
      other.meaning g.space v i x := by
  obtain ⟨s, hs, -⟩ := (hg.isBlock hB i).mp hi
  obtain ⟨t, ht, htv, htm⟩ := h.valid.getElem? hn.lt
  obtain ⟨f, hf, hfits, hfe⟩ := component_spec hg h.valid hn.1 hs htv
  obtain ⟨f', r, hf', hr, hsame⟩ := h.solves v n hn t ht i hi
  obtain rfl : f = f' := Except.ok.inj (hf.symm.trans hf')
  rw [Space.same_iff hg.space hfits (htv.fits i r hr)] at hsame
  rw [htm, ← hfe, hsame, Transformer.meaning_of_getElem? hr]

theorem SolvesBlock.preSolution {other : Assignment} (hg : g.Coherent)
    (hB : g.index.blocks[b]? = some B) (h : g.SolvesBlock B a other) :
    g.PreSolution B.kind b B.vars (a.meaning g.space) (other.meaning g.space) where
  later v _ i hi := h.others v i ((hg.isBlock hB).not_mem_of_later hi)
  exits v n hn hex i _ := by
    rw [Assignment.meaning, Assignment.meaning, Array.getD_eq_getD_getElem?,
      Array.getD_eq_getD_getElem?, h.exits v n hn hex]
  rhs_below v n hn i hi x := by
    rw [h.rhs_eq hg hB hn hi]
    exact .rfl

/-- Transformers whose values lie in the order of a block are compared in its direction. -/
theorem leq?_of_below {k : BlockKind} {t u : Transformer} (hg : g.Coherent) (ht : t.Valid g.space)
    (hu : u.Valid g.space) (h : ∀ i x, k.Below (t.meaning g.space i x) (u.meaning g.space i x)) :
    if k = .greatest then u.leq? t = some true else t.leq? u = some true := by
  split
  · rename_i hk
    subst hk
    exact Transformer.leq?_of_le hg.space hu ht fun i x => BlockKind.below_greatest.mp (h i x)
  · rename_i hk
    exact Transformer.leq?_of_le hg.space ht hu fun i x => (BlockKind.below_of_ne hk).mp (h i x)

/-- The values of a solved block lie on the right side of those of every other solution. -/
theorem SolvedFrom.extremal {other : Assignment} (hg : g.Coherent) (h : g.SolvedFrom 0 a)
    (hB : g.index.blocks[b]? = some B) (ho : g.SolvesBlock B a other) {v : Nat}
    {t u : Transformer} (ht : a[v]? = some t) (hu : other[v]? = some u) :
    if B.kind = .greatest then u.leq? t = some true else t.leq? u = some true := by
  have hv : v < g.nodes.size := h.sound.valid.size_eq ▸ (Array.getElem?_eq_some_iff.mp ht).1
  have htv := h.sound.valid.valid v t ht
  have huv := ho.valid.valid v u hu
  have hbelow (i : Nat) (x : Bits) :
      B.kind.Below (t.meaning g.space i x) (u.meaning g.space i x) := by
    rw [← meaning_of_assigned ht, ← meaning_of_assigned hu]
    by_cases hi : i ∈ B.vars
    · exact h.least b B (Nat.zero_le b) hB _ (ho.preSolution hg hB) v hv i
        ((hg.isBlock hB).from_of_mem hi) x
    · rw [ho.others v i hi]
      exact .rfl
  exact leq?_of_below hg htv huv hbelow

/-! ### What the solver computes -/

/-- Every exit holds the identity, no node moves when it is recomputed for any block, and
the values of each block are the extremal solution of its equations among the monotone
transformers, where the other blocks have their values. -/
structure Extremal (g : DependencyGraph) (a : Assignment) : Prop where
  exits : ∀ (v : Nat) n, g.nodes[v]? = some n → n.isExit = true → a[v]? = some g.space.identity
  stable : ∀ v n, g.Inner v n → ∀ (b : Nat) B, g.index.blocks[b]? = some B →
    ∃ t, a[v]? = some t ∧ g.recompute a n B = .ok t
  solves : ∀ (b : Nat) B, g.index.blocks[b]? = some B → g.SolvesBlock B a a
  extremal : ∀ (b : Nat) B, g.index.blocks[b]? = some B → ∀ other, g.SolvesBlock B a other →
    ∀ (v : Nat) t u, a[v]? = some t → other[v]? = some u →
      if B.kind = .greatest then u.leq? t = some true else t.leq? u = some true

/-- The same transformers for all nodes. -/
def SameAssignment (a a' : Assignment) : Prop :=
  a.size = a'.size ∧ ∀ (v : Nat) t t', a[v]? = some t → a'[v]? = some t' → t.same t' = true

theorem SolvedFrom.toExtremal (hg : g.Coherent) (h : g.SolvedFrom 0 a) : g.Extremal a where
  exits := h.exits
  stable v n hn b B hB := by
    obtain ⟨t, ht, -, hm⟩ := h.sound.getElem? hn.lt
    have hb := hg.isBlock hB
    refine ⟨t, ht, recompute_of_solved hg h.sound hn.1 hb.inBlock ht fun x i hi => ?_⟩
    have := h.solved v n hn i (from_of_le (Nat.zero_le b) (hb.from_of_mem hi)) x
    rwa [hm] at this
  solves _ _ hB := h.solvesBlock hg hB
  extremal _ _ hB _ ho _ _ _ ht hu := h.extremal hg hB ho ht hu

theorem ValidAssignment.same {a' : Assignment} (hg : g.Coherent) (h : g.ValidAssignment a)
    (h' : g.ValidAssignment a')
    (heq : ∀ v < g.nodes.size, a.meaning g.space v = a'.meaning g.space v) :
    SameAssignment a a' := by
  refine ⟨h.size_eq.trans h'.size_eq.symm, fun v t t' ht ht' => ?_⟩
  have hv : v < g.nodes.size := h.size_eq ▸ (Array.getElem?_eq_some_iff.mp ht).1
  rw [Transformer.same_iff hg.space (h.valid v t ht) (h'.valid v t' ht'),
    ← meaning_of_assigned ht, ← meaning_of_assigned ht', heq v hv]

theorem SolvedFrom.same {a' : Assignment} (hg : g.Coherent) (h : g.SolvedFrom 0 a)
    (h' : g.SolvedFrom 0 a') : SameAssignment a a' :=
  h.sound.valid.same hg h'.sound.valid (h.unique hg h')

/-- The solver finds the extremal solution of all blocks, and so does every other order of
evaluating queued nodes. -/
theorem solve_extremal {f : Formula} {sys : ProcessSystem} {d : Int} {order : Option (List Int)}
    {idx : Index} {pg : Graph} {sp : Space} {invariants : Bool} {reports : List BlockReport}
    (hidx : Index.ofFormula f = .ok idx) (hpg : Graph.expand sys = .ok pg)
    (hsp : Space.make d order = .ok sp) (hg : build sp pg idx = .ok g)
    (hsolve : g.solve invariants = .ok (a, reports)) :
    g.Extremal a ∧ g.solveBy Schedule.first invariants = .ok (a, reports) ∧
      ∀ pick : Schedule, pick.Picks → ∀ invariants', ∃ a' reports',
        g.solveBy pick invariants' = .ok (a', reports') ∧ SameAssignment a' a := by
  have hcoh := (built_of_build hidx hpg hsp hg).coherent
  have hfirst : g.solveBy Schedule.first invariants = .ok (a, reports) := by
    rw [solveBy_first, hsolve]
  obtain ⟨r, hr, hsolved⟩ := solveBy_spec hcoh Schedule.first_picks
  obtain rfl : r = (a, reports) := Except.ok.inj ((hr invariants).symm.trans hfirst)
  refine ⟨hsolved.toExtremal hcoh, hfirst, fun pick hpick invariants' => ?_⟩
  obtain ⟨r', hr', hsolved'⟩ := solveBy_spec hcoh hpick
  exact ⟨r'.1, r'.2, hr' invariants', hsolved'.same hcoh hsolved⟩

/-- The equations of `mu X.("p" || <>X)` over a process that repeats an action until another
one ends it have such a solution. -/
theorem solve_extremal_loop :
    ∃ idx pg sp g a reports,
      Index.ofFormula (.mu "X" (.or (.atom "p") (.dia "" (.var "X")))) = .ok idx ∧
      Graph.expand (.ofDefinitions "P" [
        { name := "P", rules := [[.act "a" .must, .run "P"], [.act "b" .may]] }]) = .ok pg ∧
      Space.make idx.size (some (idx.order.map Int.ofNat)) = .ok sp ∧
      build sp pg idx = .ok g ∧ g.solve true = .ok (a, reports) ∧ g.Extremal a := by
  obtain ⟨idx, hidx⟩ : ∃ idx, Index.ofFormula (.mu "X" (.or (.atom "p") (.dia "" (.var "X")))) =
      .ok idx := ⟨_, rfl⟩
  have hwf := Index.wellFormed_of_ofFormula hidx
  have hmax : idx.size ≤ Space.maxDim := by
    obtain rfl := Except.ok.inj hidx
    decide
  obtain ⟨sp, hsp⟩ := Space.make_order hwf hmax
  have hvalid : (ProcessSystem.ofDefinitions "P" [
      { name := "P", rules := [[.act "a" .must, .run "P"], [.act "b" .may]] }]).validate =
      .ok () := by rfl
  have hpg := Graph.expand_eq_ok.mpr ⟨hvalid, rfl⟩
  obtain ⟨hpgwf, hinit⟩ := Graph.ofSystem_wellFormed (.ofDefinitions "P" [
      { name := "P", rules := [[.act "a" .must, .run "P"], [.act "b" .may]] }])
  have hdim : sp.dim = idx.size := by exact_mod_cast (Space.proper_of_make hsp).2
  obtain ⟨g, hg, hbuilt⟩ := build_spec (Space.proper_of_make hsp).1 hwf hdim hpgwf hinit
  obtain ⟨⟨a, reports⟩, hsolve, -⟩ := solveBy_spec hbuilt.coherent Schedule.first_picks
  have hsolve := (solveBy_first g true).symm.trans (hsolve true)
  exact ⟨idx, _, sp, g, a, reports, hidx, hpg, hsp, hg, hsolve,
    (solve_extremal hidx hpg hsp hg hsolve).1⟩

end DependencyGraph

end MuProc
