import MuProc.Proofs.Totality

/-!
# How much work a solution takes

Every evaluation takes a node from the queue. At the start of a block every node is queued once
at most, and later a node is queued only because a node that it reads has moved, so evaluations
are paid for by nodes and by updates. An update moves the value of a node away from the seed in
at least one place, that is, for one subformula of the block and one input vector, and no place
is left twice. Both hold for every order of evaluating queued nodes.
-/

namespace MuProc

namespace DependencyGraph

/-- The nodes that take part in the iteration. -/
def innerNodes (g : DependencyGraph) : List Node :=
  g.nodes.toList.filter (!·.isExit)

/-- The places at which the values of a block can move at these nodes. -/
def innerPlaces (g : DependencyGraph) (vars : List Nat) :
    Finset (Nat × Nat × (Fin g.space.dim → Bool)) :=
  (g.innerNodes.map (·.id)).toFinset ×ˢ vars.toFinset ×ˢ Finset.univ

def innerProgress (g : DependencyGraph) (k : BlockKind) (vars : List Nat) (a : Assignment) : Nat :=
  moved k (g.innerPlaces vars) fun p => a.meaning g.space p.1 p.2.1 (extend p.2.2)

variable {g : DependencyGraph} {a₀ : Assignment} {b v : Nat} {n : Node} {B : Block}
  {invariants : Bool} {pick : Schedule}

theorem innerProgress_le (g : DependencyGraph) (k : BlockKind) (vars : List Nat)
    (a : Assignment) :
    g.innerProgress k vars a ≤ g.innerNodes.length * vars.length * 2 ^ g.space.dim := by
  have hnodes : (g.innerNodes.map (·.id)).toFinset.card ≤ g.innerNodes.length := by
    simpa using (g.innerNodes.map (·.id)).toFinset_card_le
  have hcard : (g.innerPlaces vars).card =
      (g.innerNodes.map (·.id)).toFinset.card * (vars.toFinset.card * 2 ^ g.space.dim) := by
    simp [innerPlaces]
  calc g.innerProgress k vars a ≤ (g.innerPlaces vars).card := moved_le ..
    _ = (g.innerNodes.map (·.id)).toFinset.card * (vars.toFinset.card * 2 ^ g.space.dim) := hcard
    _ ≤ g.innerNodes.length * (vars.length * 2 ^ g.space.dim) :=
      Nat.mul_le_mul hnodes (Nat.mul_le_mul_right _ vars.toFinset_card_le)
    _ = g.innerNodes.length * vars.length * 2 ^ g.space.dim := by rw [Nat.mul_assoc]

theorem mem_innerNodes (hn : g.Inner v n) : n ∈ g.innerNodes := by
  have hmem : n ∈ g.nodes.toList := Array.mem_toList_iff.mpr (Array.mem_of_getElem? hn.1)
  exact List.mem_filter.mpr ⟨hmem, by simp [hn.2]⟩

/-! ### One evaluation -/

theorem require_eq_ok {α : Type} {o : Option α} {x : α} : require o = .ok x ↔ o = some x := by
  cases o with
  | none => simp [require]
  | some y => simp [require]

/-- An evaluation finds the value of its node unchanged, or replaces it and queues readers. -/
theorem evaluate_cases {s t : Sweep} (h : g.evaluate invariants B v s = .ok t) :
    ∃ n next old, g.nodes[v]? = some n ∧ g.recompute s.assign n B = .ok next ∧
      s.assign[v]? = some old ∧
      (t = { s with evaluations := s.evaluations + 1 } ∨
        Transformer.same next old ≠ true ∧ ∃ vs queue, g.dependents[v]? = some vs ∧
          g.enqueue s.queue vs = .ok queue ∧
          t = { assign := s.assign.setIfInBounds v next, queue,
                evaluations := s.evaluations + 1, updates := s.updates + 1 }) := by
  simp only [evaluate, Fold.bind_eq_ok, require_eq_ok] at h
  obtain ⟨n, hn, next, hnext, old, hold, h⟩ := h
  refine ⟨n, next, old, hn, hnext, hold, ?_⟩
  by_cases hsame : Transformer.same next old = true
  · rw [if_pos hsame] at h
    exact .inl (Except.ok.inj h).symm
  · rw [if_neg hsame] at h
    simp only [Fold.bind_eq_ok, require_eq_ok] at h
    obtain ⟨_, -, vs, hvs, queue, hqueue, h⟩ := h
    exact .inr ⟨hsame, vs, queue, hvs, hqueue, (Except.ok.inj h).symm⟩

/-- What the counters of the work on a block say about its queue and its values. -/
structure Counts (g : DependencyGraph) (B : Block) (s : Sweep) : Prop where
  updates_le : s.updates ≤ s.evaluations
  evaluations_le : s.evaluations + s.queue.length ≤ g.nodes.size + s.updates * g.fan
  updates_le_progress : s.updates ≤ g.innerProgress B.kind B.vars s.assign

theorem Counts.evaluate (hg : g.Coherent) (hb : g.IsBlock b B.vars) {s t : Sweep}
    (hw : g.Working B.kind b B.vars a₀ s.assign s.queue) (h : g.Counts B s) (hv : v ∈ s.queue)
    (ht : g.evaluate invariants B v { s with queue := s.queue.erase v } = .ok t) :
    g.Counts B t := by
  have hlen : (s.queue.erase v).length + 1 = s.queue.length := List.length_erase_add_one hv
  have hle := h.updates_le
  have hqueue := h.evaluations_le
  obtain ⟨n, next, old, hn, hnext, hold, hcase⟩ := evaluate_cases ht
  rcases hcase with heq | ⟨hsame, vs, queue, hvs, henq, heq⟩
  · subst heq
    exact ⟨by dsimp only; omega, by dsimp only; omega, h.updates_le_progress⟩
  · -- the readers of the node are queued, and the node itself has made progress
    subst heq
    obtain ⟨m, hm⟩ := hw.queued v hv
    obtain rfl : n = m := Option.some.inj (hn.symm.trans hm.1)
    obtain ⟨c, d, hc, hcs, hd, hrec⟩ := hw.recompute hg hb hm
    obtain rfl : next = d := Except.ok.inj (hnext.symm.trans hd)
    obtain rfl : old = c := Option.some.inj (hold.symm.trans hc)
    obtain ⟨queue', henq', -, hqlen, -⟩ :=
      enqueue_spec (hw.nodup.erase v) (hg.dependents_lt v _ hvs)
    obtain rfl : queue = queue' := Except.ok.inj (henq.symm.trans henq')
    have hfan := length_le_fan hvs
    have hpay : (s.updates + 1) * g.fan = s.updates * g.fan + g.fan := Nat.succ_mul ..
    have hid := hg.id_eq v n hm.1
    have hmoved : g.innerProgress B.kind B.vars s.assign <
        g.innerProgress B.kind B.vars (s.assign.setIfInBounds v next) := by
      refine moved_lt_of_recomputed hg hc hcs.valid hrec hsame fun i hi x => ?_
      have hmem : v ∈ g.innerNodes.map (·.id) := List.mem_map.mpr ⟨n, mem_innerNodes hm, hid⟩
      simp only [innerPlaces, Finset.mem_product, List.mem_toFinset, Finset.mem_univ, and_true]
      exact ⟨hmem, hi⟩
    have hprogress := h.updates_le_progress
    exact ⟨by dsimp only; omega, by dsimp only; omega, by dsimp only; omega⟩

/-! ### One block -/

theorem Counts.sweepBy (hg : g.Coherent) (hb : g.IsBlock b B.vars) (hpick : pick.Picks)
    {fuel : Nat} {s t : Sweep} (hw : g.Working B.kind b B.vars a₀ s.assign s.queue)
    (h : g.Counts B s) (ht : g.sweepBy pick invariants B fuel s = .ok t) : g.Counts B t := by
  induction fuel generalizing s with
  | zero =>
    rw [DependencyGraph.sweepBy] at ht
    split at ht
    · exact Except.ok.inj ht ▸ h
    · cases ht
  | succ fuel ih =>
    rw [DependencyGraph.sweepBy] at ht
    split at ht
    · exact Except.ok.inj ht ▸ h
    · rename_i hne
      obtain ⟨u, hu, ht⟩ := Fold.bind_eq_ok.mp ht
      have hv := hpick B s hne
      obtain ⟨u', hu', hw', -⟩ := evaluate_spec hg hb hw hv
      obtain rfl : u = u' := Except.ok.inj (hu.symm.trans (hu' invariants))
      exact ih hw' (h.evaluate hg hb hw hv hu) ht

theorem Working.length_queue_le {k : BlockKind} {vars queue : List Nat} {a : Assignment}
    (h : g.Working k b vars a₀ a queue) : queue.length ≤ g.nodes.size := by
  have hsub : queue ⊆ List.range g.nodes.size := by
    intro v hv
    obtain ⟨n, hn⟩ := h.queued v hv
    exact List.mem_range.mpr hn.lt
  have hle := (h.nodup.subperm hsub).length_le
  rwa [List.length_range] at hle

/-- Seeding counts neither as an evaluation nor as an update. -/
theorem counters_of_seed {l : List Node} {s t : Sweep} (h : l.foldlM (seedNode B) s = .ok t) :
    t.evaluations = s.evaluations ∧ t.updates = s.updates := by
  refine Fold.foldlM_inv_of_ok
    (P := fun _ t => t.evaluations = s.evaluations ∧ t.updates = s.updates) ⟨rfl, rfl⟩
    (fun _ n u u' _ hu hstep => ?_) h
  unfold seedNode at hstep
  split at hstep
  · exact Except.ok.inj hstep ▸ hu
  · obtain ⟨c, -, hstep⟩ := Fold.bind_eq_ok.mp hstep
    exact Except.ok.inj hstep ▸ hu

/-- The report of a block keeps within what the block allows. -/
structure Within (g : DependencyGraph) (B : Block) (r : BlockReport) : Prop where
  updates_le : r.updates ≤ r.evaluations
  evaluations_le : r.evaluations ≤ g.nodes.size + r.updates * g.fan
  updates_le_places : r.updates ≤ g.innerNodes.length * B.vars.length * 2 ^ g.space.dim

/-- A block without subformulas is passed over; for any other one there is a report. -/
theorem SolvedFrom.reports_next (hg : g.Coherent) (hpick : pick.Picks)
    (hB : g.index.blocks[b]? = some B) {r r' : Assignment × List BlockReport}
    (h : g.SolvedFrom (b + 1) r.1) (hr : g.solveNextBy pick invariants r B = .ok r') :
    B.vars = [] ∧ r'.2 = r.2 ∨
      B.vars ≠ [] ∧ ∃ report, r'.2 = r.2 ++ [report] ∧ g.Within B report := by
  have hb := hg.isBlock hB
  unfold solveNextBy at hr
  split at hr
  · rename_i hempty
    exact .inl ⟨List.isEmpty_iff.mp hempty, by rw [← Except.ok.inj hr]⟩
  · rename_i hempty
    simp only [solveBlockBy, Fold.bind_eq_ok] at hr
    obtain ⟨t, ⟨s, hs, ht⟩, hr⟩ := hr
    obtain ⟨s', hs', hw, -⟩ := seed_spec hg hb h.sound
    obtain rfl : s = s' := Except.ok.inj (hs.symm.trans hs')
    obtain ⟨hevals, hupdates⟩ := counters_of_seed hs
    have hlen := hw.length_queue_le
    have hevals : s.evaluations = 0 := hevals
    have hupdates : s.updates = 0 := hupdates
    have hstart : g.Counts B s := by
      refine ⟨by omega, ?_, by omega⟩
      rw [hevals, hupdates]
      omega
    have hcounts := hstart.sweepBy hg hb hpick hw ht
    have hlast := hcounts.evaluations_le
    refine .inr ⟨fun hnil => hempty (by rw [hnil]; rfl), _, by rw [← Except.ok.inj hr], ?_⟩
    exact {
      updates_le := hcounts.updates_le
      evaluations_le := by dsimp only; omega
      updates_le_places := hcounts.updates_le_progress.trans (innerProgress_le ..) }

/-! ### All blocks -/

/-- The subformulas in block `b` and in later ones, counted. -/
def countFrom (idx : Index) (b : Nat) : Nat :=
  idx.subs.toList.countP (b ≤ ·.block)

theorem countFrom_eq {idx : Index} (h : idx.WellFormed) (hB : idx.blocks[b]? = some B) :
    countFrom idx b = countFrom idx (b + 1) + B.vars.length := by
  have hsplit (l : List Subformula) : l.countP (b ≤ ·.block) =
      l.countP (b + 1 ≤ ·.block) + (l.filter (·.block = b)).length := by
    induction l with
    | nil => rfl
    | cons s l ih =>
      rw [List.countP_cons, List.countP_cons, List.filter_cons]
      rcases Nat.lt_trichotomy s.block b with hlt | heq | hgt
      · simp [ih, show ¬ b ≤ s.block by omega, show ¬ b + 1 ≤ s.block by omega,
          show s.block ≠ b by omega]
      · simp [ih, show b ≤ s.block by omega, show ¬ b + 1 ≤ s.block by omega, eq_true heq]
        omega
      · simp [ih, show b ≤ s.block by omega, show b + 1 ≤ s.block by omega,
          show s.block ≠ b by omega]
        omega
  rw [h.vars_eq b B hB, Index.members, List.length_map]
  exact hsplit _

/-- The reports of blocks, summed up. -/
def spent (reports : List BlockReport) : Stats where
  blocks := reports.length
  evaluations := reports.foldl (fun n r => n + r.evaluations) 0
  updates := reports.foldl (fun n r => n + r.updates) 0

theorem spent_append (reports : List BlockReport) (r : BlockReport) : spent (reports ++ [r]) =
    { blocks := (spent reports).blocks + 1
      evaluations := (spent reports).evaluations + r.evaluations
      updates := (spent reports).updates + r.updates } := by
  simp [spent]

/-- What the work on the blocks from `b` on has come to. -/
structure SpentFrom (g : DependencyGraph) (b : Nat) (s : Stats) : Prop where
  blocks_eq : s.blocks = ((g.index.blocks.toList.drop b).filter (·.vars ≠ [])).length
  updates_le : s.updates ≤ s.evaluations
  evaluations_le : s.evaluations ≤ s.blocks * g.nodes.size + s.updates * g.fan
  updates_le_places :
    s.updates ≤ g.innerNodes.length * countFrom g.index b * 2 ^ g.space.dim

theorem SpentFrom.skip {s : Stats} (hg : g.Coherent) (hB : g.index.blocks[b]? = some B)
    (hempty : B.vars = []) (h : g.SpentFrom (b + 1) s) : g.SpentFrom b s := by
  have hcount := countFrom_eq hg.index hB
  rw [hempty, List.length_nil, Nat.add_zero] at hcount
  exact {
    blocks_eq := by simpa [drop_blocks hB, hempty] using h.blocks_eq
    updates_le := h.updates_le
    evaluations_le := h.evaluations_le
    updates_le_places := hcount ▸ h.updates_le_places }

theorem SpentFrom.report {reports : List BlockReport} {r : BlockReport} (hg : g.Coherent)
    (hB : g.index.blocks[b]? = some B) (hvars : B.vars ≠ [])
    (h : g.SpentFrom (b + 1) (spent reports)) (hr : g.Within B r) :
    g.SpentFrom b (spent (reports ++ [r])) := by
  rw [spent_append]
  have hplaces : g.innerNodes.length * countFrom g.index b * 2 ^ g.space.dim =
      g.innerNodes.length * countFrom g.index (b + 1) * 2 ^ g.space.dim +
        g.innerNodes.length * B.vars.length * 2 ^ g.space.dim := by
    rw [countFrom_eq hg.index hB, Nat.mul_add, Nat.add_mul]
  have hevals : ((spent reports).blocks + 1) * g.nodes.size +
      ((spent reports).updates + r.updates) * g.fan =
      (spent reports).blocks * g.nodes.size + (spent reports).updates * g.fan +
        (g.nodes.size + r.updates * g.fan) := by
    rw [Nat.succ_mul, Nat.add_mul]
    omega
  have h₁ := h.updates_le
  have h₂ := h.evaluations_le
  have h₃ := h.updates_le_places
  have hr₁ := hr.updates_le
  have hr₂ := hr.evaluations_le
  have hr₃ := hr.updates_le_places
  exact {
    blocks_eq := by simpa [drop_blocks hB, hvars] using h.blocks_eq
    updates_le := by dsimp only; omega
    evaluations_le := by dsimp only; omega
    updates_le_places := by dsimp only; omega }

theorem spentFrom_start (g : DependencyGraph) : g.SpentFrom g.index.blocks.size (spent []) where
  blocks_eq := by rw [List.drop_of_length_le (by simp)]; rfl
  updates_le := Nat.zero_le _
  evaluations_le := Nat.zero_le _
  updates_le_places := Nat.zero_le _

/-- The work of all blocks, whatever the schedule. -/
theorem spent_of_solveBy (hg : g.Coherent) (hpick : pick.Picks) {a : Assignment}
    {reports : List BlockReport} (h : g.solveBy pick invariants = .ok (a, reports)) :
    g.SpentFrom 0 (spent reports) := by
  have hinv := Fold.foldlM_inv_of_ok (l := g.index.blocks.toList.reverse)
    (P := fun m r => g.SolvedFrom (g.index.blocks.size - m) r.1 ∧
      g.SpentFrom (g.index.blocks.size - m) (spent r.2))
    (b := (g.nodes.map g.startValue, [])) ⟨solvedFrom_start hg, spentFrom_start g⟩
    (fun m B r r' hB ⟨hsolved, hspent⟩ hr => by
      obtain ⟨hm, hblock⟩ := Index.blocks_reverse hB
      have hnum : g.index.blocks.size - m = g.index.blocks.size - (m + 1) + 1 := by omega
      rw [hnum] at hsolved hspent
      obtain ⟨r₁, hr₁, hnext⟩ := hsolved.next hg hpick hblock
      obtain rfl : r' = r₁ := Except.ok.inj (hr.symm.trans (hr₁ invariants))
      refine ⟨hnext, ?_⟩
      rcases hsolved.reports_next hg hpick hblock hr with ⟨hempty, heq⟩ | ⟨hvars, rep, heq, hrep⟩
      · rw [heq]
        exact hspent.skip hg hblock hempty
      · rw [heq]
        exact hspent.report hg hblock hvars hrep) h
  simpa using hinv.2

end DependencyGraph

/-- The statistics of a solution: the blocks that were solved are those with subformulas, every
update belongs to an evaluation, evaluations are paid for by the nodes of each block and by the
readers of what moved, and updates by the places at which values can move. -/
theorem Result.stats_bounds {f : Formula} {sys : ProcessSystem} {d : Int}
    {order : Option (List Int)} {idx : Index} {pg : Graph} {sp : Space} {g : DependencyGraph}
    {invariants : Bool} {r : Result} (hidx : Index.ofFormula f = .ok idx)
    (hpg : Graph.expand sys = .ok pg) (hsp : Space.make d order = .ok sp)
    (hg : DependencyGraph.build sp pg idx = .ok g) (hr : Result.ofGraph g invariants = .ok r) :
    r.stats.updates ≤ r.stats.evaluations ∧
      r.stats.evaluations ≤ r.stats.blocks * g.nodes.size + r.stats.updates * g.fan ∧
      r.stats.updates ≤ g.innerNodes.length * idx.size * 2 ^ idx.size ∧
      r.stats.blocks = (idx.blocks.toList.filter (·.vars ≠ [])).length := by
  have hbuilt := DependencyGraph.built_of_build hidx hpg hsp hg
  have hcoh := hbuilt.coherent
  simp only [Result.ofGraph, Fold.bind_eq_ok] at hr
  obtain ⟨⟨a, reports⟩, hsolve, l, -, hr⟩ := hr
  obtain rfl := Except.ok.inj hr
  rw [← DependencyGraph.solveBy_first] at hsolve
  have hspent := DependencyGraph.spent_of_solveBy hcoh Schedule.first_picks hsolve
  have hcount : DependencyGraph.countFrom g.index 0 ≤ idx.size := by
    rw [hbuilt.index_eq]
    exact List.countP_le_length.trans (by simp [Index.size])
  have hdim : g.space.dim = idx.size := hbuilt.index_eq ▸ hcoh.dim_eq
  have hplaces := hspent.updates_le_places
  rw [hdim] at hplaces
  refine ⟨hspent.updates_le, hspent.evaluations_le, hplaces.trans ?_, ?_⟩
  · exact Nat.mul_le_mul_right _ (Nat.mul_le_mul_left _ hcount)
  · rw [← hbuilt.index_eq]
    exact hspent.blocks_eq

/-- A block of a greatest fixpoint inside a formula that has none, over a process that repeats an
action until another one ends it. -/
theorem Result.stats_bounds_loop :
    ∃ idx pg sp g r,
      Index.ofFormula (.or (.atom "p") (.nu "X" (.and (.box "a" (.var "X")) (.not (.atom "q"))))) =
        .ok idx ∧
      Graph.expand (.ofDefinitions "P" [
        { name := "P", rules := [[.act "a" .must, .run "P"], [.act "b" .may]] }]) = .ok pg ∧
      Space.make idx.size (some (idx.order.map Int.ofNat)) = .ok sp ∧
      DependencyGraph.build sp pg idx = .ok g ∧ Result.ofGraph g true = .ok r ∧
      r.stats.blocks = 2 ∧ r.stats.updates ≤ r.stats.evaluations ∧
      r.stats.evaluations ≤ 2 * g.nodes.size + r.stats.updates * g.fan ∧
      r.stats.updates ≤ g.innerNodes.length * 8 * 2 ^ 8 := by
  obtain ⟨idx, hidx⟩ : ∃ idx, Index.ofFormula (.or (.atom "p") (.nu "X"
      (.and (.box "a" (.var "X")) (.not (.atom "q"))))) = .ok idx := ⟨_, rfl⟩
  obtain ⟨hsize, htwo⟩ : idx.size = 8 ∧
      (idx.blocks.toList.filter (·.vars ≠ [])).length = 2 := by
    obtain rfl := Except.ok.inj hidx
    exact ⟨by decide, by decide⟩
  have hmax : idx.size ≤ Space.maxDim := by
    rw [hsize]
    decide
  have hvalid : (ProcessSystem.ofDefinitions "P" [
      { name := "P", rules := [[.act "a" .must, .run "P"], [.act "b" .may]] }]).validate =
      .ok () := rfl
  obtain ⟨sp, g, hsp, hpg, hg, hbuilt⟩ := DependencyGraph.exists_build hidx hmax hvalid
  obtain ⟨r, hr, -, -⟩ := ofGraph_spec hbuilt
  obtain ⟨hupdates, hevals, hplaces, hblocks⟩ := Result.stats_bounds hidx hpg hsp hg (hr true)
  rw [htwo] at hblocks
  rw [hblocks] at hevals
  rw [hsize] at hplaces
  exact ⟨idx, _, sp, g, r, hidx, hpg, hsp, hg, hr true, hblocks, hupdates, hevals, hplaces⟩

end MuProc
