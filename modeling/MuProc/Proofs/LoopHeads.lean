import MuProc.Proofs.Effort

/-!
# What holds at the head of the loop

The queue of a block has a mark for each node that waits in it, so that a node is found there
without a search. This module states the loop over a queue with marks and proves that it makes
the same moves as the loop that searches the queue. At the head of every round the marks are
exact, the nodes that do not wait solve their equations, every value lies between its seed and
both its recomputed value and each solution of the block, and nothing else has changed since the
block was begun.
-/

namespace MuProc

/-! ### Queues with marks -/

/-- Nodes that wait, and a mark for each of them. -/
structure Worklist where
  queue : List Nat := []
  marks : Array Bool

namespace Worklist

open DependencyGraph (mem_appendNew nodup_appendNew)

/-- Adds a node at the end, unless it is marked. -/
def push (w : Worklist) (v : Nat) : Worklist :=
  if w.marks[v]? = some true then w
  else { queue := w.queue ++ [v], marks := w.marks.setIfInBounds v true }

/-- Takes the first node and its mark away. -/
def pop? (w : Worklist) : Option (Nat × Worklist) :=
  match w.queue with
  | [] => none
  | v :: queue => some (v, { queue, marks := w.marks.setIfInBounds v false })

/-- Each node waits once at most, and those that wait are the marked ones. -/
structure Exact (size : Nat) (w : Worklist) : Prop where
  size_eq : w.marks.size = size
  nodup : w.queue.Nodup
  marked_iff : ∀ v, w.marks[v]? = some true ↔ v ∈ w.queue

variable {size v : Nat} {w w' : Worklist}

theorem exact_empty (size : Nat) : Exact size { marks := Array.replicate size false } := by
  refine ⟨Array.size_replicate, List.nodup_nil, fun v => ?_⟩
  simp [Array.getElem?_replicate]

theorem Exact.queue_push (h : w.Exact size) (v : Nat) :
    (w.push v).queue = Graph.appendNew w.queue v := by
  unfold push Graph.appendNew
  simp only [h.marked_iff]
  split <;> rfl

theorem Exact.push (h : w.Exact size) (hv : v < size) : (w.push v).Exact size := by
  have hqueue := h.queue_push v
  refine ⟨?_, hqueue ▸ nodup_appendNew h.nodup v, fun u => ?_⟩
  · unfold Worklist.push
    split
    · exact h.size_eq
    · exact Array.size_setIfInBounds.trans h.size_eq
  · rw [hqueue, mem_appendNew, ← h.marked_iff]
    unfold Worklist.push
    split
    · rename_i hmark
      exact ⟨.inl, fun hu => hu.elim id fun hu => hu ▸ hmark⟩
    · rw [Array.getElem?_setIfInBounds]
      by_cases huv : v = u
      · simp [← huv, h.size_eq, hv]
      · simp [huv, Ne.symm huv]

theorem Exact.pop (h : w.Exact size) (hpop : w.pop? = some (v, w')) :
    w.queue = v :: w'.queue ∧ w'.Exact size := by
  unfold pop? at hpop
  split at hpop
  · cases hpop
  · rename_i queue hq
    obtain ⟨rfl, rfl⟩ := Prod.mk.inj (Option.some.inj hpop)
    have hnodup := hq ▸ h.nodup
    rw [List.nodup_cons] at hnodup
    refine ⟨hq, Array.size_setIfInBounds.trans h.size_eq, hnodup.2, fun u => ?_⟩
    have hold := h.marked_iff u
    rw [hq, List.mem_cons] at hold
    rw [Array.getElem?_setIfInBounds]
    split
    · rename_i heq
      subst heq
      simp [hnodup.1]
    · rename_i hne
      rw [hold]
      exact ⟨fun hu => hu.resolve_left (Ne.symm hne), .inr⟩

end Worklist

namespace DependencyGraph

open Worklist

/-! ### Rounds -/

/-- The state of the loop at the head of a round. -/
structure Round where
  assign : Assignment
  work : Worklist
  evaluations : Nat := 0
  updates : Nat := 0

/-- The same state, without the marks. -/
def Round.toSweep (r : Round) : Sweep where
  assign := r.assign
  queue := r.work.queue
  evaluations := r.evaluations
  updates := r.updates

@[simp] theorem Round.queue_toSweep (r : Round) : r.toSweep.queue = r.work.queue :=
  rfl

/-- Adds the nodes of a list that take part in the iteration. -/
def pushInner (g : DependencyGraph) (w : Worklist) (vs : List Nat) : Except Fault Worklist :=
  vs.foldlM (fun w v => do if ← g.isInner v then return w.push v else return w) w

def seedRound (b : Block) (r : Round) (n : Node) : Except Fault Round := do
  if n.isExit then return r
  let t ← require (r.assign[n.id]?.bind (seedVector b))
  return { r with assign := r.assign.setIfInBounds n.id t, work := r.work.push n.id }

/-- Seeds the nodes of a block that is begun with the assignment `a₀`, and lets them wait. -/
def firstRound (g : DependencyGraph) (b : Block) (a₀ : Assignment) : Except Fault Round :=
  g.nodes.toList.foldlM (seedRound b)
    { assign := a₀, work := { marks := Array.replicate g.nodes.size false } }

/-- One round for the node `v`, which has been taken from the queue. -/
def round (g : DependencyGraph) (invariants : Bool) (b : Block) (v : Nat) (r : Round) :
    Except Fault Round := do
  let n ← require g.nodes[v]?
  let r := { r with evaluations := r.evaluations + 1 }
  let next ← g.recompute r.assign n b
  let old ← require r.assign[v]?
  if Transformer.same next old then return r
  g.checkMove invariants b n old next
  let work ← g.pushInner r.work (← require g.dependents[v]?)
  return { r with
    assign := r.assign.setIfInBounds v next
    work
    updates := r.updates + 1 }

/-- The states at the heads of all rounds of a block that is begun with the assignment `a₀`. -/
inductive LoopHead (g : DependencyGraph) (invariants : Bool) (b : Block) (a₀ : Assignment) :
    Round → Prop
  | first {r} (h : g.firstRound b a₀ = .ok r) : LoopHead g invariants b a₀ r
  | next {r r' v w} (hr : LoopHead g invariants b a₀ r) (hpop : r.work.pop? = some (v, w))
      (h : g.round invariants b v { r with work := w } = .ok r') :
    LoopHead g invariants b a₀ r'

variable {g : DependencyGraph} {invariants : Bool} {B : Block} {a₀ : Assignment} {b v : Nat}
  {w : Worklist} {r : Round}

/-! ### The marks make no difference -/

theorem pushInner_spec (hw : w.Exact g.nodes.size) (vs : List Nat) :
    Worklist.queue <$> g.pushInner w vs = g.enqueue w.queue vs ∧
      ∀ w', g.pushInner w vs = .ok w' → w'.Exact g.nodes.size := by
  unfold pushInner enqueue
  induction vs generalizing w with
  | nil => exact ⟨rfl, fun w' h => Except.ok.inj h ▸ hw⟩
  | cons v vs ih =>
    rw [List.foldlM_cons, List.foldlM_cons]
    cases hn : g.nodes[v]? with
    | none =>
      simp only [isInner, hn]
      exact ⟨rfl, fun w' h => by cases h⟩
    | some n =>
      have hpush := hw.push (Array.getElem?_eq_some_iff.mp hn).1
      cases hexit : n.isExit with
      | true => simpa [isInner, hn, require, hexit] using ih hw
      | false => simpa [isInner, hn, require, hexit, hw.queue_push] using ih hpush

theorem map_round (hw : r.work.Exact g.nodes.size) :
    Round.toSweep <$> g.round invariants B v r = g.evaluate invariants B v r.toSweep := by
  simp only [round, evaluate, map_bind]
  refine bind_congr fun n => bind_congr fun next => bind_congr fun old => ?_
  split
  · rfl
  · simp only [map_bind]
    refine bind_congr fun _ => bind_congr fun vs => ?_
    rw [show r.toSweep.queue = r.work.queue from rfl, ← (pushInner_spec hw vs).1]
    cases g.pushInner r.work vs <;> rfl

theorem exact_round (hw : r.work.Exact g.nodes.size) {r' : Round}
    (h : g.round invariants B v r = .ok r') : r'.work.Exact g.nodes.size := by
  simp only [round, Fold.bind_eq_ok] at h
  obtain ⟨n, -, next, -, old, -, h⟩ := h
  split at h
  · exact Except.ok.inj h ▸ hw
  · simp only [Fold.bind_eq_ok] at h
    obtain ⟨_, -, vs, -, work, hwork, h⟩ := h
    exact Except.ok.inj h ▸ (pushInner_spec hw vs).2 work hwork

theorem map_seedRound (hw : r.work.Exact g.nodes.size) (n : Node) :
    Round.toSweep <$> seedRound B r n = seedNode B r.toSweep n := by
  unfold seedRound seedNode
  split
  · rfl
  · simp only [map_bind]
    refine bind_congr fun t => ?_
    simp [Round.toSweep, hw.queue_push]

theorem exact_seedRound {n : Node} (hw : r.work.Exact g.nodes.size) (hn : n.id < g.nodes.size)
    {r' : Round} (h : seedRound B r n = .ok r') : r'.work.Exact g.nodes.size := by
  unfold seedRound at h
  split at h
  · exact Except.ok.inj h ▸ hw
  · obtain ⟨t, -, h⟩ := Fold.bind_eq_ok.mp h
    exact Except.ok.inj h ▸ hw.push hn

theorem seedRounds_spec {l : List Node} (hl : ∀ n ∈ l, n.id < g.nodes.size)
    (hw : r.work.Exact g.nodes.size) :
    Round.toSweep <$> l.foldlM (seedRound B) r = l.foldlM (seedNode B) r.toSweep ∧
      ∀ r', l.foldlM (seedRound B) r = .ok r' → r'.work.Exact g.nodes.size := by
  induction l generalizing r with
  | nil => exact ⟨rfl, fun r' h => Except.ok.inj h ▸ hw⟩
  | cons n l ih =>
    rw [List.foldlM_cons, List.foldlM_cons, ← map_seedRound hw]
    cases h : seedRound B r n with
    | error e => exact ⟨rfl, fun r' h => by cases h⟩
    | ok r₁ =>
      have hw₁ := exact_seedRound hw (hl n List.mem_cons_self) h
      exact ih (fun m hm => hl m (List.mem_cons_of_mem _ hm)) hw₁

/-- The first round begins as the work on a block does. -/
theorem firstRound_spec (hg : g.Coherent) (a₀ : Assignment) (B : Block) :
    Round.toSweep <$> g.firstRound B a₀ =
        g.nodes.toList.foldlM (seedNode B) { assign := a₀, queue := [] } ∧
      ∀ r, g.firstRound B a₀ = .ok r → r.work.Exact g.nodes.size := by
  refine seedRounds_spec (fun n hn => ?_) (exact_empty g.nodes.size)
  obtain ⟨v, hv⟩ := List.getElem?_of_mem hn
  rw [Array.getElem?_toList] at hv
  exact hg.id_eq v n hv ▸ (Array.getElem?_eq_some_iff.mp hv).1

/-! ### What every round keeps -/

/-- Without the marks, the state that comes next is the one after an evaluation. -/
theorem evaluate_of_round (hw : r.work.Exact g.nodes.size) (hpop : r.work.pop? = some (v, w))
    {r' : Round} (h : g.round invariants B v { r with work := w } = .ok r') :
    v ∈ r.toSweep.queue ∧ r'.work.Exact g.nodes.size ∧
      g.evaluate invariants B v { r.toSweep with queue := r.toSweep.queue.erase v } =
        .ok r'.toSweep := by
  obtain ⟨hqueue, hw'⟩ := hw.pop hpop
  have hmap : Round.toSweep <$> g.round invariants B v { r with work := w } =
      g.evaluate invariants B v { r.toSweep with queue := w.queue } := map_round hw'
  have hv : v ∈ r.work.queue := hqueue ▸ List.mem_cons_self
  have hrest : r.work.queue.erase v = w.queue := by rw [hqueue, List.erase_cons_head]
  refine ⟨hv, exact_round hw' h, ?_⟩
  rw [Round.queue_toSweep, hrest, ← hmap, h]
  rfl

/-- At the head of every round the marks are exact and the work is as it should be. -/
theorem LoopHead.working (hg : g.Coherent) (hb : g.IsBlock b B.vars) (ha : g.SoundAssignment a₀)
    (h : g.LoopHead invariants B a₀ r) :
    r.work.Exact g.nodes.size ∧ g.Working B.kind b B.vars a₀ r.assign r.work.queue := by
  induction h with
  | @first r h =>
    obtain ⟨hmap, hexact⟩ := firstRound_spec hg a₀ B
    obtain ⟨s, hs, hwork, -⟩ := seed_spec hg hb ha
    rw [h] at hmap
    obtain rfl : r.toSweep = s := Except.ok.inj (hmap.trans hs)
    exact ⟨hexact r h, hwork⟩
  | @next r r' v w _ hpop h ih =>
    obtain ⟨hexact, hwork⟩ := ih
    obtain ⟨hv, hexact', hr'⟩ := evaluate_of_round hexact hpop h
    obtain ⟨t, ht, hwork', -⟩ := evaluate_spec hg hb (s := r.toSweep) hwork hv
    obtain rfl : r'.toSweep = t := Except.ok.inj (hr'.symm.trans (ht invariants))
    exact ⟨hexact', hwork'⟩

theorem map_eq_ok {α β : Type} {f : α → β} {x : Except Fault α} {y : β} (h : f <$> x = .ok y) :
    ∃ a, x = .ok a ∧ f a = y := by
  cases x with
  | error e => cases h
  | ok a => exact ⟨a, rfl, Except.ok.inj h⟩

/-- The loop goes on from every head to a last one, where no node waits. -/
theorem LoopHead.last (hg : g.Coherent) (hb : g.IsBlock b B.vars) (ha : g.SoundAssignment a₀)
    {fuel : Nat} {t : Sweep} (h : g.LoopHead invariants B a₀ r)
    (ht : g.sweep invariants B fuel r.toSweep = .ok t) :
    ∃ r', g.LoopHead invariants B a₀ r' ∧ r'.work.queue = [] ∧ r'.toSweep = t := by
  induction fuel generalizing r with
  | zero =>
    unfold DependencyGraph.sweep at ht
    cases hq : r.work.queue with
    | nil =>
      simp only [Round.queue_toSweep, hq] at ht
      exact ⟨r, h, hq, Except.ok.inj ht⟩
    | cons v queue =>
      simp only [Round.queue_toSweep, hq] at ht
      cases ht
  | succ fuel ih =>
    unfold DependencyGraph.sweep at ht
    cases hq : r.work.queue with
    | nil =>
      simp only [Round.queue_toSweep, hq] at ht
      exact ⟨r, h, hq, Except.ok.inj ht⟩
    | cons v queue =>
      simp only [Round.queue_toSweep, hq] at ht
      obtain ⟨s, hs, ht⟩ := Fold.bind_eq_ok.mp ht
      have hpop : r.work.pop? = some (v, ⟨queue, r.work.marks.setIfInBounds v false⟩) := by
        rw [pop?, hq]
      obtain ⟨-, hexact⟩ := (h.working hg hb ha).1.pop hpop
      have hmap : Round.toSweep <$> g.round invariants B v
          { r with work := ⟨queue, r.work.marks.setIfInBounds v false⟩ } = .ok s :=
        (map_round hexact).trans hs
      obtain ⟨r', hr', rfl⟩ := map_eq_ok hmap
      exact ih (h.next hpop hr') ht

theorem exists_lastHead (hg : g.Coherent) (hb : g.IsBlock b B.vars) (ha : g.SoundAssignment a₀)
    (invariants : Bool) :
    ∃ r, g.LoopHead invariants B a₀ r ∧ r.work.queue = [] ∧
      g.solveBlock invariants a₀ B = .ok r.toSweep := by
  obtain ⟨s, hs, hwork, hfuel⟩ := seed_spec hg hb ha
  obtain ⟨t, ht, -⟩ := sweepBy_spec hg hb Schedule.first_picks hwork hfuel
  have ht := (sweepBy_first g invariants B _ s).symm.trans (ht invariants)
  obtain ⟨r, hr, rfl⟩ := map_eq_ok ((firstRound_spec hg a₀ B).1.trans hs)
  obtain ⟨r', hr', hempty, rfl⟩ := LoopHead.last hg hb ha (.first hr) ht
  refine ⟨r', hr', hempty, ?_⟩
  rw [solveBlock, hs, Fold.ok_bind]
  exact ht

/-! ### What no round touches -/

/-- Two assignments have the same functions at all subformulas but the given ones. -/
def AgreeOutside (vars : List Nat) (a a' : Assignment) : Prop :=
  ∀ v i : Nat, i ∉ vars → a[v]?.bind (·[i]?) = a'[v]?.bind (·[i]?)

theorem agreeOutside_set {vars : List Nat} {a : Assignment} {s t : Transformer}
    (h : AgreeOutside vars a a₀) (hc : a[v]? = some s) (ht : ∀ i ∉ vars, t[i]? = s[i]?) :
    AgreeOutside vars (a.setIfInBounds v t) a₀ := by
  intro u i hi
  rw [← h u i hi, Array.getElem?_setIfInBounds]
  split
  · rename_i heq
    subst heq
    rw [if_pos (Array.getElem?_eq_some_iff.mp hc).1, hc]
    exact ht i hi
  · rfl

theorem getElem?_put {t t' : Transformer} {i j : Nat} {f : Func} (h : t.put? j f = some t')
    (hij : i ≠ j) : t'[i]? = t[i]? := by
  unfold Transformer.put? at h
  split at h
  · rw [← Option.some.inj h, Array.getElem?_setIfInBounds, if_neg (Ne.symm hij)]
  · cases h

theorem getElem?_seedVector {t t' : Transformer} (h : seedVector B t = some t') {i : Nat}
    (hi : i ∉ B.vars) : t'[i]? = t[i]? := by
  refine Fold.foldlM_inv_of_some (P := fun _ t' => t'[i]? = t[i]?) rfl
    (fun m j c c' hj hc h => ?_) h
  have hne : i ≠ j := fun hij => hi (hij ▸ List.mem_of_getElem? hj)
  rw [getElem?_put h hne, hc]

theorem getElem?_pass {a : Assignment} {n : Node} {vars : List Nat} {t d : Transformer}
    (h : g.pass a n vars t = .ok d) {i : Nat} (hi : i ∉ vars) : d[i]? = t[i]? := by
  refine Fold.foldlM_inv_of_ok (P := fun _ d => d[i]? = t[i]?) rfl (fun m j d d' hj hd h => ?_) h
  have hne : i ≠ j := fun hij => hi (hij ▸ List.mem_of_getElem? hj)
  obtain ⟨f, -, h⟩ := Fold.bind_eq_ok.mp h
  rw [getElem?_put (require_eq_ok.mp h) hne, hd]

theorem getElem?_passes {a : Assignment} {n : Node} {vars : List Nat} {fuel : Nat}
    {t d : Transformer} (h : g.passes a n vars fuel t = .ok d) {i : Nat} (hi : i ∉ vars) :
    d[i]? = t[i]? := by
  induction fuel generalizing t with
  | zero => cases h
  | succ fuel ih =>
    obtain ⟨next, hnext, h⟩ := Fold.bind_eq_ok.mp h
    split at h
    · rw [Except.ok.inj h]
    · rw [ih h, getElem?_pass hnext hi]

theorem LoopHead.agreeOutside (hg : g.Coherent) (h : g.LoopHead invariants B a₀ r) :
    AgreeOutside B.vars r.assign a₀ := by
  induction h with
  | @first r h =>
    refine Fold.foldlM_inv_of_ok (P := fun _ (r : Round) => AgreeOutside B.vars r.assign a₀)
      (fun _ _ _ => rfl) (fun m n r r' _ hr h => ?_) h
    unfold seedRound at h
    split at h
    · exact Except.ok.inj h ▸ hr
    · obtain ⟨t, ht, h⟩ := Fold.bind_eq_ok.mp h
      obtain ⟨c, hc, ht⟩ := Option.bind_eq_some_iff.mp (require_eq_ok.mp ht)
      rw [← Except.ok.inj h]
      exact agreeOutside_set hr hc fun i hi => getElem?_seedVector ht hi
  | @next r r' v w _ hpop h ih =>
    simp only [round, Fold.bind_eq_ok, require_eq_ok] at h
    obtain ⟨n, hn, next, hnext, old, hold, h⟩ := h
    split at h
    · exact Except.ok.inj h ▸ ih
    · simp only [Fold.bind_eq_ok] at h
      obtain ⟨_, -, vs, -, work, -, h⟩ := h
      rw [← Except.ok.inj h]
      refine agreeOutside_set ih hold fun i hi => ?_
      simp only [recompute, hg.id_eq v n hn, Fold.bind_eq_ok, require_eq_ok] at hnext
      obtain ⟨c, hc, hnext⟩ := hnext
      obtain rfl : old = c := Option.some.inj (hold.symm.trans hc)
      exact getElem?_passes hnext hi

/-! ### The invariant -/

/-- What holds at the head of a round of a block that was begun with the assignment `a₀`. -/
structure HeadInvariant (g : DependencyGraph) (B : Block) (a₀ : Assignment) (r : Round) : Prop where
  size_eq : r.assign.size = g.nodes.size ∧ r.work.marks.size = g.nodes.size
  nodup : r.work.queue.Nodup
  marked_iff : ∀ v, r.work.marks[v]? = some true ↔ v ∈ r.work.queue
  inner : ∀ v ∈ r.work.queue, ∃ n, g.nodes[v]? = some n ∧ n.isExit = false
  stable : ∀ v n, g.Inner v n → v ∉ r.work.queue →
    ∃ t, r.assign[v]? = some t ∧ g.recompute r.assign n B = .ok t
  moves : ∀ v n, g.Inner v n → ∃ t d, r.assign[v]? = some t ∧ g.recompute r.assign n B = .ok d ∧
    if B.kind = .greatest then d.leq? t = some true else t.leq? d = some true
  bounded : ∀ other, g.SolvesBlock B a₀ other → ∀ (v : Nat) t u, r.assign[v]? = some t →
    other[v]? = some u → if B.kind = .greatest then u.leq? t = some true else t.leq? u = some true
  outside : AgreeOutside B.vars r.assign a₀
  exits : ∀ (v : Nat) n, g.nodes[v]? = some n → n.isExit = true → r.assign[v]? = a₀[v]?

theorem LoopHead.invariant (hg : g.Coherent) (hB : g.index.blocks[b]? = some B)
    (ha : g.SoundAssignment a₀) (h : g.LoopHead invariants B a₀ r) : g.HeadInvariant B a₀ r := by
  have hb := hg.isBlock hB
  obtain ⟨hexact, hwork⟩ := h.working hg hb ha
  refine ⟨⟨hwork.sound.valid.size_eq, hexact.size_eq⟩, hwork.nodup, hexact.marked_iff,
    hwork.queued, fun v n hn hv => ?_, fun v n hn => ?_, fun other ho v t u ht hu => ?_,
    h.agreeOutside hg, hwork.exits⟩
  · obtain ⟨t, ht, -, hm⟩ := hwork.sound.getElem? hn.lt
    refine ⟨t, ht, recompute_of_solved hg hwork.sound hn.1 hb.inBlock ht fun x i hi => ?_⟩
    rw [← hm]
    exact hwork.solved v n hn hv i hi x
  · obtain ⟨t, d, ht, hts, hd, hrec⟩ := hwork.recompute hg hb hn
    refine ⟨t, d, ht, hd, leq?_of_below hg hts.valid hrec.sound.valid fun i x => ?_⟩
    exact (hrec.approaches x).above i
  · have hv : v < g.nodes.size :=
      hwork.sound.valid.size_eq ▸ (Array.getElem?_eq_some_iff.mp ht).1
    refine leq?_of_below hg (hwork.sound.valid.valid v t ht) (ho.valid.valid v u hu) fun i x => ?_
    rw [← meaning_of_assigned ht, ← meaning_of_assigned hu]
    by_cases hi : i ∈ B.vars
    · exact hwork.least _ (ho.preSolution hg hB) v hv i (hb.from_of_mem hi) x
    · rw [hwork.frame v i hi, ho.others v i hi]
      exact .rfl

/-- The solver comes to every block, and at the head of every round of the block's loop the
invariant holds. The loop ends at a head where no node waits, with what the solver computes. -/
theorem solveBlock_invariant {f : Formula} {sys : ProcessSystem} {d : Int}
    {order : Option (List Int)} {idx : Index} {pg : Graph} {sp : Space}
    (hidx : Index.ofFormula f = .ok idx) (hpg : Graph.expand sys = .ok pg)
    (hsp : Space.make d order = .ok sp) (hg : build sp pg idx = .ok g)
    (hB : idx.blocks[b]? = some B) (invariants : Bool) :
    ∃ a₀ reports, g.solveFrom invariants (b + 1) = .ok (a₀, reports) ∧
      g.solveFrom invariants b = g.solveNext invariants (a₀, reports) B ∧
      (∀ r, g.LoopHead invariants B a₀ r → g.HeadInvariant B a₀ r) ∧
      ∃ r, g.LoopHead invariants B a₀ r ∧ r.work.queue = [] ∧
        g.solveBlock invariants a₀ B = .ok r.toSweep := by
  have hbuilt := built_of_build hidx hpg hsp hg
  have hcoh := hbuilt.coherent
  rw [← hbuilt.index_eq] at hB
  have hlt : b < g.index.blocks.size := (Array.getElem?_eq_some_iff.mp hB).1
  obtain ⟨⟨a₀, reports⟩, hr, hsolved⟩ := solveFrom_spec hcoh (b := b + 1) hlt
  have hnext : g.solveFrom invariants b = g.solveNext invariants (a₀, reports) B := by
    rw [solveFrom_eq hB, hr invariants, Fold.ok_bind]
  exact ⟨a₀, reports, hr invariants, hnext, fun r h => h.invariant hcoh hB hsolved.sound,
    exists_lastHead hcoh (hcoh.isBlock hB) hsolved.sound invariants⟩

/-- The block of a greatest fixpoint inside a formula that has none, over a process that calls
itself. -/
theorem solveBlock_invariant_loop :
    ∃ idx pg sp g B a₀ r,
      Index.ofFormula (.or (.atom "p") (.nu "X" (.and (.box "a" (.var "X")) (.not (.atom "q"))))) =
        .ok idx ∧
      Graph.expand (.ofDefinitions "P" [
        { name := "P", rules := [[.act "a" .must, .run "P"], [.act "b" .may]] }]) = .ok pg ∧
      Space.make idx.size (some (idx.order.map Int.ofNat)) = .ok sp ∧
      build sp pg idx = .ok g ∧ idx.blocks[1]? = some B ∧ B.kind = .greatest ∧
      g.LoopHead true B a₀ r ∧ g.HeadInvariant B a₀ r ∧
      g.solveBlock true a₀ B = .ok r.toSweep := by
  obtain ⟨idx, hidx⟩ : ∃ idx, Index.ofFormula (.or (.atom "p") (.nu "X"
      (.and (.box "a" (.var "X")) (.not (.atom "q"))))) = .ok idx := ⟨_, rfl⟩
  have hmax : idx.size ≤ Space.maxDim := by
    obtain rfl := Except.ok.inj hidx
    decide
  obtain ⟨B, hB, hkind⟩ : ∃ B, idx.blocks[1]? = some B ∧ B.kind = .greatest := by
    obtain rfl := Except.ok.inj hidx
    exact ⟨_, rfl, rfl⟩
  have hvalid : (ProcessSystem.ofDefinitions "P" [
      { name := "P", rules := [[.act "a" .must, .run "P"], [.act "b" .may]] }]).validate =
      .ok () := rfl
  obtain ⟨sp, g, hsp, hpg, hg, -⟩ := exists_build hidx hmax hvalid
  obtain ⟨a₀, -, -, -, hinv, r, hr, -, hblock⟩ := solveBlock_invariant hidx hpg hsp hg hB true
  exact ⟨idx, _, sp, g, B, a₀, r, hidx, hpg, hsp, hg, hB, hkind, hr, hinv r hr, hblock⟩

end DependencyGraph

end MuProc
