import MuProc.Proofs.Layouts
import Mathlib.Data.List.Nodup

/-!
# The states of an expansion, counted

The states of every process form a lane: an entry, an exit, and a chain of positions for each
rule that is laid out. Together the lanes hold every state of the graph exactly once, at every
moment of the expansion. While a rule is laid out its positions are loose: they are counted, but
belong to no lane yet.
-/

namespace MuProc.Graph

/-- From edge `e` on, the steps lead through the positions `us` to state `w`. A position is left
by its only edge. -/
inductive Follows (g : Graph) (w : Nat) : (e : Edge) → (us : List Nat) → (steps : List Step) → Prop
  | last {e} (htarget : e.target = w) : Follows g w e [] [e.step]
  | next {e e' us steps}
      (hstate : ∃ s, g.states[e.target]? = some s ∧ s.place = .position)
      (hout : g.out[e.target]? = some [e']) (hsource : e'.source = e.target)
      (h : Follows g w e' us steps) : Follows g w e (e.target :: us) (e.step :: steps)

/-- A rule in a graph: the edge that begins it, and the positions between its steps. -/
structure Chain where
  rule : Rule
  first : Edge
  positions : List Nat

/-- Steps of rule `i` of process `p`, the first of them step `j`, lie between two states. -/
structure Chain.LiesIn (g : Graph) (p : Name) (i j source target : Nat) (c : Chain) : Prop where
  source : c.first.source = source
  follows : g.Follows target c.first c.positions c.rule
  states : ∀ (k u : Nat), c.positions[k]? = some u → g.states[u]? = some
    ({ id := u, process := p, place := .position, rule := i, pos := ((j + k : Nat) : Int) } : State)

/-- The states of a process. -/
structure Lane where
  process : Name
  entry : Nat
  exit : Nat
  chains : List Chain := []

def Lane.numbers (l : Lane) : List Nat :=
  l.entry :: l.exit :: l.chains.flatMap (·.positions)

/-- A lane lies in a graph, with a chain for each of the given rules. -/
structure Lane.LiesIn (sys : ProcessSystem) (g : Graph) (rules : List Rule) (l : Lane) : Prop where
  entry : g.states[l.entry]? = some
    ({ id := l.entry, process := l.process, place := .entry,
       props := ByteString.sorted (sys.props l.process) } : State)
  exit : g.states[l.exit]? = some
    ({ id := l.exit, process := l.process, place := .exit } : State)
  out_entry : g.out[l.entry]? = some (l.chains.map (·.first))
  out_exit : g.out[l.exit]? = some []
  rules_eq : l.chains.map (·.rule) = rules
  chains : ∀ (i : Nat) c, l.chains[i]? = some c → c.LiesIn g l.process i 0 l.entry l.exit

variable {sys : ProcessSystem} {g g' : Graph} {p q : Name} {i j v w source : Nat} {e : Edge}
  {us : List Nat} {steps : List Step} {es : List Edge} {C : Set Nat} {c : Chain} {l : Lane}
  {rules : List Rule}

theorem Follows.length_eq (h : g.Follows w e us steps) : steps.length = us.length + 1 := by
  induction h with
  | last => rfl
  | next _ _ _ _ ih => rw [List.length_cons, List.length_cons, ih]

/-! ### Frames -/

theorem Open.not_passed (h : g.Open p v es) {s : State} (hs : g.states[v]? = some s)
    (hplace : s.place = .position) : g.out[v]? ≠ some [e] := by
  obtain ⟨t, ht, hkind⟩ := h.state
  obtain rfl : s = t := Option.some.inj (hs.symm.trans ht)
  rcases hkind with ⟨hentry, -⟩ | ⟨-, -, rfl⟩
  · simp [hplace] at hentry
  · simp [h.out]

theorem Open.not_exit (h : g.Open p v es) {s : State} (hs : g.states[v]? = some s) :
    s.place ≠ .exit := by
  obtain ⟨t, ht, hkind⟩ := h.state
  obtain rfl : s = t := Option.some.inj (hs.symm.trans ht)
  rcases hkind with ⟨hplace, -⟩ | ⟨hplace, -⟩ <;> simp [hplace]

/-- A chain stays when edges are added to open states only. -/
theorem Follows.keep (hkeeps : Keeps C g g') (hC : ∀ u ∈ C, ∃ p es, g.Open p u es)
    (h : g.Follows w e us steps) : g'.Follows w e us steps := by
  induction h with
  | last htarget => exact .last htarget
  | @next e e' us steps hstate hout hsource _ ih =>
    obtain ⟨s, hs, hplace⟩ := hstate
    have hnot : e.target ∉ C := by
      intro hmem
      obtain ⟨q, es, hopen⟩ := hC _ hmem
      exact hopen.not_passed hs hplace hout
    exact .next ⟨s, hkeeps.states _ _ hs, hplace⟩ (hkeeps.out _ _ hnot hout) hsource ih

theorem Chain.LiesIn.keep (hkeeps : Keeps C g g') (hC : ∀ u ∈ C, ∃ p es, g.Open p u es)
    (h : c.LiesIn g p i j v w) : c.LiesIn g' p i j v w :=
  ⟨h.source, h.follows.keep hkeeps hC, fun k u hu => hkeeps.states _ _ (h.states k u hu)⟩

theorem Lane.LiesIn.open_entry (h : l.LiesIn sys g rules) :
    g.Open l.process l.entry (l.chains.map (·.first)) :=
  ⟨⟨_, h.entry, .inl ⟨rfl, rfl⟩⟩, h.out_entry⟩

theorem Lane.LiesIn.exit_notMem (hC : ∀ u ∈ C, ∃ p es, g.Open p u es) (h : l.LiesIn sys g rules) :
    l.exit ∉ C := by
  intro hmem
  obtain ⟨q, es, hopen⟩ := hC _ hmem
  exact hopen.not_exit h.exit rfl

theorem Lane.LiesIn.keep (hkeeps : Keeps C g g') (hC : ∀ u ∈ C, ∃ p es, g.Open p u es)
    (hentry : l.entry ∉ C) (h : l.LiesIn sys g rules) : l.LiesIn sys g' rules where
  entry := hkeeps.states _ _ h.entry
  exit := hkeeps.states _ _ h.exit
  out_entry := hkeeps.out _ _ hentry h.out_entry
  out_exit := hkeeps.out _ _ (h.exit_notMem hC) h.out_exit
  rules_eq := h.rules_eq
  chains i c hc := (h.chains i c hc).keep hkeeps hC

theorem Lane.LiesIn.entry_ne (h : l.LiesIn sys g rules) (hl : l.process ≠ p)
    (hopen : g.Open p v es) : l.entry ≠ v := by
  rintro rfl
  obtain ⟨s, hs, hkind⟩ := hopen.state
  obtain rfl := Option.some.inj (h.entry.symm.trans hs)
  rcases hkind with ⟨-, hp⟩ | ⟨hplace, -⟩
  · exact hl hp
  · cases hplace

/-- A further chain, begun by a further edge of the entry. -/
theorem Lane.LiesIn.addChain (h : l.LiesIn sys g rules) (hkeeps : Keeps {l.entry} g g')
    (hout : g'.out[l.entry]? = some (l.chains.map (·.first) ++ [c.first]))
    (hc : c.LiesIn g' l.process rules.length 0 l.entry l.exit) :
    Lane.LiesIn sys g' (rules ++ [c.rule]) { l with chains := l.chains ++ [c] } := by
  have hC : ∀ u ∈ ({l.entry} : Set Nat), ∃ p es, g.Open p u es := by
    rintro u rfl
    exact ⟨_, _, h.open_entry⟩
  have hexit := h.exit_notMem hC
  have hlength : rules.length = l.chains.length := by rw [← h.rules_eq, List.length_map]
  refine {
    entry := hkeeps.states _ _ h.entry
    exit := hkeeps.states _ _ h.exit
    out_entry := by simpa using hout
    out_exit := hkeeps.out _ _ hexit h.out_exit
    rules_eq := by simp [h.rules_eq]
    chains := fun i c' hc' => ?_ }
  simp only [List.getElem?_append, List.getElem?_singleton] at hc'
  split at hc'
  · exact (h.chains i c' hc').keep hkeeps hC
  · rename_i hi
    obtain ⟨hlast, rfl⟩ : i - l.chains.length = 0 ∧ c = c' := by simpa using hc'
    obtain rfl : i = rules.length := by omega
    exact hc

theorem out_addState (g : Graph) (s : State) (hout : g.out.size = g.size) :
    (g.addState s).out.size = (g.addState s).size ∧ (g.addState s).out[g.size]? = some [] := by
  refine ⟨by simp [addState, size, hout], ?_⟩
  rw [addState, Array.getElem?_push, if_pos hout.symm]

theorem lane_addProcess (sys : ProcessSystem) (hout : g.out.size = g.size) (p : Name) :
    Lane.LiesIn sys (addProcess sys g p) []
      { process := p, entry := g.size, exit := g.size + 1 } := by
  let entry : State :=
    { id := g.size, process := p, place := .entry, props := ByteString.sorted (sys.props p) }
  let exit : State := { id := g.size + 1, process := p, place := .exit }
  have hsize : (g.addState entry).size = g.size + 1 := size_addState g entry
  obtain ⟨hout', hentry⟩ := out_addState g entry hout
  obtain ⟨-, hexit⟩ := out_addState (g.addState entry) exit hout'
  have hlast := states_addState_self (g.addState entry) exit
  rw [hsize] at hexit hlast
  have hkeeps := keeps_addState (g.addState entry) exit
  exact {
    entry := hkeeps.states _ _ (states_addState_self g entry)
    exit := hlast
    out_entry := hkeeps.out _ _ (Set.notMem_empty _) hentry
    out_exit := hexit
    rules_eq := rfl
    chains := by simp }

/-! ### Every state in one lane -/

/-- The lanes hold all states but the loose ones. The processes outside of `D` have the rules
that are laid out once the processes in `done` are. -/
structure Accounts (sys : ProcessSystem) (done : List Name) (D : Set Name) (loose : List Nat)
    (lanes : List Lane) (g : Graph) : Prop where
  out_size : g.out.size = g.size
  entry_eq : g.entry = lanes.map fun l => (l.process, l.entry)
  exit_eq : g.exit = lanes.map fun l => (l.process, l.exit)
  nodup : (lanes.map (·.process)).Nodup
  done_subset : done ⊆ lanes.map (·.process)
  perm : (lanes.flatMap Lane.numbers ++ loose).Perm (List.range g.size)
  liesIn : ∀ l ∈ lanes, l.process ∉ D → l.LiesIn sys g (laidRules sys done l.process)

variable {x y : Expansion} {done : List Name} {D : Set Name} {loose : List Nat} {lanes : List Lane}

theorem lookup_map_eq_some_iff {f : Lane → Nat} (hnodup : (lanes.map (·.process)).Nodup) :
    (lanes.map fun l => (l.process, f l)).lookup p = some v ↔
      ∃ l ∈ lanes, l.process = p ∧ f l = v := by
  constructor
  · intro h
    obtain ⟨l, hl, heq⟩ := List.mem_map.mp (lookup_mem h)
    obtain ⟨hp, hv⟩ := Prod.mk.inj heq
    exact ⟨l, hl, hp, hv⟩
  · rintro ⟨l, hl, rfl, rfl⟩
    induction lanes with
    | nil => cases hl
    | cons m lanes ih =>
      rw [List.map_cons, List.nodup_cons] at hnodup
      rw [List.map_cons, List.lookup_cons]
      rcases List.mem_cons.mp hl with rfl | hl
      · simp
      · have hne : l.process ≠ m.process := by
          intro heq
          exact hnodup.1 (heq ▸ List.mem_map_of_mem hl)
        rw [beq_false_of_ne hne]
        exact ih hnodup.2 hl

namespace Accounts

theorem entry?_eq_some_iff (h : Accounts sys done D loose lanes g) :
    g.entry? p = some v ↔ ∃ l ∈ lanes, l.process = p ∧ l.entry = v := by
  rw [ entry?, h.entry_eq]
  exact lookup_map_eq_some_iff h.nodup

theorem exit?_eq_some_iff (h : Accounts sys done D loose lanes g) :
    g.exit? p = some w ↔ ∃ l ∈ lanes, l.process = p ∧ l.exit = w := by
  rw [exit?, h.exit_eq]
  exact lookup_map_eq_some_iff h.nodup

theorem entry?_isSome (h : Accounts sys done D loose lanes g) :
    (g.entry? p).isSome = true ↔ p ∈ lanes.map (·.process) := by
  simp [Option.isSome_iff_exists, h.entry?_eq_some_iff]

theorem addProcess (h : Accounts sys done D loose lanes g) (hnew : g.entry? p = none) :
    Accounts sys done D loose (lanes ++ [{ process := p, entry := g.size, exit := g.size + 1 }])
      (addProcess sys g p) := by
  have hfresh : p ∉ lanes.map (·.process) := by
    rw [← h.entry?_isSome, hnew]
    simp
  have hdone : p ∉ done := fun hmem => hfresh (h.done_subset hmem)
  have hsize : (Graph.addProcess sys g p).size = g.size + 2 := by
    simp [Graph.addProcess, addState, size]
  refine {
    out_size := by simp [Graph.addProcess, addState, size, h.out_size]
    entry_eq := by simp [Graph.addProcess, addState, h.entry_eq]
    exit_eq := by simp [Graph.addProcess, addState, h.exit_eq]
    nodup := ?_
    done_subset := fun q hq => by simp [List.mem_map.mp (h.done_subset hq)]
    perm := ?_
    liesIn := fun l hl hD => ?_ }
  · rw [List.map_append, List.nodup_append]
    exact ⟨h.nodup, by simp, by simpa using hfresh⟩
  · rw [hsize, List.range_succ, List.range_succ, List.append_assoc, List.flatMap_append,
      List.append_assoc]
    have hswap : ([g.size, g.size + 1] ++ loose).Perm (loose ++ [g.size, g.size + 1]) :=
      List.perm_append_comm
    have hlast := hswap.append_left (lanes.flatMap Lane.numbers)
    rw [← List.append_assoc _ loose] at hlast
    exact hlast.trans (h.perm.append_right _)
  · rcases List.mem_append.mp hl with hl | hl
    · exact (h.liesIn l hl hD).keep (keeps_addProcess sys g p) (by simp) (by simp)
    · obtain rfl := List.mem_singleton.mp hl
      rw [laidRules, if_neg hdone]
      exact lane_addProcess sys h.out_size p

theorem discover (h : Accounts sys done D loose lanes x.graph) (s : Step) :
    ∃ new, Accounts sys done D loose (lanes ++ new) (x.discover sys s).graph := by
  unfold Expansion.discover
  split
  · rename_i hnew
    exact ⟨_, h.addProcess (Option.isNone_iff_eq_none.mp hnew.2)⟩
  · exact ⟨[], by rwa [List.append_nil]⟩

/-- Adding edges to a state that is open for process `p`, and loose states. -/
theorem setGraph (h : Accounts sys done {p} loose lanes g) (hout : g'.out.size = g'.size)
    (hentry : g'.entry = g.entry) (hexit : g'.exit = g.exit) (hopen : g.Open p source es)
    (hkeeps : Keeps {source} g g') (hrange : List.range g'.size = List.range g.size ++ us) :
    Accounts sys done {p} (loose ++ us) lanes g' where
  out_size := hout
  entry_eq := hentry.trans h.entry_eq
  exit_eq := hexit.trans h.exit_eq
  nodup := h.nodup
  done_subset := h.done_subset
  perm := by
    rw [hrange, ← List.append_assoc]
    exact h.perm.append_right us
  liesIn l hl hne := by
    have hlies := h.liesIn l hl hne
    have hC : ∀ u ∈ ({source} : Set Nat), ∃ p es, g.Open p u es := by
      rintro u rfl
      exact ⟨p, es, hopen⟩
    exact hlies.keep hkeeps hC (hlies.entry_ne hne hopen)

/-- Laying out a rule from an open state on: its positions are loose at first. -/
theorem addSteps (h : Accounts sys done {p} loose lanes x.graph) (hexit : x.graph.exit? p = some w)
    (rule pos : Nat) (hopen : x.graph.Open p source es) {s : Step} {rest : List Step}
    (hy : Expansion.addSteps sys p rule pos source (s :: rest) x = y) :
    ∃ (new : List Lane) (c : Chain),
      Accounts sys done {p} (loose ++ c.positions) (lanes ++ new) y.graph ∧
      Keeps {source} x.graph y.graph ∧ y.graph.out[source]? = some (es ++ [c.first]) ∧
      c.rule = s :: rest ∧ c.LiesIn y.graph p rule pos source w := by
  induction rest generalizing x s pos source es loose lanes with
  | nil =>
    obtain ⟨new, hd⟩ := h.discover s
    have hkeeps := Expansion.keeps_discover sys x s
    simp only [Expansion.addSteps] at hy
    generalize x.discover sys s = d at *
    simp only [hkeeps.exit p w hexit, Option.getD_some] at hy
    subst hy
    have hopen' := hopen.keep hkeeps (Set.notMem_empty _)
    have hedge := keeps_addEdge d.graph source w s
    have hout : (d.graph.addEdge source w s).out.size = (d.graph.addEdge source w s).size := by
      simpa [addEdge, size] using hd.out_size
    have hrange := (List.append_nil (List.range d.graph.size)).symm
    have hlaid := hd.setGraph hout rfl rfl hopen' hedge hrange
    exact ⟨new, ⟨[s], ⟨source, w, s⟩, []⟩, hlaid, hkeeps.after hedge, hopen'.out_addEdge w s, rfl,
      ⟨rfl, .last rfl, by simp⟩⟩
  | cons s' rest ih =>
    obtain ⟨new, hd⟩ := h.discover s
    have hkeeps := Expansion.keeps_discover sys x s
    simp only [Expansion.addSteps] at hy
    generalize x.discover sys s = d at *
    have hopen' := hopen.keep hkeeps (Set.notMem_empty _)
    -- the step leads to a new position, which is open for the rest of the rule
    let between : State := { id := d.graph.size, process := p, place := .position, rule, pos }
    let g' := (d.graph.addState between).addEdge source d.graph.size s
    have hstate := keeps_addState d.graph between
    have hedge : Keeps _ _ g' := keeps_addEdge (d.graph.addState between) source d.graph.size s
    have hout : g'.out.size = g'.size := by
      simpa [g', addEdge, size] using (out_addState d.graph between hd.out_size).1
    have hrange : List.range g'.size = List.range d.graph.size ++ [d.graph.size] := by
      rw [← List.range_succ]
      exact congrArg List.range (size_addState d.graph between)
    have hlaid := hd.setGraph hout rfl rfl hopen' (hstate.after hedge) hrange
    have hne : source ≠ d.graph.size := Nat.ne_of_lt hopen'.lt
    have hnext := (open_addState (p := p) (t := between) hd.out_size rfl rfl).keep hedge
      (Ne.symm hne)
    obtain ⟨new', c, hlaid', hframe, hfirst, hrule, hc⟩ :=
      ih (x := { d with graph := g' }) hlaid (hkeeps.exit p w hexit) (pos + 1) hnext hy
    have hwhole := (hkeeps.after (hstate.after hedge)).trans (C := {source}) hframe (by
      intro v hv hmem
      have hlt := hkeeps.lt (h.out_size ▸ hv)
      exact hmem.resolve_right (Nat.ne_of_lt hlt))
    have hbetween := hframe.states _ _ (states_addState_self d.graph between)
    have hsource := (hopen'.keep hstate (Set.notMem_empty _)).out_addEdge d.graph.size s
    refine ⟨new ++ new', ⟨s :: s' :: rest, ⟨source, d.graph.size, s⟩, d.graph.size :: c.positions⟩,
      ?_, hwhole, hframe.out source _ hne hsource, rfl, rfl, ?_, ?_⟩
    · simpa using hlaid'
    · rw [← hrule]
      exact .next ⟨between, hbetween, rfl⟩ hfirst hc.source hc.follows
    · intro k u hu
      cases k with
      | zero =>
        obtain rfl : d.graph.size = u := by simpa using hu
        exact hbetween
      | succ k =>
        have hu' := hc.states k u (by simpa using hu)
        rwa [Nat.add_right_comm] at hu'

/-- The loose positions become a chain of the lane that they were laid out for. -/
theorem adopt (h : Accounts sys done {l.process} c.positions lanes g) (hl : l ∈ lanes) :
    ∃ lanes', { l with chains := l.chains ++ [c] } ∈ lanes' ∧
      Accounts sys done {l.process} [] lanes' g := by
  obtain ⟨before, after, rfl⟩ := List.append_of_mem hl
  refine ⟨before ++ { l with chains := l.chains ++ [c] } :: after, by simp, {
    out_size := h.out_size
    entry_eq := by simpa using h.entry_eq
    exit_eq := by simpa using h.exit_eq
    nodup := by simpa using h.nodup
    done_subset := by simpa using h.done_subset
    perm := ?_
    liesIn := fun m hm hne => ?_ }⟩
  · refine .trans ?_ h.perm
    have hnumbers : Lane.numbers { l with chains := l.chains ++ [c] } =
        l.numbers ++ c.positions := by
      simp [Lane.numbers]
    simp only [List.flatMap_append, List.flatMap_cons, List.append_assoc, List.append_nil, hnumbers]
    exact (List.perm_append_comm.append_left _).append_left _
  · have hm' : m ≠ { l with chains := l.chains ++ [c] } := by
      rintro rfl
      exact hne rfl
    have hmem : m ∈ before ++ l :: after := by
      rcases List.mem_append.mp hm with hm | hm
      · exact List.mem_append_left _ hm
      · exact List.mem_append_right _ (List.mem_cons_of_mem _ (List.mem_of_ne_of_mem hm' hm))
    exact h.liesIn m hmem hne

theorem addRules {before : List Rule} (h : Accounts sys done {l.process} [] lanes x.graph)
    (hl : l ∈ lanes) (hlies : l.LiesIn sys x.graph before) (rules : List Rule)
    (hrules : ∀ r ∈ rules, r ≠ []) :
    ∃ lanes', ∃ l' ∈ lanes', l'.process = l.process ∧
      l'.LiesIn sys (Expansion.addRules sys l.process before.length rules x).graph
        (before ++ rules) ∧
      Accounts sys done {l.process} [] lanes'
        (Expansion.addRules sys l.process before.length rules x).graph := by
  induction rules generalizing x before l lanes with
  | nil => exact ⟨lanes, l, hl, rfl, by rwa [List.append_nil], h⟩
  | cons r rest ih =>
    obtain ⟨s, steps, rfl⟩ := List.exists_cons_of_ne_nil (hrules r (List.mem_cons_self ..))
    have hentry := h.entry?_eq_some_iff.mpr ⟨l, hl, rfl, rfl⟩
    have hexit := h.exit?_eq_some_iff.mpr ⟨l, hl, rfl, rfl⟩
    rw [Expansion.addRules, hentry, Option.getD_some]
    obtain ⟨new, c, hlaid, hkeeps, hout, hrule, hc⟩ :=
      h.addSteps hexit before.length 0 hlies.open_entry rfl
    obtain ⟨lanes', hl', hlaid'⟩ := adopt hlaid (List.mem_append_left new hl)
    have hlies' := hlies.addChain hkeeps hout hc
    rw [hrule] at hlies'
    obtain ⟨lanes'', m, hm, hprocess, hmlies, hall⟩ :=
      ih (l := { l with chains := l.chains ++ [c] }) hlaid' hl' hlies'
      fun r hr => hrules r (List.mem_cons_of_mem _ hr)
    rw [List.append_assoc] at hmlies
    simp only [List.length_append, List.length_singleton] at hmlies hall
    exact ⟨lanes'', m, hm, hprocess, hmlies, hall⟩

/-- The first process of the queue is laid out. -/
theorem next (h : Accounts sys done ∅ [] lanes x.graph) (hp : p ∉ done)
    (hknown : (x.graph.entry? p).isSome = true) (hrules : ∀ r ∈ sys.rules p, r ≠ []) :
    ∃ lanes', Accounts sys (p :: done) ∅ [] lanes'
      (Expansion.addRules sys p 0 (sys.rules p) x).graph := by
  obtain ⟨l, hl, rfl⟩ := List.mem_map.mp (h.entry?_isSome.mp hknown)
  have hlies := h.liesIn l hl (Set.notMem_empty _)
  rw [laidRules, if_neg hp] at hlies
  have hothers : Accounts sys (l.process :: done) {l.process} [] lanes x.graph := { h with
    done_subset := List.cons_subset.mpr ⟨List.mem_map_of_mem hl, h.done_subset⟩
    liesIn := fun m hm hne => by
      have hmem : m.process ∈ l.process :: done ↔ m.process ∈ done :=
        List.mem_cons.trans (or_iff_right hne)
      simp only [laidRules, hmem]
      exact h.liesIn m hm (Set.notMem_empty _) }
  obtain ⟨lanes', l', hl', hprocess, hlies', hlaid⟩ := hothers.addRules hl hlies _ hrules
  refine ⟨lanes', { hlaid with liesIn := fun m hm _ => ?_ }⟩
  -- the lane that was worked on is the only one of its process
  by_cases hne : m.process = l.process
  · obtain rfl : m = l' := List.inj_on_of_nodup_map hlaid.nodup hm hl' (hne.trans hprocess.symm)
    rw [laidRules, hprocess, if_pos (List.mem_cons_self ..)]
    exact hlies'
  · exact hlaid.liesIn m hm hne

theorem run (hsys : sys.validate = .ok ()) (hstage : x.Stage sys done ∅)
    (h : Accounts sys done ∅ [] lanes x.graph) (fuel : Nat)
    (hfuel : sys.processes.length ≤ done.length + fuel) :
    ∃ done' lanes', (x.run sys fuel).Stage sys done' ∅ ∧ (x.run sys fuel).queue = [] ∧
      Accounts sys done' ∅ [] lanes' (x.run sys fuel).graph := by
  induction fuel generalizing x done lanes with
  | zero =>
    obtain ⟨_, -, hempty⟩ := hstage.run hsys 0 hfuel
    exact ⟨done, lanes, hstage, hempty, h⟩
  | succ fuel ih =>
    unfold Expansion.run
    split
    · rename_i hq
      exact ⟨done, lanes, hstage, hq, h⟩
    · rename_i p queue hq
      have hmem : p ∈ done ++ x.queue := by simp [hq]
      have hacc := ProcessSystem.accepted_of_validate hsys
      have hp := hacc.mem_of_reaches hacc.initial_mem (hstage.reached p hmem)
      have hnew : p ∉ done := fun hdone =>
        List.disjoint_of_nodup_append hstage.nodup hdone (by simp [hq])
      obtain ⟨lanes', hlaid⟩ := next (x := { x with queue }) h hnew ((hstage.known p).mpr hmem)
        (ProcessSystem.rule_ne_nil hsys hp)
      refine ih (hstage.next hsys hq) hlaid ?_
      rw [List.length_cons]
      omega

end Accounts

theorem accounts_start (sys : ProcessSystem) :
    Accounts sys [] ∅ [] [{ process := sys.initial, entry := 0, exit := 1 }]
      (addProcess sys {} sys.initial) := by
  have hempty : Accounts sys [] ∅ [] [] {} := ⟨rfl, rfl, rfl, by simp, by simp, .nil, by simp⟩
  exact hempty.addProcess rfl

/-- The states of the expansion of a valid system, each in one lane. -/
theorem ofSystem_lanes (hsys : sys.validate = .ok ()) :
    ∃ lanes, Accounts sys (lanes.map (·.process)) ∅ [] lanes (ofSystem sys) := by
  let start : Expansion := { graph := addProcess sys {} sys.initial, queue := [sys.initial] }
  obtain ⟨done, lanes, hstage, hempty, h⟩ := (accounts_start sys).run hsys
    (Expansion.stage_start sys) sys.processes.length (by simp)
  have hdone (l : Lane) (hl : l ∈ lanes) : l.process ∈ done := by
    have hknown := (hstage.known l.process).mp (h.entry?_isSome.mpr (List.mem_map_of_mem hl))
    rwa [hempty, List.append_nil] at hknown
  have hkeeps : Keeps ∅ (start.run sys sys.processes.length).graph (ofSystem sys) :=
    ⟨fun _ _ h => h, fun _ _ _ h => h, fun _ _ h => h, fun _ _ h => h⟩
  refine ⟨lanes, h.out_size, h.entry_eq, h.exit_eq, h.nodup, fun _ hp => hp, h.perm,
    fun l hl _ => ?_⟩
  have hlies := (h.liesIn l hl (Set.notMem_empty _)).keep hkeeps (by simp) (by simp)
  rw [laidRules, if_pos (hdone l hl)] at hlies
  rwa [laidRules, if_pos (List.mem_map_of_mem hl)]

end MuProc.Graph
