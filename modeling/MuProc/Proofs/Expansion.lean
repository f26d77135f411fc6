import MuProc.Process.Graph
import MuProc.Proofs.Folds

/-!
# Well-formed state graphs

Expanding a system adds states and edges one by one. At every moment the states are
numbered in their order, every edge leads to a state, every called process has an
entry state, and entries are entry states. Validity of the system does not matter
for that.
-/

namespace MuProc.Graph

/-- States are numbered in order, and edges and calls lead to states of the graph. -/
structure WellFormed (g : Graph) : Prop where
  size_pos : 0 < g.size
  out_size : g.out.size = g.size
  id_eq : ∀ (v : Nat) s, g.states[v]? = some s → s.id = v
  target_lt : ∀ (v : Nat) es, g.out[v]? = some es → ∀ e ∈ es, e.target < g.size
  callee : ∀ (v : Nat) es, g.out[v]? = some es → ∀ e ∈ es, e.step.isCall = true →
    (g.entry? e.step.call).isSome = true
  entry_place : ∀ p v, (p, v) ∈ g.entry → ∃ s, g.states[v]? = some s ∧ s.place = .entry
  exit_lt : ∀ p v, (p, v) ∈ g.exit → v < g.size

theorem lookup_mem {α β : Type} [BEq α] [LawfulBEq α] {l : List (α × β)} {a : α} {b : β}
    (h : l.lookup a = some b) : (a, b) ∈ l := by
  induction l with
  | nil => cases h
  | cons p l ih =>
    rw [List.lookup_cons] at h
    split at h
    · rename_i heq
      obtain rfl : a = p.1 := by simpa using heq
      obtain rfl := Option.some.inj h
      exact List.mem_cons_self ..
    · exact List.mem_cons_of_mem _ (ih h)

theorem lookup_append_isSome {α β : Type} [BEq α] [LawfulBEq α] {l m : List (α × β)} {a : α}
    (h : (l.lookup a).isSome = true ∨ (m.lookup a).isSome = true) :
    ((l ++ m).lookup a).isSome = true := by
  induction l with
  | nil => simpa using h
  | cons p l ih =>
    rw [List.cons_append, List.lookup_cons]
    rw [List.lookup_cons] at h
    split
    · rfl
    · rename_i hne
      simp only [hne] at h
      exact ih h

theorem size_addState (g : Graph) (s : State) : (g.addState s).size = g.size + 1 := by
  simp [Graph.addState, size]

theorem states_addState_self (g : Graph) (s : State) : (g.addState s).states[g.size]? = some s := by
  rw [Graph.addState, Array.getElem?_push]
  exact if_pos rfl

theorem states_addState {g : Graph} {s : State} {v : Nat} (hv : v < g.size) :
    (g.addState s).states[v]? = g.states[v]? := by
  have hne : v ≠ g.states.size := Nat.ne_of_lt hv
  rw [Graph.addState, Array.getElem?_push, if_neg hne]

theorem mem_out_addState {g : Graph} {s : State} {v : Nat} {es : List Edge} {e : Edge}
    (hes : (g.addState s).out[v]? = some es) (he : e ∈ es) : g.out[v]? = some es := by
  simp only [Graph.addState, Array.getElem?_push] at hes
  split at hes
  · obtain rfl := Option.some.inj hes
    cases he
  · exact hes

theorem mem_out_addEdge {g : Graph} {source target v : Nat} {step : Step} {es : List Edge}
    {e : Edge}
    (hes : (g.addEdge source target step).out[v]? = some es) (he : e ∈ es) :
    (∃ es', g.out[v]? = some es' ∧ e ∈ es') ∨ v = source ∧ e = { source, target, step } := by
  simp only [Graph.addEdge, Array.getElem?_modify] at hes
  split at hes
  · rename_i heq
    obtain ⟨es', hes', rfl⟩ := Option.map_eq_some_iff.mp hes
    rcases List.mem_append.mp he with he | he
    · exact .inl ⟨es', hes', he⟩
    · exact .inr ⟨heq.symm, by simpa using he⟩
  · exact .inl ⟨es, hes, he⟩

namespace WellFormed

variable {g : Graph}

theorem entry?_place (h : g.WellFormed) {p : Name} {v : Nat} (hv : g.entry? p = some v) :
    ∃ s, g.states[v]? = some s ∧ s.place = .entry :=
  h.entry_place p v (lookup_mem hv)

theorem entry?_getD_lt (h : g.WellFormed) (p : Name) : (g.entry? p).getD 0 < g.size := by
  cases hv : g.entry? p with
  | none => exact h.size_pos
  | some v =>
    obtain ⟨s, hs, -⟩ := h.entry?_place hv
    exact (Array.getElem?_eq_some_iff.mp hs).1

theorem exit?_getD_lt (h : g.WellFormed) (p : Name) : (g.exit? p).getD 0 < g.size := by
  cases hv : g.exit? p with
  | none => exact h.size_pos
  | some v => exact h.exit_lt p v (lookup_mem hv)

theorem addState (h : g.WellFormed) {s : State} (hid : s.id = g.size) :
    (g.addState s).WellFormed := by
  have hsize : (g.addState s).size = g.size + 1 := by simp [Graph.addState, size]
  exact {
    size_pos := by omega
    out_size := by simp [Graph.addState, size, h.out_size]
    id_eq := fun v t ht => by
      simp only [Graph.addState, Array.getElem?_push] at ht
      split at ht
      · rename_i heq
        obtain rfl := Option.some.inj ht
        exact hid.trans heq.symm
      · exact h.id_eq v t ht
    target_lt := fun v es hes e he => by
      have := h.target_lt v es (mem_out_addState hes he) e he
      omega
    callee := fun v es hes e he => h.callee v es (mem_out_addState hes he) e he
    entry_place := fun p v hpv => by
      obtain ⟨t, ht, hplace⟩ := h.entry_place p v hpv
      have hlt := (Array.getElem?_eq_some_iff.mp ht).1
      exact ⟨t, (states_addState hlt).trans ht, hplace⟩
    exit_lt := fun p v hpv => by
      have := h.exit_lt p v hpv
      omega }

/-- Two states at the end can become the entry and the exit of a process. -/
theorem addEnds (h : g.WellFormed) {p : Name} {v w : Nat} {s : State}
    (hv : g.states[v]? = some s) (hplace : s.place = .entry) (hw : w < g.size) :
    WellFormed { g with entry := g.entry ++ [(p, v)], exit := g.exit ++ [(p, w)] } where
  size_pos := h.size_pos
  out_size := h.out_size
  id_eq := h.id_eq
  target_lt := h.target_lt
  callee u es hes e he hcall := lookup_append_isSome (.inl (h.callee u es hes e he hcall))
  entry_place q u hqu := by
    rcases List.mem_append.mp hqu with hqu | hqu
    · exact h.entry_place q u hqu
    · obtain ⟨rfl, rfl⟩ : q = p ∧ u = v := by simpa using hqu
      exact ⟨s, hv, hplace⟩
  exit_lt q u hqu := by
    rcases List.mem_append.mp hqu with hqu | hqu
    · exact h.exit_lt q u hqu
    · obtain ⟨rfl, rfl⟩ : q = p ∧ u = w := by simpa using hqu
      exact hw

theorem addProcess (h : g.WellFormed) (sys : ProcessSystem) (p : Name) :
    (addProcess sys g p).WellFormed := by
  let entry : State :=
    { id := g.size, process := p, place := .entry, props := ByteString.sorted (sys.props p) }
  let exit : State := { id := g.size + 1, process := p, place := .exit }
  have h1 : (g.addState entry).WellFormed := h.addState rfl
  have h2 : ((g.addState entry).addState exit).WellFormed :=
    h1.addState (by simp [Graph.addState, size, exit])
  have hlt : g.size < (g.addState entry).size := by rw [size_addState]; omega
  have hv : ((g.addState entry).addState exit).states[g.size]? = some entry :=
    (states_addState hlt).trans (states_addState_self g entry)
  exact h2.addEnds hv rfl (by simp [Graph.addState, size])

theorem entry?_addProcess (sys : ProcessSystem) (p : Name) :
    (Graph.entry? (Graph.addProcess sys g p) p).isSome = true :=
  lookup_append_isSome (.inr (by simp))

theorem addEdge (h : g.WellFormed) {source target : Nat} {step : Step} (ht : target < g.size)
    (hcall : step.isCall = true → (g.entry? step.call).isSome = true) :
    (g.addEdge source target step).WellFormed := by
  exact {
    size_pos := h.size_pos
    out_size := by simpa [Graph.addEdge, size] using h.out_size
    id_eq := h.id_eq
    target_lt := fun v es hes e he => by
      rcases mem_out_addEdge hes he with ⟨es', hes', he⟩ | ⟨-, rfl⟩
      · exact h.target_lt v es' hes' e he
      · exact ht
    callee := fun v es hes e he hc => by
      rcases mem_out_addEdge hes he with ⟨es', hes', he⟩ | ⟨-, rfl⟩
      · exact h.callee v es' hes' e he hc
      · exact hcall hc
    entry_place := h.entry_place
    exit_lt := h.exit_lt }

end WellFormed

/-! ### Laying out rules -/

namespace Expansion

variable {x : Expansion} {sys : ProcessSystem}

theorem discover_wellFormed (sys : ProcessSystem) (h : x.graph.WellFormed) (s : Step) :
    (x.discover sys s).graph.WellFormed ∧
      (s.isCall = true → (Graph.entry? (x.discover sys s).graph s.call).isSome = true) := by
  unfold discover
  split
  · exact ⟨h.addProcess sys s.call, fun _ => WellFormed.entry?_addProcess sys s.call⟩
  · rename_i hno
    refine ⟨h, fun hcall => ?_⟩
    by_contra hnone
    exact hno ⟨hcall, by simpa using hnone⟩

theorem addSteps_wellFormed (h : x.graph.WellFormed) (p : Name) (rule pos source : Nat)
    (steps : List Step) : (addSteps sys p rule pos source steps x).graph.WellFormed := by
  induction steps generalizing pos source x with
  | nil => exact h
  | cons s rest ih =>
    obtain ⟨hd, hentry⟩ := discover_wellFormed sys h s
    cases rest with
    | nil => exact hd.addEdge (hd.exit?_getD_lt p) hentry
    | cons s' rest =>
      apply ih
      refine (hd.addState rfl).addEdge (by simp [addState, size]) hentry

theorem edges_discover (x : Expansion) (s : Step) :
    (x.discover sys s).graph.edges = x.graph.edges := by
  unfold discover
  split
  · simp [Graph.addProcess, edges, addState]
  · rfl

theorem size_le_discover (x : Expansion) (s : Step) :
    x.graph.size ≤ (x.discover sys s).graph.size := by
  unfold discover
  split
  · simp [Graph.addProcess, addState, size]
    omega
  · exact Nat.le_refl _

/-- The source of an edge is always there: each step of a rule has its edge. -/
theorem length_edges_addSteps (h : x.graph.WellFormed) (p : Name) (rule pos : Nat) {source : Nat}
    (hsource : source < x.graph.size) (steps : List Step) :
    (addSteps sys p rule pos source steps x).graph.edges.length =
      x.graph.edges.length + steps.length := by
  induction steps generalizing pos source x with
  | nil => rfl
  | cons s rest ih =>
    obtain ⟨hd, hentry⟩ := discover_wellFormed sys h s
    have hsource : source < (x.discover sys s).graph.size :=
      Nat.lt_of_lt_of_le hsource (size_le_discover x s)
    cases rest with
    | nil =>
      show (Graph.addEdge _ _ _ _).edges.length = _
      rw [length_edges_addEdge (hd.out_size ▸ hsource), edges_discover]
      rfl
    | cons s' rest =>
      let between : State := {
        id := (x.discover sys s).graph.size, process := p, place := .position, rule, pos }
      have hb := hd.addState (s := between) rfl
      have hsize := size_addState (x.discover sys s).graph between
      have hlast : (x.discover sys s).graph.size <
          ((x.discover sys s).graph.addState between).size := by omega
      have hedges : ((x.discover sys s).graph.addState between).edges =
          (x.discover sys s).graph.edges := by simp [edges, Graph.addState]
      have hstep : (((x.discover sys s).graph.addState between).addEdge source
          (x.discover sys s).graph.size s).WellFormed := hb.addEdge hlast hentry
      refine (ih hstep (pos + 1) hlast).trans ?_
      rw [length_edges_addEdge (by rw [hb.out_size]; omega), hedges, edges_discover]
      simp only [List.length_cons]
      omega

theorem addRules_wellFormed (h : x.graph.WellFormed) (p : Name) (rule : Nat) (rules : List Rule) :
    (addRules sys p rule rules x).graph.WellFormed := by
  induction rules generalizing rule x with
  | nil => exact h
  | cons r rest ih => exact ih (addSteps_wellFormed h p rule 0 _ r) (rule + 1)

/-- Each step of the rules of a process has its edge. -/
theorem length_edges_addRules (h : x.graph.WellFormed) (p : Name) (rule : Nat)
    (rules : List Rule) : (addRules sys p rule rules x).graph.edges.length =
      x.graph.edges.length + rules.flatten.length := by
  induction rules generalizing rule x with
  | nil => rfl
  | cons r rest ih =>
    refine (ih (addSteps_wellFormed h p rule 0 _ r) (rule + 1)).trans ?_
    rw [length_edges_addSteps h p rule 0 (h.entry?_getD_lt p), List.flatten_cons,
      List.length_append, Nat.add_assoc]

theorem run_wellFormed (h : x.graph.WellFormed) (fuel : Nat) :
    (x.run sys fuel).graph.WellFormed := by
  induction fuel generalizing x with
  | zero => exact h
  | succ fuel ih =>
    unfold run
    split
    · exact h
    · rename_i p queue _
      have hq : ({ x with queue } : Expansion).graph.WellFormed := h
      exact ih (addRules_wellFormed hq p 0 (sys.rules p))

end Expansion

theorem wellFormed_start (sys : ProcessSystem) (p : Name) : (addProcess sys {} p).WellFormed where
  size_pos := by simp [addProcess, addState, size]
  out_size := by simp [addProcess, addState, size]
  id_eq v s hs := by
    match v with
    | 0 =>
      obtain rfl := Option.some.inj hs
      rfl
    | 1 =>
      obtain rfl := Option.some.inj hs
      rfl
    | v + 2 => simp [addProcess, addState] at hs
  target_lt v es hes e he := by
    match v with
    | 0 =>
      obtain rfl := Option.some.inj hes
      cases he
    | 1 =>
      obtain rfl := Option.some.inj hes
      cases he
    | v + 2 => simp [addProcess, addState] at hes
  callee v es hes e he := by
    match v with
    | 0 =>
      obtain rfl := Option.some.inj hes
      cases he
    | 1 =>
      obtain rfl := Option.some.inj hes
      cases he
    | v + 2 => simp [addProcess, addState] at hes
  entry_place q v hqv := by
    obtain ⟨rfl, rfl⟩ : q = p ∧ v = 0 := by simpa [addProcess, addState, size] using hqv
    exact ⟨_, rfl, rfl⟩
  exit_lt q v hqv := by
    obtain ⟨rfl, rfl⟩ : q = p ∧ v = 1 := by simpa [addProcess, addState, size] using hqv
    simp [addProcess, addState, size]

/-- The expansion of a system is well-formed and starts at one of its states. -/
theorem ofSystem_wellFormed (sys : ProcessSystem) :
    (ofSystem sys).WellFormed ∧ (ofSystem sys).initial < (ofSystem sys).size := by
  let start : Expansion := { graph := addProcess sys {} sys.initial, queue := [sys.initial] }
  have h : (start.run sys sys.processes.length).graph.WellFormed :=
    Expansion.run_wellFormed (wellFormed_start sys sys.initial) sys.processes.length
  exact ⟨⟨h.size_pos, h.out_size, h.id_eq, h.target_lt, h.callee, h.entry_place, h.exit_lt⟩,
    h.entry?_getD_lt sys.initial⟩

theorem expand_eq_ok {sys : ProcessSystem} {g : Graph} :
    expand sys = .ok g ↔ sys.validate = .ok () ∧ g = ofSystem sys := by
  unfold expand
  rw [Fold.bind_eq_ok]
  constructor
  · rintro ⟨u, hu, hg⟩
    exact ⟨hu, (Except.ok.inj hg).symm⟩
  · rintro ⟨hu, rfl⟩
    exact ⟨(), hu, rfl⟩

end MuProc.Graph
