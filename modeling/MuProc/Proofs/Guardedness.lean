import MuProc.Proofs.Expansion
import Mathlib.Data.List.Perm.Subperm

/-!
# Guarded recursion

A valid system can be arranged so that a process calls in the first steps of its rules
only processes that come later. In the state graph of the system the calls that leave
an entry are such calls, so following calls from state to state comes to an end.
-/

namespace MuProc

namespace ProcessSystem

variable {sys : ProcessSystem}

/-! ### What validity says -/

theorem forM_eq_ok {α ε : Type} {l : List α} {f : α → Except ε Unit} (h : l.forM f = .ok ()) :
    ∀ a ∈ l, f a = .ok () := by
  induction l with
  | nil => simp
  | cons a l ih =>
    obtain ⟨u, hu, hl⟩ := Fold.bind_eq_ok.mp h
    intro b hb
    rcases List.mem_cons.mp hb with rfl | hb
    · exact hu
    · exact ih hl b hb

theorem forM_of_forall {α ε : Type} {l : List α} {f : α → Except ε Unit}
    (h : ∀ a ∈ l, f a = .ok ()) : l.forM f = .ok () := by
  induction l with
  | nil => rfl
  | cons a l ih =>
    obtain ⟨ha, hl⟩ := List.forall_mem_cons.mp h
    exact Fold.bind_eq_ok.mpr ⟨(), ha, ih hl⟩

theorem call_mem_of_checkSteps {defined : List Name} {p : Name} {i j : Nat} {steps : List Step}
    (h : checkSteps defined p i j steps = .ok ()) :
    ∀ s ∈ steps, s.isCall = true → s.call ∈ defined := by
  induction steps generalizing j with
  | nil => simp
  | cons s rest ih =>
    unfold checkSteps at h
    split at h
    · cases h
    · rename_i hfault
      intro t ht hcall
      rcases List.mem_cons.mp ht with rfl | ht
      · simp only [stepFault, Step.isCall, decide_eq_true_eq] at hfault hcall
        by_contra hundefined
        simp [hcall, hundefined] at hfault
        split at hfault <;> cases hfault
      · exact ih h t ht hcall

theorem call_mem_of_checkRules {defined : List Name} {p : Name} {i : Nat} {rules : List Rule}
    (h : checkRules defined p i rules = .ok ()) :
    ∀ r ∈ rules, ∀ s ∈ r, s.isCall = true → s.call ∈ defined := by
  induction rules generalizing i with
  | nil => simp
  | cons r rest ih =>
    unfold checkRules at h
    split at h
    · cases h
    · obtain ⟨u, hu, hrest⟩ := Fold.bind_eq_ok.mp h
      intro r' hr'
      rcases List.mem_cons.mp hr' with rfl | hr'
      · exact call_mem_of_checkSteps hu
      · exact ih hrest r' hr'

/-- What is used of a valid system. -/
structure Accepted (sys : ProcessSystem) : Prop where
  initial_mem : sys.initial ∈ sys.processes
  call_mem : ∀ p ∈ sys.processes, ∀ r ∈ sys.rules p, ∀ s ∈ r, s.isCall = true →
    s.call ∈ sys.processes
  guarded : sys.checkGuarded = .ok ()

theorem accepted_of_validate (h : sys.validate = .ok ()) : sys.Accepted := by
  unfold validate at h
  simp only [Fold.bind_eq_ok] at h
  obtain ⟨-, -, u, hinitial, v, hrules, hguarded⟩ := h
  refine ⟨?_, fun p hp => call_mem_of_checkRules (forM_eq_ok hrules p hp), hguarded⟩
  unfold checkInitial at hinitial
  split at hinitial
  · cases hinitial
  · split at hinitial
    · assumption
    · cases hinitial

theorem Accepted.firstCall_mem (h : sys.Accepted) {p q : Name} (hp : p ∈ sys.processes) {r : Rule}
    (hr : r ∈ sys.rules p) (hq : firstCall? r = some q) : q ∈ sys.processes := by
  unfold firstCall? at hq
  split at hq
  · rename_i s rest
    split at hq
    · rename_i hcall
      obtain rfl := Option.some.inj hq
      exact h.call_mem p hp _ hr s (List.mem_cons_self ..) hcall
    · cases hq
  · cases hq

/-! ### First calls -/

/-- Each process of the list calls in first steps only processes behind it. -/
def Layered (sys : ProcessSystem) : List Name → Prop
  | [] => True
  | p :: l => (∀ r ∈ sys.rules p, ∀ q, firstCall? r = some q → q ∈ l) ∧ Layered sys l

theorem layered_of_visit (hsys : sys.Accepted) {fuel : Nat} {active done done' : List Name}
    {p : Name} (h : visitFirstCalls sys fuel active done p = .ok done')
    (hfuel : sys.processes.length < fuel + active.length) (hnodup : active.Nodup)
    (hactive : active ⊆ sys.processes) (hp : p ∈ sys.processes) (hdone : sys.Layered done) :
    sys.Layered done' ∧ done ⊆ done' ∧ p ∈ done' := by
  induction fuel generalizing active done done' p with
  | zero =>
    have hle := (hnodup.subperm hactive).length_le
    omega
  | succ fuel ih =>
    unfold visitFirstCalls at h
    split at h
    · cases h
    · rename_i hnew
      split at h
      · rename_i hmem
        obtain rfl := Except.ok.inj h
        exact ⟨hdone, fun _ hq => hq, hmem⟩
      · obtain ⟨inner, hinner, hres⟩ := Fold.bind_eq_ok.mp h
        obtain rfl := Except.ok.inj hres
        obtain ⟨hlayered, hsub, hall⟩ := Fold.foldlM_inv_of_ok (l := sys.rules p)
          (P := fun m d => sys.Layered d ∧ done ⊆ d ∧
            ∀ i < m, ∀ r, (sys.rules p)[i]? = some r → ∀ q, firstCall? r = some q → q ∈ d)
          ⟨hdone, fun _ hq => hq, by omega⟩ (by
            rintro m r d d' hr ⟨hlayered, hsub, hall⟩ hstep
            have hkeep (hd : d ⊆ d') (hlast : ∀ q, firstCall? r = some q → q ∈ d') :
                ∀ i < m + 1, ∀ r', (sys.rules p)[i]? = some r' →
                  ∀ q, firstCall? r' = some q → q ∈ d' := by
              intro i hi r' hr' q hq
              by_cases him : i = m
              · subst him
                obtain rfl : r = r' := Option.some.inj (hr.symm.trans hr')
                exact hlast q hq
              · exact hd (hall i (by omega) r' hr' q hq)
            cases hfirst : firstCall? r with
            | none =>
              simp only [hfirst] at hstep
              obtain rfl := Except.ok.inj hstep
              exact ⟨hlayered, hsub, hkeep (fun _ hq => hq) (by simp [hfirst])⟩
            | some q =>
              simp only [hfirst] at hstep
              have hq := hsys.firstCall_mem hp (List.mem_of_getElem? hr) hfirst
              obtain ⟨h1, h2, h3⟩ := ih hstep (by rw [List.length_cons]; omega)
                (List.nodup_cons.mpr ⟨hnew, hnodup⟩)
                  (List.cons_subset.mpr ⟨hp, hactive⟩) hq hlayered
              refine ⟨h1, fun _ hx => h2 (hsub hx), hkeep h2 fun q' hq' => ?_⟩
              obtain rfl := Option.some.inj (hfirst.symm.trans hq')
              exact h3) hinner
        refine ⟨⟨fun r hr q hq => ?_, hlayered⟩, fun _ hx => List.mem_cons_of_mem _ (hsub hx),
          List.mem_cons_self ..⟩
        obtain ⟨i, hi⟩ := List.mem_iff_getElem?.mp hr
        exact hall i (List.getElem?_eq_some_iff.mp hi).1 r hi q hq

/-- The processes of a valid system can be arranged in layers. -/
theorem Accepted.layered (h : sys.Accepted) : ∃ l, sys.Layered l ∧ sys.processes ⊆ l := by
  obtain ⟨l, hl, -⟩ := Fold.bind_eq_ok.mp h.guarded
  obtain ⟨hlayered, hall⟩ := Fold.foldlM_inv_of_ok (l := sys.processes)
    (P := fun m d => sys.Layered d ∧ ∀ i < m, ∀ p, sys.processes[i]? = some p → p ∈ d) (b := [])
    ⟨trivial, by omega⟩ (by
      rintro m p d d' hp ⟨hlayered, hall⟩ hstep
      obtain ⟨h1, h2, h3⟩ := layered_of_visit h hstep (by simp) List.nodup_nil
        (List.nil_subset _) (List.mem_of_getElem? hp) hlayered
      refine ⟨h1, fun i hi q hq => ?_⟩
      by_cases him : i = m
      · subst him
        obtain rfl := Option.some.inj (hp.symm.trans hq)
        exact h3
      · exact h2 (hall i (by omega) q hq)) hl
  refine ⟨l, hlayered, fun p hp => ?_⟩
  obtain ⟨i, hi⟩ := List.mem_iff_getElem?.mp hp
  exact hall i (List.getElem?_eq_some_iff.mp hi).1 p hi

/-- The number of layers from a process on. -/
def depth : List Name → Name → Nat
  | [], _ => 0
  | p :: l, q => if q ∈ l then depth l q else if q = p then l.length + 1 else 0

theorem depth_le (l : List Name) (q : Name) : depth l q ≤ l.length := by
  induction l with
  | nil => exact Nat.le_refl _
  | cons p l ih =>
    rw [depth, List.length_cons]
    split
    · omega
    · split <;> omega

theorem Layered.depth_lt {l : List Name} (h : sys.Layered l) {p q : Name} (hp : p ∈ l) {r : Rule}
    (hr : r ∈ sys.rules p) (hq : firstCall? r = some q) : q ∈ l ∧ depth l q < depth l p := by
  induction l with
  | nil => cases hp
  | cons p' l ih =>
    obtain ⟨hhead, htail⟩ := h
    rw [depth, depth]
    by_cases hpl : p ∈ l
    · obtain ⟨hql, hlt⟩ := ih htail hpl
      rw [if_pos hpl, if_pos hql]
      exact ⟨List.mem_cons_of_mem _ hql, hlt⟩
    · obtain rfl : p = p' := (List.mem_cons.mp hp).resolve_right hpl
      have hql := hhead r hr q hq
      have hle := depth_le l q
      rw [if_neg hpl, if_pos rfl, if_pos hql]
      exact ⟨List.mem_cons_of_mem _ hql, by omega⟩

end ProcessSystem

namespace Graph

open ProcessSystem (firstCall? Accepted Layered depth depth_le)

/-! ### Where edges come from -/

/-- The entries of a graph belong to processes of the system, and the calls that leave
them are first steps of rules. -/
structure Rooted (sys : ProcessSystem) (g : Graph) : Prop where
  entry : ∀ p v, (p, v) ∈ g.entry →
    ∃ s, g.states[v]? = some s ∧ s.place = .entry ∧ s.process = p
  process : ∀ (v : Nat) s, g.states[v]? = some s → s.place = .entry → s.process ∈ sys.processes
  first : ∀ (v : Nat) s es, g.states[v]? = some s → s.place = .entry → g.out[v]? = some es →
    ∀ e ∈ es, e.step.isCall = true →
      ∃ r ∈ sys.rules s.process, firstCall? r = some e.step.call

variable {sys : ProcessSystem} {g : Graph}

theorem states_addProcess {p : Name} {v : Nat} (hv : v < g.size) :
    v < (addProcess sys g p).size ∧ (addProcess sys g p).states[v]? = g.states[v]? := by
  let entry : State :=
    { id := g.size, process := p, place := .entry, props := ByteString.sorted (sys.props p) }
  let exit : State := { id := g.size + 1, process := p, place := .exit }
  have h1 : (g.addState entry).size = g.size + 1 := size_addState g entry
  have h2 : (addProcess sys g p).size = g.size + 1 + 1 := h1 ▸ size_addState _ exit
  have hlt : v < (g.addState entry).size := by omega
  exact ⟨by omega, (states_addState hlt).trans (states_addState hv)⟩

theorem Rooted.addState (h : g.Rooted sys) (hout : g.out.size = g.size) {s : State}
    (hs : s.place = .entry → s.process ∈ sys.processes) : (g.addState s).Rooted sys := by
  have hstate {v : Nat} {t : State} (ht : (g.addState s).states[v]? = some t) :
      g.states[v]? = some t ∨ v = g.size ∧ t = s := by
    rw [Graph.addState, Array.getElem?_push] at ht
    split at ht
    · rename_i heq
      exact .inr ⟨heq, (Option.some.inj ht).symm⟩
    · exact .inl ht
  refine ⟨fun p v hpv => ?_, fun v t ht hplace => ?_, fun v t es ht hplace hes e he hcall => ?_⟩
  · obtain ⟨t, ht, hplace, hprocess⟩ := h.entry p v hpv
    have hlt := (Array.getElem?_eq_some_iff.mp ht).1
    exact ⟨t, by rw [states_addState hlt, ht], hplace, hprocess⟩
  · rcases hstate ht with ht | ⟨-, rfl⟩
    · exact h.process v t ht hplace
    · exact hs hplace
  · have hes := mem_out_addState hes he
    rcases hstate ht with ht | ⟨rfl, -⟩
    · exact h.first v t es ht hplace hes e he hcall
    · have := (Array.getElem?_eq_some_iff.mp hes).1
      omega

theorem Rooted.addProcess (h : g.Rooted sys) (hout : g.out.size = g.size) {p : Name}
    (hp : p ∈ sys.processes) : (addProcess sys g p).Rooted sys := by
  let entry : State :=
    { id := g.size, process := p, place := .entry, props := ByteString.sorted (sys.props p) }
  let exit : State := { id := g.size + 1, process := p, place := .exit }
  have h1 : (g.addState entry).Rooted sys := h.addState hout fun _ => hp
  have h2 : ((g.addState entry).addState exit).Rooted sys :=
    h1.addState (by simpa [Graph.addState, size] using hout) (by simp [exit])
  refine ⟨fun q v hqv => ?_, h2.process, h2.first⟩
  rcases List.mem_append.mp hqv with hqv | hqv
  · exact h2.entry q v hqv
  · obtain ⟨rfl, rfl⟩ : q = p ∧ v = g.size := by simpa using hqv
    have hlt : g.size < (g.addState entry).size := by rw [size_addState]; omega
    exact ⟨entry, (states_addState hlt).trans (states_addState_self g entry), rfl, rfl⟩

theorem Rooted.addEdge (h : g.Rooted sys) {source target : Nat} {step : Step}
    (hstep : ∀ s, g.states[source]? = some s → s.place = .entry → step.isCall = true →
      ∃ r ∈ sys.rules s.process, firstCall? r = some step.call) :
    (g.addEdge source target step).Rooted sys := by
  refine ⟨h.entry, h.process, fun v s es hs hplace hes e he hcall => ?_⟩
  rcases mem_out_addEdge hes he with ⟨es', hes', he⟩ | ⟨rfl, rfl⟩
  · exact h.first v s es' hs hplace hes' e he hcall
  · exact hstep s hs hplace hcall

namespace Expansion

/-- A graph under construction whose queued processes have their states. -/
structure Rooted (sys : ProcessSystem) (x : Expansion) : Prop where
  wellFormed : x.graph.WellFormed
  graph : x.graph.Rooted sys
  queue : ∀ p ∈ x.queue, p ∈ sys.processes ∧ (x.graph.entry? p).isSome = true

variable {x : Expansion}

theorem Rooted.discover (h : x.Rooted sys) {s : Step}
    (hs : s.isCall = true → s.call ∈ sys.processes) :
    (x.discover sys s).Rooted sys ∧
      (∀ p, (x.graph.entry? p).isSome = true →
        (Graph.entry? (x.discover sys s).graph p).isSome = true) ∧
      ∀ v < x.graph.size, v < (x.discover sys s).graph.size ∧
        (x.discover sys s).graph.states[v]? = x.graph.states[v]? := by
  have hwf := (discover_wellFormed sys h.wellFormed s).1
  unfold Expansion.discover at hwf ⊢
  split
  · rename_i hnew
    rw [if_pos hnew] at hwf
    have hentry (p : Name) (hp : (x.graph.entry? p).isSome = true) :
        (Graph.entry? (addProcess sys x.graph s.call) p).isSome = true :=
      lookup_append_isSome (.inl hp)
    refine ⟨⟨hwf, h.graph.addProcess h.wellFormed.out_size (hs hnew.1), fun p hp => ?_⟩, hentry,
      fun v hv => ?_⟩
    · rcases List.mem_append.mp hp with hp | hp
      · exact ⟨(h.queue p hp).1, hentry p (h.queue p hp).2⟩
      · obtain rfl := List.mem_singleton.mp hp
        exact ⟨hs hnew.1, WellFormed.entry?_addProcess sys s.call⟩
    · exact states_addProcess hv
  · exact ⟨h, fun _ hp => hp, fun v hv => ⟨hv, rfl⟩⟩

/-- Laying out the steps of a rule. An entry is the source of the first step only. -/
theorem Rooted.addSteps (h : x.Rooted sys) (p : Name) (rule pos source : Nat) (steps : List Step)
    (hcalls : ∀ s ∈ steps, s.isCall = true → s.call ∈ sys.processes)
    (hlt : source < x.graph.size)
    (hsource : ∀ t, x.graph.states[source]? = some t → t.place = .entry →
      ∀ s ∈ steps.head?, s.isCall = true →
        ∃ r ∈ sys.rules t.process, firstCall? r = some s.call) :
    (addSteps sys p rule pos source steps x).Rooted sys ∧ ∀ q,
      (x.graph.entry? q).isSome = true →
        (Graph.entry? (addSteps sys p rule pos source steps x).graph q).isSome = true := by
  induction steps generalizing pos source x with
  | nil => exact ⟨h, fun _ hq => hq⟩
  | cons s rest ih =>
    obtain ⟨hd, hentry, hstates⟩ := h.discover (hcalls s (List.mem_cons_self ..))
    obtain ⟨-, hcallee⟩ := discover_wellFormed sys h.wellFormed s
    obtain ⟨hlt', hsame⟩ := hstates source hlt
    have hfirst (t : State) (ht : (x.discover sys s).graph.states[source]? = some t)
        (hplace : t.place = .entry) (hcall : s.isCall = true) :=
      hsource t (hsame ▸ ht) hplace s rfl hcall
    cases rest with
    | nil =>
      exact ⟨⟨hd.wellFormed.addEdge (hd.wellFormed.exit?_getD_lt p) hcallee,
        hd.graph.addEdge hfirst, hd.queue⟩, hentry⟩
    | cons s' rest =>
      let between : State :=
        { id := (x.discover sys s).graph.size, process := p, place := .position, rule, pos }
      have hstate : ((x.discover sys s).graph.addState between).Rooted sys :=
        hd.graph.addState hd.wellFormed.out_size (by simp [between])
      have hwf : ((x.discover sys s).graph.addState between).WellFormed :=
        hd.wellFormed.addState rfl
      have hnew :
            ((x.discover sys s).graph.addState between).states[(x.discover sys s).graph.size]? =
          some between := by simp [Graph.addState, size]
      have hlast : (x.discover sys s).graph.size <
          ((x.discover sys s).graph.addState between).size := by
        rw [size_addState]
        exact Nat.lt_succ_self _
      let y : Expansion :=
        { x.discover sys s with
          graph := ((x.discover sys s).graph.addState between).addEdge source
            (x.discover sys s).graph.size s }
      have hy : y.Rooted sys := by
        refine ⟨hwf.addEdge hlast hcallee, hstate.addEdge fun t ht => ?_, hd.queue⟩
        rw [states_addState hlt'] at ht
        exact hfirst t ht
      obtain ⟨hrest, hkeep⟩ := ih hy (pos + 1) (x.discover sys s).graph.size
        (fun t ht => hcalls t (List.mem_cons_of_mem _ ht)) hlast (by
          intro t ht hplace
          obtain rfl : between = t := Option.some.inj (hnew.symm.trans ht)
          cases hplace)
      exact ⟨hrest, fun q hq => hkeep q (hentry q hq)⟩

theorem Rooted.addRules (h : x.Rooted sys) {p : Name} (hp : (x.graph.entry? p).isSome = true)
    (rule : Nat) (rules : List Rule) (hrules : ∀ r ∈ rules, r ∈ sys.rules p)
    (hcalls : ∀ r ∈ rules, ∀ s ∈ r, s.isCall = true → s.call ∈ sys.processes) :
    (addRules sys p rule rules x).Rooted sys := by
  induction rules generalizing rule x with
  | nil => exact h
  | cons r rest ih =>
    obtain ⟨v, hv⟩ := Option.isSome_iff_exists.mp hp
    obtain ⟨t, ht, -, hprocess⟩ := h.graph.entry p v (lookup_mem hv)
    have hlt := (Array.getElem?_eq_some_iff.mp ht).1
    have hsource : (x.graph.entry? p).getD 0 = v := by rw [hv, Option.getD_some]
    rw [Expansion.addRules, hsource]
    obtain ⟨hsteps, hkeep⟩ := h.addSteps p rule 0 v r (hcalls r (List.mem_cons_self ..)) hlt (by
      intro t' ht' _ s hs hcall
      obtain rfl : t = t' := Option.some.inj (ht.symm.trans ht')
      refine ⟨r, hprocess ▸ hrules r (List.mem_cons_self ..), ?_⟩
      cases r with
      | nil => cases hs
      | cons s' rest =>
        obtain rfl : s' = s := Option.some.inj hs
        exact if_pos hcall)
    exact ih hsteps (hkeep p hp) (rule + 1) (fun r' hr' => hrules r' (List.mem_cons_of_mem _ hr'))
      fun r' hr' => hcalls r' (List.mem_cons_of_mem _ hr')

theorem Rooted.run (hsys : sys.Accepted) (h : x.Rooted sys) (fuel : Nat) :
    (x.run sys fuel).Rooted sys := by
  induction fuel generalizing x with
  | zero => exact h
  | succ fuel ih =>
    unfold Expansion.run
    split
    · exact h
    · rename_i p queue hq
      have hp := h.queue p (hq ▸ List.mem_cons_self ..)
      have hrest : ({ x with queue } : Expansion).Rooted sys :=
        ⟨h.wellFormed, h.graph, fun q hqm => h.queue q (hq ▸ List.mem_cons_of_mem _ hqm)⟩
      exact ih (hrest.addRules hp.2 0 _ (fun _ hr => hr) (hsys.call_mem p hp.1))

end Expansion

theorem ofSystem_rooted (hsys : sys.Accepted) :
    (ofSystem sys).WellFormed ∧ (ofSystem sys).Rooted sys := by
  have hempty : Rooted sys {} := ⟨by simp, by simp, by simp⟩
  let start : Expansion := { graph := addProcess sys {} sys.initial, queue := [sys.initial] }
  have hstart : start.Rooted sys := by
    refine ⟨wellFormed_start sys sys.initial,
      hempty.addProcess rfl hsys.initial_mem, fun p hp => ?_⟩
    obtain rfl := List.mem_singleton.mp hp
    exact ⟨hsys.initial_mem, WellFormed.entry?_addProcess sys sys.initial⟩
  have h := (hstart.run hsys sys.processes.length).graph
  exact ⟨(ofSystem_wellFormed sys).1, h.entry, h.process, h.first⟩

/-- The graph of a valid system: there is a measure of states that falls along calls. -/
theorem ofSystem_guarded (hsys : sys.validate = .ok ()) :
    ∃ rank : Nat → Nat, ∀ (v : Nat) es, (ofSystem sys).out[v]? = some es → ∀ e ∈ es,
      e.step.isCall = true → ∀ u, Graph.entry? (ofSystem sys) e.step.call = some u →
        rank u < rank v := by
  have hacc := ProcessSystem.accepted_of_validate hsys
  obtain ⟨l, hlayered, hall⟩ := hacc.layered
  obtain ⟨hwf, hrooted⟩ := ofSystem_rooted hacc
  let rank (v : Nat) : Nat := (ofSystem sys).states[v]?.elim 0 fun s =>
    if s.place = .entry then depth l s.process else l.length + 1
  have hrank {v : Nat} {s : State} (hs : (ofSystem sys).states[v]? = some s) :
      rank v = if s.place = .entry then depth l s.process else l.length + 1 := by
    simp only [rank, hs, Option.elim_some]
  refine ⟨rank, fun v es hes e he hcall u hu => ?_⟩
  have hv : v < (ofSystem sys).size := hwf.out_size ▸ (Array.getElem?_eq_some_iff.mp hes).1
  have hs : (ofSystem sys).states[v]? = _ := Array.getElem?_eq_getElem hv
  obtain ⟨t, ht, htplace, htprocess⟩ := hrooted.entry e.step.call u (lookup_mem hu)
  rw [hrank ht, hrank hs, if_pos htplace, htprocess]
  split
  · rename_i hplace
    obtain ⟨r, hr, hfirst⟩ := hrooted.first v _ es hs hplace hes e he hcall
    exact (hlayered.depth_lt (hall (hrooted.process v _ hs hplace)) hr hfirst).2
  · have := depth_le l e.step.call
    omega

end Graph

end MuProc
