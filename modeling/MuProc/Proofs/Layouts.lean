import MuProc.Proofs.Guardedness
import Mathlib.Data.Set.Basic
import Mathlib.Logic.Relation

/-!
# What an expansion lays out

The expansion of a valid system has states for the processes that calls lead to from the
initial one, and for no others. Behind the entry of a process stands one edge for each of
its rules, and behind that edge a chain of positions that spells the rest of the rule. The
order in which processes are discovered plays no part in that.
-/

namespace MuProc

namespace ProcessSystem

/-- Some rule of process `p` calls process `q`. -/
def Calls (sys : ProcessSystem) (p q : Name) : Prop :=
  ∃ r ∈ sys.rules p, ∃ s ∈ r, s.isCall = true ∧ s.call = q

/-- A chain of calls leads from one process to another. -/
def Reaches (sys : ProcessSystem) : Name → Name → Prop :=
  Relation.ReflTransGen sys.Calls

/-- The step stands in a rule of a process that is reachable from the initial one. -/
def Performs (sys : ProcessSystem) (s : Step) : Prop :=
  ∃ p, sys.Reaches sys.initial p ∧ ∃ r ∈ sys.rules p, s ∈ r

variable {sys : ProcessSystem} {p q : Name}

theorem Accepted.mem_of_reaches (h : sys.Accepted) (hp : p ∈ sys.processes)
    (hq : sys.Reaches p q) : q ∈ sys.processes := by
  induction hq with
  | refl => exact hp
  | tail _ hcall ih =>
    obtain ⟨r, hr, s, hs, hcall, rfl⟩ := hcall
    exact h.call_mem _ ih r hr s hs hcall

theorem Performs.reaches {s : Step} (h : sys.Performs s) (hcall : s.isCall = true) :
    sys.Reaches sys.initial s.call := by
  obtain ⟨p, hp, r, hr, hs⟩ := h
  exact hp.tail ⟨r, hr, s, hs, hcall, rfl⟩

theorem ne_nil_of_checkRules {defined : List Name} {i : Nat} {rules : List Rule}
    (h : checkRules defined p i rules = .ok ()) : ∀ r ∈ rules, r ≠ [] := by
  induction rules generalizing i with
  | nil => simp
  | cons r rest ih =>
    unfold checkRules at h
    split at h
    · cases h
    · rename_i hempty
      obtain ⟨_, -, hrest⟩ := Fold.bind_eq_ok.mp h
      intro r' hr'
      rcases List.mem_cons.mp hr' with rfl | hr'
      · simpa using hempty
      · exact ih hrest r' hr'

theorem rule_ne_nil (h : sys.validate = .ok ()) (hp : p ∈ sys.processes) :
    ∀ r ∈ sys.rules p, r ≠ [] := by
  unfold validate at h
  simp only [Fold.bind_eq_ok] at h
  obtain ⟨_, -, _, -, _, hrules, -⟩ := h
  exact ne_nil_of_checkRules (forM_eq_ok hrules p hp)

/-! ### Starting elsewhere -/

theorem visitFirstCalls_startAt (sys : ProcessSystem) (p : Name) (fuel : Nat) :
    visitFirstCalls (sys.startAt p) fuel = visitFirstCalls sys fuel := by
  induction fuel with
  | zero => rfl
  | succ fuel ih =>
    funext active done q
    simp only [visitFirstCalls, ih]
    rfl

theorem mem_ne_empty_of_checkNames {seen ps : List Name} (h : checkNames seen ps = .ok ()) :
    ∀ p ∈ ps, p ≠ "" := by
  induction ps generalizing seen with
  | nil => simp
  | cons q ps ih =>
    unfold checkNames at h
    split at h
    · cases h
    · rename_i hq
      split at h
      · cases h
      · intro p hp
        rcases List.mem_cons.mp hp with rfl | hp
        · exact hq
        · exact ih h p hp

/-- A valid system stays valid when it starts at another one of its processes. -/
theorem validate_startAt (h : sys.validate = .ok ()) (hp : p ∈ sys.processes) :
    (sys.startAt p).validate = .ok () := by
  unfold validate at h ⊢
  simp only [Fold.bind_eq_ok] at h ⊢
  obtain ⟨u, hnames, v, -, w, hrules, hguarded⟩ := h
  have hinitial : (sys.startAt p).checkInitial = .ok () := by
    have hne : p ≠ "" := mem_ne_empty_of_checkNames hnames p hp
    simp [checkInitial, startAt, hne, hp]
  refine ⟨u, hnames, v, hinitial, w, hrules, ?_⟩
  rw [checkGuarded, visitFirstCalls_startAt]
  exact hguarded

end ProcessSystem

namespace Graph

variable {sys : ProcessSystem} {g g' g'' : Graph} {p q : Name} {u v w source : Nat}

/-! ### Frames -/

/-- A later graph has the states of an earlier one, and also its edges, except that states
in `C` may have got more of them. -/
structure Keeps (C : Set Nat) (g g' : Graph) : Prop where
  states : ∀ (v : Nat) s, g.states[v]? = some s → g'.states[v]? = some s
  out : ∀ (v : Nat) es, v ∉ C → g.out[v]? = some es → g'.out[v]? = some es
  entry : ∀ p v, g.entry? p = some v → g'.entry? p = some v
  exit : ∀ p v, g.exit? p = some v → g'.exit? p = some v

theorem Keeps.refl (C : Set Nat) (g : Graph) : Keeps C g g :=
  ⟨fun _ _ h => h, fun _ _ _ h => h, fun _ _ h => h, fun _ _ h => h⟩

theorem Keeps.trans {C C₁ C₂ : Set Nat} (h : Keeps C₁ g g') (h' : Keeps C₂ g' g'')
    (hC : ∀ v < g.out.size, v ∈ C₁ ∨ v ∈ C₂ → v ∈ C) : Keeps C g g'' := by
  refine ⟨fun v s hs => h'.states v s (h.states v s hs), fun v es hv hes => ?_,
    fun p v hv => h'.entry p v (h.entry p v hv), fun p v hv => h'.exit p v (h.exit p v hv)⟩
  have hlt := (Array.getElem?_eq_some_iff.mp hes).1
  have hes' := h.out v es (fun hv' => hv (hC v hlt (.inl hv'))) hes
  exact h'.out v es (fun hv' => hv (hC v hlt (.inr hv'))) hes'

/-- What changes nothing that exists can come first. -/
theorem Keeps.after {C : Set Nat} (h : Keeps ∅ g g') (h' : Keeps C g' g'') : Keeps C g g'' :=
  h.trans h' (by simp)

theorem Keeps.lt {C : Set Nat} (h : Keeps C g g') (hv : v < g.size) : v < g'.size :=
  (Array.getElem?_eq_some_iff.mp (h.states v _ (Array.getElem?_eq_getElem hv))).1

theorem keeps_addState (g : Graph) (s : State) : Keeps ∅ g (g.addState s) := by
  refine ⟨fun v t ht => ?_, fun v es _ hes => ?_, fun _ _ h => h, fun _ _ h => h⟩
  · rw [states_addState (Array.getElem?_eq_some_iff.mp ht).1, ht]
  · have hlt := (Array.getElem?_eq_some_iff.mp hes).1
    rw [Graph.addState, Array.getElem?_push, if_neg (by omega), hes]

theorem keeps_addEdge (g : Graph) (source target : Nat) (step : Step) :
    Keeps {source} g (g.addEdge source target step) := by
  refine ⟨fun _ _ h => h, fun v es hv hes => ?_, fun _ _ h => h, fun _ _ h => h⟩
  have hne : source ≠ v := fun heq => hv heq.symm
  rw [Graph.addEdge, Array.getElem?_modify, if_neg hne, hes]

theorem lookup_append_of_some {l m : List (Name × Nat)} (h : l.lookup p = some v) :
    (l ++ m).lookup p = some v := by
  rw [List.lookup_append, h, Option.some_or]

theorem keeps_addProcess (sys : ProcessSystem) (g : Graph) (p : Name) :
    Keeps ∅ g (addProcess sys g p) := by
  let entry : State :=
    { id := g.size, process := p, place := .entry, props := ByteString.sorted (sys.props p) }
  let exit : State := { id := g.size + 1, process := p, place := .exit }
  have h := (keeps_addState g entry).after (keeps_addState (g.addState entry) exit)
  exact ⟨h.states, h.out, fun _ _ => lookup_append_of_some, fun _ _ => lookup_append_of_some⟩

/-- The last two states are the entry and the exit of the new process, without edges. -/
theorem ends_addProcess (sys : ProcessSystem) (hout : g.out.size = g.size) (p : Name) :
    (∃ s, (addProcess sys g p).states[g.size]? = some s ∧ s.place = .entry ∧ s.process = p ∧
        s.props = ByteString.sorted (sys.props p)) ∧
      (addProcess sys g p).out[g.size]? = some [] ∧
      ∃ s, (addProcess sys g p).states[g.size + 1]? = some s ∧ s.place = .exit := by
  let entry : State :=
    { id := g.size, process := p, place := .entry, props := ByteString.sorted (sys.props p) }
  let exit : State := { id := g.size + 1, process := p, place := .exit }
  have hsize : (g.addState entry).size = g.size + 1 := size_addState g entry
  refine ⟨⟨entry, ?_, rfl, rfl, rfl⟩, ?_, exit, ?_, rfl⟩
  · have hlt : g.size < (g.addState entry).size := by omega
    exact (states_addState hlt).trans (states_addState_self g entry)
  · show ((g.out.push []).push [])[g.size]? = some []
    rw [Array.getElem?_push, Array.size_push, if_neg (by omega), Array.getElem?_push,
      if_pos hout.symm]
  · rw [← hsize]
    exact states_addState_self (g.addState entry) exit

/-! ### Rules in a graph -/

/-- From state `v` on, the steps lie on a chain of positions that ends in an exit. -/
def Spells (g : Graph) : List Step → Nat → Prop
  | [], v => ∃ s, g.states[v]? = some s ∧ s.place = .exit
  | step :: rest, v => ∃ s e, g.states[v]? = some s ∧ s.place = .position ∧ s.props = [] ∧
      g.out[v]? = some [e] ∧ e.step = step ∧ Spells g rest e.target

theorem Spells.exists_state {g : Graph} {steps : List Step} {v : Nat} (h : g.Spells steps v) :
    ∃ s, g.states[v]? = some s := by
  cases steps with
  | nil =>
    obtain ⟨s, hs, -⟩ := h
    exact ⟨s, hs⟩
  | cons step rest =>
    obtain ⟨s, -, hs, -⟩ := h
    exact ⟨s, hs⟩

/-- An edge is the first step of a rule, whose other steps lie behind it. -/
def Begins (g : Graph) (e : Edge) (r : Rule) : Prop :=
  ∃ rest, r = e.step :: rest ∧ g.Spells rest e.target

/-- State `v` is the entry of process `p`, and the given rules lie behind it. -/
structure Entered (sys : ProcessSystem) (g : Graph) (p : Name) (rules : List Rule) (v : Nat) :
    Prop where
  state : ∃ s, g.states[v]? = some s ∧ s.place = .entry ∧ s.process = p ∧
    s.props = ByteString.sorted (sys.props p)
  exit : ∃ w, g.exit? p = some w ∧ g.Spells [] w
  rules : ∃ es, g.out[v]? = some es ∧ List.Forall₂ g.Begins es rules

/-- More edges can be added to state `v` for process `p`: it is the entry of `p`, or a
position without edges. -/
structure Open (g : Graph) (p : Name) (v : Nat) (es : List Edge) : Prop where
  state : ∃ s, g.states[v]? = some s ∧
    (s.place = .entry ∧ s.process = p ∨ s.place = .position ∧ s.props = [] ∧ es = [])
  out : g.out[v]? = some es

variable {es : List Edge} {steps : List Step} {rules : List Rule}

theorem Open.not_spells (h : g.Open p v es) : ¬ g.Spells steps v := by
  obtain ⟨s, hs, hplace⟩ := h.state
  cases steps with
  | nil =>
    rintro ⟨t, ht, hexit⟩
    obtain rfl : s = t := Option.some.inj (hs.symm.trans ht)
    rcases hplace with ⟨hplace, -⟩ | ⟨hplace, -⟩ <;> simp [hplace] at hexit
  | cons step rest =>
    rintro ⟨t, e, ht, hposition, -, hout, -⟩
    obtain rfl : s = t := Option.some.inj (hs.symm.trans ht)
    rcases hplace with ⟨hplace, -⟩ | ⟨-, -, rfl⟩
    · simp [hplace] at hposition
    · simpa using h.out.symm.trans hout

theorem Open.ne_of_entered (h : g.Open p v es) (hq : q ≠ p) (hw : g.Entered sys q rules w) :
    w ≠ v := by
  rintro rfl
  obtain ⟨s, hs, hplace⟩ := h.state
  obtain ⟨t, ht, hentry, hprocess, -⟩ := hw.state
  obtain rfl : s = t := Option.some.inj (hs.symm.trans ht)
  rcases hplace with ⟨-, hp⟩ | ⟨hplace, -⟩
  · exact hq (hprocess.symm.trans hp)
  · simp [hplace] at hentry

theorem Open.keep {C : Set Nat} (hkeeps : Keeps C g g') (hv : v ∉ C) (h : g.Open p v es) :
    g'.Open p v es := by
  obtain ⟨s, hs, hplace⟩ := h.state
  exact ⟨⟨s, hkeeps.states v s hs, hplace⟩, hkeeps.out v es hv h.out⟩

theorem Open.lt (h : g.Open p v es) : v < g.size := by
  obtain ⟨s, hs, -⟩ := h.state
  exact (Array.getElem?_eq_some_iff.mp hs).1

theorem Open.out_addEdge (h : g.Open p source es) (target : Nat) (step : Step) :
    (g.addEdge source target step).out[source]? = some (es ++ [⟨source, target, step⟩]) := by
  rw [Graph.addEdge, Array.getElem?_modify, if_pos rfl, h.out, Option.map_some]

theorem open_addState (hout : g.out.size = g.size) {t : State} (hplace : t.place = .position)
    (hprops : t.props = []) : (g.addState t).Open p g.size [] := by
  refine ⟨⟨t, states_addState_self g t, .inr ⟨hplace, hprops, rfl⟩⟩, ?_⟩
  rw [Graph.addState, Array.getElem?_push, if_pos hout.symm]

/-- No chain passes through the states whose edges change. -/
theorem Spells.keep {C : Set Nat} (hkeeps : Keeps C g g')
    (hC : ∀ u ∈ C, ∀ steps, ¬ g.Spells steps u) (h : g.Spells steps v) : g'.Spells steps v := by
  induction steps generalizing v with
  | nil =>
    obtain ⟨s, hs, hplace⟩ := h
    exact ⟨s, hkeeps.states v s hs, hplace⟩
  | cons step rest ih =>
    have hv : v ∉ C := fun hv => hC v hv _ h
    obtain ⟨s, e, hs, hplace, hprops, hout, hstep, hrest⟩ := h
    exact ⟨s, e, hkeeps.states v s hs, hplace, hprops, hkeeps.out v [e] hv hout, hstep, ih hrest⟩

theorem Begins.keep {C : Set Nat} (hkeeps : Keeps C g g')
    (hC : ∀ u ∈ C, ∀ steps, ¬ g.Spells steps u) {e : Edge} {r : Rule} (h : g.Begins e r) :
    g'.Begins e r := by
  obtain ⟨rest, hr, hrest⟩ := h
  exact ⟨rest, hr, hrest.keep hkeeps hC⟩

theorem Entered.keep {C : Set Nat} (hkeeps : Keeps C g g')
    (hC : ∀ u ∈ C, ∀ steps, ¬ g.Spells steps u) (hv : v ∉ C) (h : g.Entered sys p rules v) :
    g'.Entered sys p rules v := by
  obtain ⟨s, hs, hplace⟩ := h.state
  obtain ⟨w, hw, hexit⟩ := h.exit
  obtain ⟨es, hes, hrules⟩ := h.rules
  exact ⟨⟨s, hkeeps.states v s hs, hplace⟩, ⟨w, hkeeps.exit p w hw, hexit.keep hkeeps hC⟩,
    es, hkeeps.out v es hv hes, hrules.imp fun _ _ hb => hb.keep hkeeps hC⟩

theorem exists_left_of_forall₂ {α β : Type} {R : α → β → Prop} {l : List α} {m : List β}
    (h : List.Forall₂ R l m) {b : β} (hb : b ∈ m) : ∃ a ∈ l, R a b := by
  induction h with
  | nil => cases hb
  | @cons a c l m hac _ ih =>
    rcases List.mem_cons.mp hb with rfl | hb
    · exact ⟨a, List.mem_cons_self .., hac⟩
    · obtain ⟨a', ha', hR⟩ := ih hb
      exact ⟨a', List.mem_cons_of_mem _ ha', hR⟩

theorem Spells.exists_edge (h : g.Spells steps v) : ∀ s ∈ steps,
    ∃ (u : Nat) (es : List Edge) (e : Edge), g.out[u]? = some es ∧ e ∈ es ∧ e.step = s := by
  induction steps generalizing v with
  | nil => simp
  | cons step rest ih =>
    obtain ⟨-, e, -, -, -, hout, hstep, hrest⟩ := h
    intro s hs
    rcases List.mem_cons.mp hs with rfl | hs
    · exact ⟨v, [e], e, hout, List.mem_singleton_self e, hstep⟩
    · exact ih hrest s hs

theorem Entered.exists_edge (h : g.Entered sys p rules v) {r : Rule} (hr : r ∈ rules) :
    ∀ s ∈ r, ∃ (u : Nat) (es : List Edge) (e : Edge),
      g.out[u]? = some es ∧ e ∈ es ∧ e.step = s := by
  obtain ⟨es, hes, hrules⟩ := h.rules
  obtain ⟨e, he, rest, rfl, hrest⟩ := exists_left_of_forall₂ hrules hr
  intro s hs
  rcases List.mem_cons.mp hs with rfl | hs
  · exact ⟨v, es, e, hes, he, rfl⟩
  · exact hrest.exists_edge s hs

/-! ### Building the layout -/

/-- The rules of a process that are laid out once the processes in `done` are. -/
def laidRules (sys : ProcessSystem) (done : List Name) (p : Name) : List Rule :=
  if p ∈ done then sys.rules p else []

/-- A graph under construction. The processes in `done` have been taken from the queue. All
processes but those in `C` have their rules laid out if they have been taken from the
queue, and have none otherwise. -/
structure Expansion.Stage (sys : ProcessSystem) (done : List Name) (C : Set Name)
    (x : Expansion) : Prop where
  wellFormed : x.graph.WellFormed
  entered : ∀ p v, p ∉ C → x.graph.entry? p = some v →
    x.graph.Entered sys p (laidRules sys done p) v
  exits : ∀ p w, x.graph.exit? p = some w → x.graph.Spells [] w
  known : ∀ p, (x.graph.entry? p).isSome = true ↔ p ∈ done ++ x.queue
  nodup : (done ++ x.queue).Nodup
  initial : sys.initial ∈ done ++ x.queue
  reached : ∀ p ∈ done ++ x.queue, sys.Reaches sys.initial p
  performs : ∀ (v : Nat) es, x.graph.out[v]? = some es → ∀ e ∈ es, sys.Performs e.step

namespace Expansion

variable {x : Expansion} {done : List Name} {C : Set Name} {s : Step}

theorem spells_nil_addProcess (hout : g.out.size = g.size)
    (hexits : ∀ q w, g.exit? q = some w → g.Spells [] w) :
    ∀ q w, (addProcess sys g p).exit? q = some w → (addProcess sys g p).Spells [] w := by
  intro q w hw
  have hkeeps := keeps_addProcess sys g p
  cases hq : g.exit? q with
  | some w' =>
    obtain rfl : w' = w := Option.some.inj ((hkeeps.exit q w' hq).symm.trans hw)
    exact (hexits q w' hq).keep hkeeps (by simp)
  | none =>
    have hlookup : (g.exit ++ [(p, g.size + 1)]).lookup q = some w := hw
    rw [List.lookup_append, show g.exit.lookup q = none from hq, Option.none_or] at hlookup
    obtain ⟨rfl, rfl⟩ : q = p ∧ w = g.size + 1 := by simpa using lookup_mem hlookup
    exact (ends_addProcess sys hout q).2.2

theorem entered_addProcess (sys : ProcessSystem) (hout : g.out.size = g.size)
    (hnew : g.entry? p = none) (hexits : ∀ q w, g.exit? q = some w → g.Spells [] w) :
    Graph.entry? (addProcess sys g p) p = some g.size ∧
      (addProcess sys g p).Entered sys p [] g.size := by
  have hentry : (g.entry ++ [(p, g.size)]).lookup p = some g.size := by
    rw [List.lookup_append, show g.entry.lookup p = none from hnew]
    simp
  obtain ⟨w, hw⟩ : ∃ w, (addProcess sys g p).exit? p = some w :=
    Option.isSome_iff_exists.mp (lookup_append_isSome (.inr (by simp)))
  obtain ⟨hstate, hedges, -⟩ := ends_addProcess sys hout p
  exact ⟨hentry, hstate, ⟨w, hw, spells_nil_addProcess hout hexits p w hw⟩, [], hedges, .nil⟩

theorem entry?_addProcess_of_ne (hq : q ≠ p) :
    Graph.entry? (addProcess sys g p) q = g.entry? q := by
  show (g.entry ++ [(p, g.size)]).lookup q = g.entry.lookup q
  rw [List.lookup_append, List.lookup_cons, beq_false_of_ne hq, List.lookup_nil, Option.or_none]

theorem out_addProcess {e : Edge} (hes : (addProcess sys g p).out[v]? = some es) (he : e ∈ es) :
    g.out[v]? = some es := by
  let entry : State :=
    { id := g.size, process := p, place := .entry, props := ByteString.sorted (sys.props p) }
  let exit : State := { id := g.size + 1, process := p, place := .exit }
  have hes' : ((g.addState entry).addState exit).out[v]? = some es := hes
  exact mem_out_addState (mem_out_addState hes' he) he

theorem keeps_discover (sys : ProcessSystem) (x : Expansion) (s : Step) :
    Keeps ∅ x.graph (x.discover sys s).graph := by
  unfold discover
  split
  · exact keeps_addProcess sys x.graph s.call
  · exact .refl ∅ x.graph

/-- A called process that is new gets its states, and waits in the queue. -/
theorem Stage.discover (h : x.Stage sys done C) (hs : sys.Performs s) :
    (x.discover sys s).Stage sys done C := by
  have hwf := (discover_wellFormed sys h.wellFormed s).1
  have hkeeps := keeps_discover sys x s
  unfold Expansion.discover at hwf hkeeps ⊢
  split
  · rename_i hnew
    rw [if_pos hnew] at hwf hkeeps
    obtain ⟨hcall, hnone⟩ := hnew
    rw [Option.isNone_iff_eq_none] at hnone
    have hfresh : s.call ∉ done ++ x.queue := by
      rw [← h.known, hnone]
      simp
    have hout := h.wellFormed.out_size
    obtain ⟨hentry, hentered⟩ := entered_addProcess sys hout hnone h.exits
    have hmem {p : Name} :
        p ∈ done ++ (x.queue ++ [s.call]) ↔ p ∈ done ++ x.queue ∨ p = s.call := by
      simp [or_assoc]
    refine ⟨hwf, fun p v hp hv => ?_, spells_nil_addProcess hout h.exits, fun p => ?_, ?_,
      hmem.mpr (.inl h.initial), fun p hp => ?_,
      fun v es hes e he => h.performs v es (out_addProcess hes he) e he⟩
    · by_cases hps : p = s.call
      · subst hps
        obtain rfl := Option.some.inj (hentry.symm.trans hv)
        have hdone : s.call ∉ done := fun hmem => hfresh (List.mem_append_left _ hmem)
        rwa [laidRules, if_neg hdone]
      · rw [entry?_addProcess_of_ne hps] at hv
        exact (h.entered p v hp hv).keep hkeeps (by simp) (by simp)
    · rw [hmem, ← h.known]
      by_cases hps : p = s.call
      · simp [hps, hentry]
      · rw [entry?_addProcess_of_ne hps]
        simp [hps]
    · rw [← List.append_assoc]
      refine List.nodup_append.mpr ⟨h.nodup, by simp, fun p hp q hq => ?_⟩
      obtain rfl := List.mem_singleton.mp hq
      exact fun heq => hfresh (heq ▸ hp)
    · rcases hmem.mp hp with hp | rfl
      · exact h.reached p hp
      · exact hs.reaches hcall
  · exact h

/-- Adding edges to a state that is open for a process in `C`. -/
theorem Stage.setGraph (h : x.Stage sys done C) (hwf : g.WellFormed)
    (hkeeps : Keeps {source} x.graph g) (hentry : g.entry = x.graph.entry)
    (hexit : g.exit = x.graph.exit) (hp : p ∈ C) (hopen : x.graph.Open p source es)
    (hperforms : ∀ (v : Nat) es, g.out[v]? = some es → ∀ e ∈ es, sys.Performs e.step) :
    Stage sys done C { x with graph := g } := by
  have hC : ∀ u ∈ ({source} : Set Nat), ∀ steps, ¬ x.graph.Spells steps u := by
    rintro u rfl steps
    exact hopen.not_spells
  have hsame (q : Name) : g.entry? q = x.graph.entry? q := congrArg (List.lookup q) hentry
  refine ⟨hwf, fun q v hq hv => ?_, fun q w hw => ?_, fun q => ?_, h.nodup, h.initial,
    h.reached, hperforms⟩
  · rw [hsame] at hv
    have hentered := h.entered q v hq hv
    have hne : q ≠ p := fun heq => hq (heq ▸ hp)
    exact hentered.keep hkeeps hC (hopen.ne_of_entered hne hentered)
  · rw [exit?, hexit] at hw
    exact (h.exits q w hw).keep hkeeps hC
  · rw [hsame]
    exact h.known q

theorem performs_addEdge (h : ∀ (v : Nat) es, g.out[v]? = some es → ∀ e ∈ es, sys.Performs e.step)
    (hs : sys.Performs s) (source target : Nat) :
    ∀ (v : Nat) es, (g.addEdge source target s).out[v]? = some es →
      ∀ e ∈ es, sys.Performs e.step := by
  intro v es hes e he
  rcases mem_out_addEdge hes he with ⟨es', hes', he⟩ | ⟨-, rfl⟩
  · exact h v es' hes' e he
  · exact hs

/-- Laying out a rule from an open state on: the state gets one edge more, which begins the
rule, and nothing that lies elsewhere changes. -/
theorem Stage.addSteps (h : x.Stage sys done C) (hp : p ∈ C) {w : Nat}
    (hexit : x.graph.exit? p = some w) (rule pos : Nat) (hopen : x.graph.Open p source es)
    {rest : List Step} (hsteps : ∀ t ∈ s :: rest, sys.Performs t) :
    (addSteps sys p rule pos source (s :: rest) x).Stage sys done C ∧
      Keeps {source} x.graph (addSteps sys p rule pos source (s :: rest) x).graph ∧
      ∃ e, (addSteps sys p rule pos source (s :: rest) x).graph.out[source]? = some (es ++ [e]) ∧
        (addSteps sys p rule pos source (s :: rest) x).graph.Begins e (s :: rest) := by
  induction rest generalizing x s pos source es with
  | nil =>
    have hs := hsteps s (List.mem_cons_self ..)
    have hd := h.discover hs
    have hcallee := (discover_wellFormed sys h.wellFormed s).2
    have hkeeps := keeps_discover sys x s
    simp only [Expansion.addSteps]
    generalize x.discover sys s = d at *
    have hopen' := hopen.keep hkeeps (Set.notMem_empty _)
    have hexit' := hkeeps.exit p w hexit
    have hlt := hd.wellFormed.exit?_getD_lt p
    simp only [hexit', Option.getD_some] at hlt ⊢
    have hedge := keeps_addEdge d.graph source w s
    have hstage := hd.setGraph (hd.wellFormed.addEdge hlt hcallee) hedge rfl rfl hp hopen'
      (performs_addEdge hd.performs hs source w)
    exact ⟨hstage, hkeeps.after hedge, ⟨source, w, s⟩, hopen'.out_addEdge w s, [], rfl,
      hstage.exits p w hexit'⟩
  | cons s' rest ih =>
    have hs := hsteps s (List.mem_cons_self ..)
    have hd := h.discover hs
    have hcallee := (discover_wellFormed sys h.wellFormed s).2
    have hkeeps := keeps_discover sys x s
    simp only [Expansion.addSteps]
    generalize x.discover sys s = d at *
    have hopen' := hopen.keep hkeeps (Set.notMem_empty _)
    let between : State := { id := d.graph.size, process := p, place := .position, rule, pos }
    have hlast : d.graph.size < (d.graph.addState between).size := by
      rw [size_addState]
      omega
    have hstate := keeps_addState d.graph between
    have hedge := keeps_addEdge (d.graph.addState between) source d.graph.size s
    have hstage := hd.setGraph ((hd.wellFormed.addState (s := between) rfl).addEdge hlast hcallee)
      (hstate.after hedge) rfl rfl hp hopen'
      (performs_addEdge (fun v es hes e he => hd.performs v es (mem_out_addState hes he) e he) hs
        source d.graph.size)
    have hne : source ≠ d.graph.size := Nat.ne_of_lt hopen'.lt
    have hnext := (open_addState (p := p) (t := between) hd.wellFormed.out_size rfl rfl).keep hedge
      (Ne.symm hne)
    obtain ⟨hlater, hframe, e, he, hbegins⟩ := ih hstage (hkeeps.exit p w hexit) (pos + 1) hnext
      fun t ht => hsteps t (List.mem_cons_of_mem _ ht)
    have hwhole := (hkeeps.after (hstate.after hedge)).trans (C := {source}) hframe (by
      intro v hv hmem
      have hlt := hkeeps.lt (h.wellFormed.out_size ▸ hv)
      exact hmem.resolve_right (Nat.ne_of_lt hlt))
    have hout := (hopen'.keep hstate (Set.notMem_empty _)).out_addEdge d.graph.size s
    refine ⟨hlater, hwhole, ⟨source, d.graph.size, s⟩, hframe.out source _ hne hout, s' :: rest,
      rfl, ?_⟩
    obtain ⟨rest', hrest', hspells⟩ := hbegins
    obtain ⟨hstep, rfl⟩ := List.cons.inj hrest'
    exact ⟨between, e, hframe.states _ _ (states_addState_self d.graph between), rfl, rfl, he,
      hstep.symm, hspells⟩

theorem Stage.addRules (h : x.Stage sys done C) (hp : p ∈ C) (hentry : x.graph.entry? p = some v)
    {before : List Rule} (hv : x.graph.Entered sys p before v) (rule : Nat) (rules : List Rule)
    (hrules : ∀ r ∈ rules, r ≠ [] ∧ ∀ s ∈ r, sys.Performs s) :
    (addRules sys p rule rules x).Stage sys done C ∧
      (addRules sys p rule rules x).graph.entry? p = some v ∧
      (addRules sys p rule rules x).graph.Entered sys p (before ++ rules) v := by
  induction rules generalizing x before rule with
  | nil => exact ⟨h, hentry, by rwa [List.append_nil]⟩
  | cons r rest ih =>
    obtain ⟨hne, hperforms⟩ := hrules r (List.mem_cons_self ..)
    obtain ⟨s, steps, rfl⟩ := List.exists_cons_of_ne_nil hne
    obtain ⟨t, ht, hplace, hprocess, hprops⟩ := hv.state
    obtain ⟨w, hw, hexit⟩ := hv.exit
    obtain ⟨es, hes, hbefore⟩ := hv.rules
    have hopen : x.graph.Open p v es := ⟨⟨t, ht, .inl ⟨hplace, hprocess⟩⟩, hes⟩
    have hC : ∀ u ∈ ({v} : Set Nat), ∀ steps, ¬ x.graph.Spells steps u := by
      rintro u rfl steps
      exact hopen.not_spells
    obtain ⟨hstage, hkeeps, e, he, hbegins⟩ := h.addSteps hp hw rule 0 hopen hperforms
    have hentered : (Expansion.addSteps sys p rule 0 v (s :: steps) x).graph.Entered sys p
        (before ++ [s :: steps]) v := by
      refine ⟨⟨t, hkeeps.states v t ht, hplace, hprocess, hprops⟩,
        ⟨w, hkeeps.exit p w hw, hexit.keep hkeeps hC⟩, es ++ [e], he, ?_⟩
      exact List.rel_append (hbefore.imp fun _ _ hb => hb.keep hkeeps hC) (.cons hbegins .nil)
    obtain ⟨hlater, hentry', hall⟩ := ih hstage (hkeeps.entry p v hentry) hentered (rule + 1)
      fun r hr => hrules r (List.mem_cons_of_mem _ hr)
    rw [Expansion.addRules, hentry, Option.getD_some]
    rw [List.append_assoc] at hall
    exact ⟨hlater, hentry', hall⟩

/-- The first process of the queue is taken from it and laid out. -/
theorem Stage.next (hsys : sys.validate = .ok ()) (h : x.Stage sys done ∅) {queue : List Name}
    (hq : x.queue = p :: queue) :
    (Expansion.addRules sys p 0 (sys.rules p) { x with queue }).Stage sys (p :: done) ∅ := by
  have hperm : (p :: done ++ queue).Perm (done ++ p :: queue) := List.perm_middle.symm
  have hnodup := h.nodup
  have hknown := h.known
  have hinitial := h.initial
  have hreached := h.reached
  rw [hq] at hnodup hknown hinitial hreached
  have hp : p ∉ done := (List.nodup_cons.mp (hperm.nodup_iff.mpr hnodup)).1 ∘ List.mem_append_left _
  have hstage : Stage sys (p :: done) {p} { x with queue } := by
    refine ⟨h.wellFormed, fun q v hqp hv => ?_, h.exits, fun q => ?_, hperm.nodup_iff.mpr hnodup,
      hperm.mem_iff.mpr hinitial, fun q hq => hreached q (hperm.mem_iff.mp hq), h.performs⟩
    · have hmem : q ∈ p :: done ↔ q ∈ done := List.mem_cons.trans (or_iff_right hqp)
      simp only [laidRules, hmem]
      exact h.entered q v (Set.notMem_empty q) hv
    · exact (hknown q).trans hperm.mem_iff.symm
  have hreach := hreached p (by simp)
  have hmem := (ProcessSystem.accepted_of_validate hsys).mem_of_reaches
    (ProcessSystem.accepted_of_validate hsys).initial_mem hreach
  obtain ⟨v, hv⟩ := Option.isSome_iff_exists.mp ((hknown p).mpr (by simp))
  have hentered := h.entered p v (Set.notMem_empty p) hv
  rw [laidRules, if_neg hp] at hentered
  obtain ⟨hlaid, hentry, hrules⟩ := hstage.addRules rfl hv hentered 0 (sys.rules p)
    fun r hr => ⟨ProcessSystem.rule_ne_nil hsys hmem r hr, fun s hs => ⟨p, hreach, r, hr, hs⟩⟩
  refine { hlaid with entered := fun q u _ hu => ?_ }
  by_cases hqp : q = p
  · subst hqp
    obtain rfl : v = u := Option.some.inj (hentry.symm.trans hu)
    rwa [laidRules, if_pos (List.mem_cons_self ..)]
  · exact hlaid.entered q u hqp hu

/-- With one round for each process that is not done yet, the queue runs empty. -/
theorem Stage.run (hsys : sys.validate = .ok ()) (h : x.Stage sys done ∅) (fuel : Nat)
    (hfuel : sys.processes.length ≤ done.length + fuel) :
    ∃ done', (x.run sys fuel).Stage sys done' ∅ ∧ (x.run sys fuel).queue = [] := by
  induction fuel generalizing x done with
  | zero =>
    have hacc := ProcessSystem.accepted_of_validate hsys
    have hsub : done ++ x.queue ⊆ sys.processes := fun p hp =>
      hacc.mem_of_reaches hacc.initial_mem (h.reached p hp)
    have hle := (h.nodup.subperm hsub).length_le
    rw [List.length_append] at hle
    have hempty : x.queue.length = 0 := by omega
    exact ⟨done, h, List.eq_nil_of_length_eq_zero hempty⟩
  | succ fuel ih =>
    unfold Expansion.run
    split
    · rename_i hq
      exact ⟨done, h, hq⟩
    · rename_i p queue hq
      apply ih (h.next hsys hq)
      rw [List.length_cons]
      omega

theorem stage_start (sys : ProcessSystem) :
    Stage sys [] ∅ { graph := addProcess sys {} sys.initial, queue := [sys.initial] } := by
  have hexits : ∀ q w, Graph.exit? {} q = some w → Graph.Spells {} [] w := by
    intro q w hw
    cases hw
  obtain ⟨hentry, hentered⟩ := entered_addProcess sys (p := sys.initial) rfl rfl hexits
  have hnone {q : Name} (hq : q ≠ sys.initial) :
      Graph.entry? (addProcess sys {} sys.initial) q = none :=
    entry?_addProcess_of_ne hq
  refine ⟨wellFormed_start sys sys.initial, fun q v _ hv => ?_, spells_nil_addProcess rfl hexits,
    fun q => ?_, by simp, by simp, fun q hq => ?_, fun v es hes e he => ?_⟩
  · by_cases hq : q = sys.initial
    · subst hq
      obtain rfl := Option.some.inj (hentry.symm.trans hv)
      exact hentered
    · simp [hnone hq] at hv
  · by_cases hq : q = sys.initial
    · simp [hq, hentry]
    · simp [hq, hnone hq]
  · obtain rfl : q = sys.initial := by simpa using hq
    exact .refl
  · have hempty := out_addProcess hes he
    simp at hempty

end Expansion

/-- What the expansion of a system consists of. -/
structure Expanded (sys : ProcessSystem) (g : Graph) : Prop where
  wellFormed : g.WellFormed
  entered : ∀ p v, g.entry? p = some v → g.Entered sys p (sys.rules p) v
  known : ∀ p, (g.entry? p).isSome = true ↔ sys.Reaches sys.initial p
  initial : g.entry? sys.initial = some g.initial
  performs : ∀ (v : Nat) es, g.out[v]? = some es → ∀ e ∈ es, sys.Performs e.step

theorem ofSystem_expanded (hsys : sys.validate = .ok ()) : Expanded sys (ofSystem sys) := by
  let start : Expansion := { graph := addProcess sys {} sys.initial, queue := [sys.initial] }
  obtain ⟨done, h, hempty⟩ := (Expansion.stage_start sys).run hsys sys.processes.length
    (by simp)
  have hdone (p : Name) : (Graph.entry? (ofSystem sys) p).isSome = true ↔ p ∈ done := by
    have hknown := h.known p
    rwa [hempty, List.append_nil] at hknown
  have hkeeps : Keeps ∅ (start.run sys sys.processes.length).graph (ofSystem sys) :=
    ⟨fun _ _ h => h, fun _ _ _ h => h, fun _ _ h => h, fun _ _ h => h⟩
  have hentered (p : Name) (v : Nat) (hv : Graph.entry? (ofSystem sys) p = some v) :
      (ofSystem sys).Entered sys p (sys.rules p) v := by
    have hlaid := (h.entered p v (Set.notMem_empty p) hv).keep hkeeps (by simp) (by simp)
    have hp : p ∈ done := (hdone p).mp (by simp [hv])
    rwa [laidRules, if_pos hp] at hlaid
  have hwf := (ofSystem_wellFormed sys).1
  have hinitial : (Graph.entry? (ofSystem sys) sys.initial).isSome = true := by
    have hmem := h.initial
    rw [hempty, List.append_nil] at hmem
    exact (hdone sys.initial).mpr hmem
  refine ⟨hwf, hentered, fun p => ⟨fun hp => ?_, fun hp => ?_⟩, ?_, h.performs⟩
  · exact h.reached p (List.mem_append_left _ ((hdone p).mp hp))
  · -- every call along the way is an edge, and its callee has an entry
    induction hp with
    | refl => exact hinitial
    | @tail p q _ hcalls ih =>
      obtain ⟨r, hr, s, hs, hcall, rfl⟩ := hcalls
      obtain ⟨v, hv⟩ := Option.isSome_iff_exists.mp ih
      obtain ⟨u, es, e, hes, he, rfl⟩ := (hentered p v hv).exists_edge hr s hs
      exact hwf.callee u es hes e he hcall
  · obtain ⟨v, hv⟩ := Option.isSome_iff_exists.mp hinitial
    have hdef : (ofSystem sys).initial = (Graph.entry? (ofSystem sys) sys.initial).getD 0 := rfl
    rw [hdef, hv, Option.getD_some]

end Graph

end MuProc
