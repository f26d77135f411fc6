import MuProc.Proofs.Guardedness
import Mathlib.Logic.Relation
import Mathlib.Order.Basic

/-!
# Valid systems

Validation accepts exactly the systems whose names, rules and steps are as they should be
and in which no process can call itself through first steps only. The search for such a call
keeps the processes on the way to the present one; all of them call it through first steps, so
meeting one of them again closes a cycle. If nothing else is wrong, the process of the error
lies on a cycle.
-/

namespace MuProc

namespace Fold

variable {α β ε : Type} {l : List α}

theorem then_eq_ok {γ : Type} {x : Except ε Unit} {y : Except ε γ} {c : γ} :
    (x >>= fun _ => y) = .ok c ↔ x = .ok () ∧ y = .ok c := by
  rw [bind_eq_ok]
  exact ⟨fun ⟨_, hx, hy⟩ => ⟨hx, hy⟩, fun ⟨hx, hy⟩ => ⟨(), hx, hy⟩⟩

/-- A fold that fails does so at one of the elements. -/
theorem foldlM_eq_error {f : β → α → Except ε β} {b : β} {e : ε} (h : l.foldlM f b = .error e) :
    ∃ a ∈ l, ∃ b', f b' a = .error e := by
  induction l generalizing b with
  | nil => cases h
  | cons a l ih =>
    rw [List.foldlM_cons] at h
    rcases bind_eq_error.mp h with ha | ⟨b', -, hl⟩
    · exact ⟨a, List.mem_cons_self .., b, ha⟩
    · obtain ⟨c, hc, hfail⟩ := ih hl
      exact ⟨c, List.mem_cons_of_mem _ hc, hfail⟩

theorem foldlM_congr_of_mem {f g : β → α → Except ε β} (h : ∀ a ∈ l, ∀ b, f b a = g b a) (b : β) :
    l.foldlM f b = l.foldlM g b := by
  induction l generalizing b with
  | nil => rfl
  | cons a l ih =>
    obtain ⟨ha, hl⟩ := List.forall_mem_cons.mp h
    have htail (b : β) : l.foldlM f b = l.foldlM g b := ih hl b
    simp only [List.foldlM_cons, ha, htail]

end Fold

namespace ProcessSystem

/-- What a step has to be like. -/
@[mk_iff] structure Sound (sys : ProcessSystem) (s : Step) : Prop where
  actionOrCall : Xor (s.action ≠ "") (s.call ≠ "")
  callee : s.isCall = true → s.call ∈ sys.processes
  kind : s.isCall = false → s.kind = .must ∨ s.kind = .may

/-- The conditions of validity, except that recursion is guarded. -/
structure WellFormed (sys : ProcessSystem) : Prop where
  name : ∀ p ∈ sys.processes, p ≠ ""
  nodup : sys.processes.Nodup
  initial_mem : sys.initial ∈ sys.processes
  rule : ∀ p ∈ sys.processes, ∀ r ∈ sys.rules p, r ≠ []
  step : ∀ p ∈ sys.processes, ∀ r ∈ sys.rules p, ∀ s ∈ r, sys.Sound s

/-- Some rule of the listed process `p` starts with a call of `q`. -/
def CallsFirst (sys : ProcessSystem) (p q : Name) : Prop :=
  p ∈ sys.processes ∧ ∃ r ∈ sys.rules p, ∃ s, r.head? = some s ∧ s.isCall = true ∧ s.call = q

/-- The process lies on a cycle of calls in first steps. -/
def OnCycle (sys : ProcessSystem) (p : Name) : Prop :=
  Relation.TransGen sys.CallsFirst p p

variable {sys : ProcessSystem} {p q : Name} {defined active done : List Name} {fuel : Nat}

/-! ### Names, rules and steps -/

theorem checkNames_eq_ok_iff {seen ps : List Name} : checkNames seen ps = .ok () ↔
    (∀ p ∈ ps, p ≠ "" ∧ p ∉ seen) ∧ ps.Nodup := by
  induction ps generalizing seen with
  | nil => simp [checkNames]
  | cons q ps ih =>
    rw [checkNames]
    by_cases hempty : q = ""
    · simp [hempty]
    by_cases hseen : q ∈ seen
    · simp [hempty, hseen]
    rw [if_neg hempty, if_neg hseen, ih, List.nodup_cons, List.forall_mem_cons]
    constructor
    · rintro ⟨hall, hnodup⟩
      have hq : q ∉ ps := fun hmem => (hall q hmem).2 (List.mem_cons_self ..)
      exact ⟨⟨⟨hempty, hseen⟩, fun p hp => ⟨(hall p hp).1, fun hmem =>
        (hall p hp).2 (List.mem_cons_of_mem _ hmem)⟩⟩, hq, hnodup⟩
    · rintro ⟨⟨-, hall⟩, hq, hnodup⟩
      refine ⟨fun p hp => ⟨(hall p hp).1, fun hmem => ?_⟩, hnodup⟩
      rcases List.mem_cons.mp hmem with rfl | hmem
      · exact hq hp
      · exact (hall p hp).2 hmem

theorem checkInitial_eq_ok_iff : sys.checkInitial = .ok () ↔
    sys.initial ≠ "" ∧ sys.initial ∈ sys.processes := by
  unfold checkInitial
  by_cases hempty : sys.initial = ""
  · simp [hempty]
  · by_cases hmem : sys.initial ∈ sys.processes
    · simp [hempty, hmem]
    · simp [hempty, hmem]

theorem stepFault_eq_none_iff {s : Step} : stepFault sys.processes s = none ↔ sys.Sound s := by
  rw [sound_iff, stepFault]
  by_cases hact : s.action = ""
  · by_cases hcall : s.call = "" <;> simp [Step.isCall, Xor, hact, hcall]
  · by_cases hcall : s.call = ""
    · cases hkind : s.kind <;> simp [Step.isCall, Xor, hact, hcall]
    · simp [Xor, hact, hcall]

theorem checkSteps_eq_ok_iff {i j : Nat} {steps : List Step} :
    checkSteps defined p i j steps = .ok () ↔ ∀ s ∈ steps, stepFault defined s = none := by
  induction steps generalizing j with
  | nil => simp [checkSteps]
  | cons s rest ih =>
    rw [checkSteps, List.forall_mem_cons]
    cases hfault : stepFault defined s with
    | none => simp [ih]
    | some cause => simp

theorem checkRules_eq_ok_iff {i : Nat} {rules : List Rule} :
    checkRules defined p i rules = .ok () ↔
      ∀ r ∈ rules, r ≠ [] ∧ ∀ s ∈ r, stepFault defined s = none := by
  induction rules generalizing i with
  | nil => simp [checkRules]
  | cons r rest ih =>
    rw [checkRules, List.forall_mem_cons]
    by_cases hempty : r = []
    · simp [hempty]
    · simp only [List.isEmpty_iff, hempty, if_false, Fold.then_eq_ok, checkSteps_eq_ok_iff, ih,
        ne_eq, not_false_eq_true, true_and]

/-- The checks in front of the search pass exactly if the system is well-formed. -/
theorem wellFormed_iff_checks : sys.WellFormed ↔ checkNames [] sys.processes = .ok () ∧
    sys.checkInitial = .ok () ∧
    (sys.processes.forM fun p => checkRules sys.processes p 0 (sys.rules p)) = .ok () := by
  have hrules : (sys.processes.forM fun p => checkRules sys.processes p 0 (sys.rules p)) = .ok () ↔
      ∀ p ∈ sys.processes, ∀ r ∈ sys.rules p, r ≠ [] ∧ ∀ s ∈ r, sys.Sound s := by
    have hrule (p : Name) : checkRules sys.processes p 0 (sys.rules p) = .ok () ↔ _ :=
      checkRules_eq_ok_iff
    simp only [stepFault_eq_none_iff] at hrule
    exact ⟨fun h p hp => (hrule p).mp (forM_eq_ok h p hp),
      fun h => forM_of_forall fun p hp => (hrule p).mpr (h p hp)⟩
  rw [checkNames_eq_ok_iff, checkInitial_eq_ok_iff, hrules]
  constructor
  · intro h
    exact ⟨⟨fun p hp => ⟨h.name p hp, by simp⟩, h.nodup⟩, ⟨h.name _ h.initial_mem, h.initial_mem⟩,
      fun p hp r hr => ⟨h.rule p hp r hr, h.step p hp r hr⟩⟩
  · rintro ⟨⟨hnames, hnodup⟩, ⟨-, hinitial⟩, hall⟩
    exact ⟨fun p hp => (hnames p hp).1, hnodup, hinitial, fun p hp r hr => (hall p hp r hr).1,
      fun p hp r hr => (hall p hp r hr).2⟩

theorem validate_eq_ok_iff_search :
    sys.validate = .ok () ↔ sys.WellFormed ∧ sys.checkGuarded = .ok () := by
  simp only [validate, Fold.then_eq_ok, wellFormed_iff_checks, and_assoc]

theorem WellFormed.validate_eq (h : sys.WellFormed) : sys.validate = sys.checkGuarded := by
  obtain ⟨hnames, hinitial, hrules⟩ := wellFormed_iff_checks.mp h
  simp only [validate, hnames, hinitial, hrules, Fold.ok_bind]

/-! ### The search -/

theorem WellFormed.accepted (h : sys.WellFormed) (hguarded : sys.checkGuarded = .ok ()) :
    sys.Accepted :=
  ⟨h.initial_mem, fun p hp r hr s hs => (h.step p hp r hr s hs).callee, hguarded⟩

theorem firstCall?_eq_some_iff {r : Rule} : firstCall? r = some q ↔
    ∃ s, r.head? = some s ∧ s.isCall = true ∧ s.call = q := by
  cases r with
  | nil => simp [firstCall?]
  | cons s rest =>
    by_cases hcall : s.isCall = true
    · simp [firstCall?, hcall]
    · simp [firstCall?, hcall]

theorem callsFirst_of_firstCall? (hp : p ∈ sys.processes) {r : Rule} (hr : r ∈ sys.rules p)
    (hq : firstCall? r = some q) : sys.CallsFirst p q :=
  ⟨hp, r, hr, firstCall?_eq_some_iff.mp hq⟩

theorem WellFormed.callee_mem (h : sys.WellFormed) (hpq : sys.CallsFirst p q) :
    q ∈ sys.processes := by
  obtain ⟨hp, r, hr, s, hs, hcall, rfl⟩ := hpq
  exact (h.step p hp r hr s (List.mem_of_mem_head? hs)).callee hcall

/-- If the search succeeds, calls in first steps lead from layer to layer and never back. -/
theorem WellFormed.not_onCycle (h : sys.WellFormed) (hguarded : sys.checkGuarded = .ok ()) :
    ¬ sys.OnCycle p := by
  obtain ⟨l, hlayered, hall⟩ := (h.accepted hguarded).layered
  have hstep {p q : Name} (hpq : sys.CallsFirst p q) : depth l q < depth l p := by
    obtain ⟨hp, r, hr, hs⟩ := hpq
    exact (hlayered.depth_lt (hall hp) hr (firstCall?_eq_some_iff.mpr hs)).2
  have hpath {p q : Name} (hpq : Relation.TransGen sys.CallsFirst p q) :
      depth l q < depth l p := by
    induction hpq with
    | single hpq => exact hstep hpq
    | tail _ hqr ih => exact Nat.lt_trans (hstep hqr) ih
  exact fun hcycle => Nat.lt_irrefl _ (hpath hcycle)

/-- A search that starts where all active processes lead to fails at a process on a cycle. -/
theorem WellFormed.onCycle_of_visit (hsys : sys.WellFormed) {e : SystemError}
    (h : visitFirstCalls sys fuel active done p = .error e) (hp : p ∈ sys.processes)
    (hactive : ∀ a ∈ active, Relation.TransGen sys.CallsFirst a p) :
    ∃ q, e = { process := q, cause := .unguarded q } ∧ sys.OnCycle q := by
  induction fuel generalizing active done p with
  | zero => cases h
  | succ fuel ih =>
    unfold visitFirstCalls at h
    split at h
    · rename_i hmem
      obtain rfl := Except.error.inj h
      exact ⟨p, rfl, hactive p hmem⟩
    split at h
    · cases h
    rcases Fold.bind_eq_error.mp h with hrules | ⟨_, -, hreturn⟩
    · obtain ⟨r, hr, done', hfail⟩ := Fold.foldlM_eq_error hrules
      cases hq : firstCall? r with
      | none => simp [hq] at hfail
      | some q =>
        simp only [hq] at hfail
        have hpq := callsFirst_of_firstCall? hp hr hq
        -- the call extends the way of every active process, and makes one of `p`
        refine ih hfail (hsys.callee_mem hpq) (List.forall_mem_cons.mpr ⟨.single hpq, ?_⟩)
        exact fun a ha => (hactive a ha).tail hpq
    · cases hreturn

/-- The number of rounds does not matter once it exceeds that of the processes which are not yet
active: the search ends before. -/
theorem WellFormed.visit_add (hsys : sys.WellFormed) (more : Nat)
    (hfuel : sys.processes.length < fuel + active.length) (hnodup : active.Nodup)
    (hactive : active ⊆ sys.processes) (hp : p ∈ sys.processes) :
    visitFirstCalls sys (fuel + more) active done p = visitFirstCalls sys fuel active done p := by
  induction fuel generalizing active done p with
  | zero =>
    have hle := (hnodup.subperm hactive).length_le
    omega
  | succ fuel ih =>
    rw [Nat.add_right_comm, visitFirstCalls, visitFirstCalls]
    by_cases hnew : p ∈ active
    · rw [if_pos hnew, if_pos hnew]
    rw [if_neg hnew, if_neg hnew]
    refine congrArg (if p ∈ done then Except.ok done else · >>= fun d => pure (p :: d)) ?_
    refine Fold.foldlM_congr_of_mem (fun r hr done => ?_) done
    cases hq : firstCall? r with
    | none => rfl
    | some q =>
      exact ih (by rw [List.length_cons]; omega) (List.nodup_cons.mpr ⟨hnew, hnodup⟩)
        (List.cons_subset.mpr ⟨hp, hactive⟩) (hsys.callee_mem (callsFirst_of_firstCall? hp hr hq))

theorem checkGuarded_eq_error_iff {e : SystemError} : sys.checkGuarded = .error e ↔
    sys.processes.foldlM (visitFirstCalls sys (sys.processes.length + 1) []) [] = .error e := by
  simp [checkGuarded, Fold.bind_eq_error]

theorem WellFormed.search_eq (h : sys.WellFormed) {rounds : Nat}
    (hrounds : sys.processes.length < rounds) :
    sys.processes.foldlM (visitFirstCalls sys rounds []) [] =
      sys.processes.foldlM (visitFirstCalls sys (sys.processes.length + 1) []) [] := by
  obtain ⟨more, rfl⟩ := Nat.exists_eq_add_of_le hrounds
  refine Fold.foldlM_congr_of_mem (fun p hp done => ?_) []
  exact h.visit_add more (by simp) List.nodup_nil (List.nil_subset _) hp

theorem WellFormed.onCycle_of_search (h : sys.WellFormed) {e : SystemError}
    (he : sys.checkGuarded = .error e) :
    ∃ q, e = { process := q, cause := .unguarded q } ∧ sys.OnCycle q := by
  obtain ⟨p, hp, done, hfail⟩ := Fold.foldlM_eq_error (checkGuarded_eq_error_iff.mp he)
  exact h.onCycle_of_visit hfail hp (by simp)

/-- A system is accepted exactly if it is well-formed and no process lies on a cycle of calls in
first steps. If there is a cycle in a well-formed system, the search ends, whatever the number of
rounds, and the error names a process on a cycle. -/
theorem validate_accepts (sys : ProcessSystem) :
    (sys.validate = .ok () ↔ sys.WellFormed ∧ ∀ p, ¬ sys.OnCycle p) ∧
    (sys.WellFormed → (∃ p, sys.OnCycle p) → ∃ q,
      sys.validate = .error { process := q, cause := .unguarded q } ∧ sys.OnCycle q ∧
      ∀ rounds > sys.processes.length,
        sys.processes.foldlM (visitFirstCalls sys rounds []) [] =
          .error { process := q, cause := .unguarded q }) := by
  refine ⟨?_, fun h ⟨p, hp⟩ => ?_⟩
  · rw [validate_eq_ok_iff_search]
    refine and_congr_right fun h => ⟨fun hguarded p => h.not_onCycle hguarded, fun hnone => ?_⟩
    cases hguarded : sys.checkGuarded with
    | ok u => rfl
    | error e =>
      obtain ⟨q, -, hq⟩ := h.onCycle_of_search hguarded
      exact absurd hq (hnone q)
  · cases hguarded : sys.checkGuarded with
    | ok u => exact absurd hp (h.not_onCycle hguarded)
    | error e =>
      obtain ⟨q, rfl, hq⟩ := h.onCycle_of_search hguarded
      refine ⟨q, h.validate_eq.trans hguarded, hq, fun rounds hrounds => ?_⟩
      exact (h.search_eq hrounds).trans (checkGuarded_eq_error_iff.mp hguarded)

/-- A cycle of two processes that is entered from a third one, which does not lie on it. -/
theorem validate_accepts_entered : ∃ sys : ProcessSystem,
    sys = .ofDefinitions "S" [{ name := "S", rules := [[.run "A", .act "a" .must]] },
      { name := "A", rules := [[.act "a" .may], [.run "B"]] },
      { name := "B", rules := [[.run "A", .run "S"]] }] ∧
    sys.WellFormed ∧ ∃ q, sys.validate = .error { process := q, cause := .unguarded q } ∧
      sys.OnCycle q := by
  refine ⟨_, rfl, wellFormed_iff_checks.mpr ⟨rfl, rfl, rfl⟩, ?_⟩
  obtain ⟨q, hq, hcycle, -⟩ := (validate_accepts (.ofDefinitions "S" [
      { name := "S", rules := [[.run "A", .act "a" .must]] },
      { name := "A", rules := [[.act "a" .may], [.run "B"]] },
      { name := "B", rules := [[.run "A", .run "S"]] }])).2
    (wellFormed_iff_checks.mpr ⟨rfl, rfl, rfl⟩)
    ⟨"A", .head ⟨by decide, [.run "B"], by decide, .run "B", rfl, rfl, rfl⟩
      (.single ⟨by decide, [.run "A", .run "S"], by decide, .run "A", rfl, rfl, rfl⟩)⟩
  exact ⟨q, hq, hcycle⟩

end ProcessSystem

end MuProc
