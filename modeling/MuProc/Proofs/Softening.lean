import MuProc.Proofs.Weakening

/-!
# Guaranteed actions that become possible

A guaranteed action of a rule can be made an action that is only possible. The system stays
valid, since the steps keep their actions and calls, and every formula that holds for a
process still holds: boxes have fewer steps to speak about, and diamonds as many as before.
-/

namespace MuProc

/-- The step with its action only possible, if it is a guaranteed one. Calls are left alone. -/
def Step.soften (s : Step) : Step :=
  if s.isCall = false ∧ s.kind = .must then { s with kind := .may } else s

/-- The system in which the chosen steps, given by process, rule and position, are softened. -/
def ProcessSystem.soften (sys : ProcessSystem) (chosen : Name → Nat → Nat → Bool) :
    ProcessSystem :=
  { sys with
    rules := fun p => (sys.rules p).mapIdx fun i r =>
      r.mapIdx fun j s => if chosen p i j then s.soften else s }

example : (ProcessSystem.soften (.ofDefinitions "P" [{ name := "P", rules := [
      [.act "a" .must, .run "P", .act "c" .must], [.act "b" .may]] }]) fun _ i j =>
        i = 0 && j < 2).rules "P" =
    [[.act "a" .may, .run "P", .act "c" .must], [.act "b" .may]] := by
  decide

namespace Step

variable {s s' : Step}

theorem weakens_soften (s : Step) : s.Weakens s.soften := by
  unfold soften
  split
  · rename_i h
    exact .inr ⟨h.2, rfl⟩
  · exact .refl s

theorem Weakens.stepFault_eq_none (h : s.Weakens s') {defined : List Name}
    (hs : ProcessSystem.stepFault defined s = none) :
    ProcessSystem.stepFault defined s' = none := by
  rcases h with rfl | ⟨hkind, rfl⟩
  · exact hs
  · simpa [ProcessSystem.stepFault, hkind] using hs

end Step

namespace ProcessSystem

variable {sys : ProcessSystem} {p : Name} {chosen : Name → Nat → Nat → Bool}

/-! ### Softened rules -/

theorem forall₂_mapIdx {α : Type} {R : α → α → Prop} {f : Nat → α → α} (h : ∀ i a, R a (f i a))
    (l : List α) : List.Forall₂ R l (l.mapIdx f) := by
  rw [List.forall₂_iff_get]
  refine ⟨by simp, fun i hi hi' => ?_⟩
  simpa using h i l[i]

theorem forall₂_rules_soften (sys : ProcessSystem) (chosen : Name → Nat → Nat → Bool) (p : Name) :
    List.Forall₂ (List.Forall₂ Step.Weakens) (sys.rules p) ((sys.soften chosen).rules p) := by
  refine forall₂_mapIdx (fun i r => forall₂_mapIdx (fun j s => ?_) r) _
  split
  · exact s.weakens_soften
  · exact .refl s

theorem weakens_soften (sys : ProcessSystem) (chosen : Name → Nat → Nat → Bool) :
    sys.Weakens (sys.soften chosen) where
  forth p _ _ hr := Graph.exists_right_of_forall₂ (sys.forall₂_rules_soften chosen p) hr
  back p _ _ hr := Graph.exists_left_of_forall₂ (sys.forall₂_rules_soften chosen p) hr
  props _ _ _ := Iff.rfl

/-! ### Validity -/

theorem checkSteps_of_weakens {defined : List Name} {i j : Nat} {r r' : Rule}
    (hr : List.Forall₂ Step.Weakens r r') (h : checkSteps defined p i j r = .ok ()) :
    checkSteps defined p i j r' = .ok () := by
  induction hr generalizing j with
  | nil => rfl
  | cons hstep _ ih =>
    unfold checkSteps at h ⊢
    split at h
    · cases h
    · rename_i hfault
      rw [hstep.stepFault_eq_none hfault]
      exact ih h

theorem checkRules_of_weakens {defined : List Name} {i : Nat} {rs rs' : List Rule}
    (hrs : List.Forall₂ (List.Forall₂ Step.Weakens) rs rs')
    (h : checkRules defined p i rs = .ok ()) : checkRules defined p i rs' = .ok () := by
  induction hrs generalizing i with
  | nil => rfl
  | @cons r r' _ _ hr _ ih =>
    unfold checkRules at h ⊢
    split at h
    · cases h
    · rename_i hempty
      obtain ⟨u, hsteps, hrest⟩ := Fold.bind_eq_ok.mp h
      have hempty' : ¬ r'.isEmpty = true := by
        cases hr with
        | nil => exact hempty
        | cons _ _ => simp
      rw [if_neg hempty', checkSteps_of_weakens hr hsteps]
      exact ih hrest

theorem firstCall?_of_weakens {r r' : Rule} (h : List.Forall₂ Step.Weakens r r') :
    firstCall? r' = firstCall? r := by
  cases h with
  | nil => rfl
  | cons hstep _ => simp only [firstCall?, hstep.isCall_eq, hstep.call_eq]

theorem visitFirstCalls_soften (sys : ProcessSystem) (chosen : Name → Nat → Nat → Bool)
    (fuel : Nat) : visitFirstCalls (sys.soften chosen) fuel = visitFirstCalls sys fuel := by
  induction fuel with
  | zero => rfl
  | succ fuel ih =>
    funext active done q
    simp only [visitFirstCalls, ih]
    rw [Fold.foldlM_congr (sys.forall₂_rules_soften chosen q)]
    intro r r' hr done
    rw [firstCall?_of_weakens hr]

theorem validate_soften (h : sys.validate = .ok ()) : (sys.soften chosen).validate = .ok () := by
  unfold validate at h ⊢
  simp only [Fold.bind_eq_ok] at h ⊢
  obtain ⟨u, hnames, v, hinitial, w, hrules, hguarded⟩ := h
  refine ⟨u, hnames, v, hinitial, w, ?_, ?_⟩
  · refine forM_of_forall fun p hp => ?_
    exact checkRules_of_weakens (sys.forall₂_rules_soften chosen p) (forM_eq_ok hrules p hp)
  · rw [checkGuarded, visitFirstCalls_soften]
    exact hguarded

end ProcessSystem

variable {sys : ProcessSystem} {f : Formula} {idx : Index} {p : Name} {r r' : Result}

theorem Checked.stackBits_le {sys' : ProcessSystem} (h : sys.Weakens sys')
    (hinitial : sys.initial = sys'.initial) (hsys : sys.validate = .ok ())
    (hsys' : sys'.validate = .ok ()) (hr : Checked idx (.ofSystem sys) r)
    (hr' : Checked idx (.ofSystem sys') r') (i : Nat) :
    r.stackBits [(Graph.ofSystem sys).initial] i ≤
      r'.stackBits [(Graph.ofSystem sys').initial] i := by
  have hpg := Graph.ofSystem_expanded hsys
  have hpg' := Graph.ofSystem_expanded hsys'
  have hterminal : r.terminal = r'.terminal :=
    Option.some.inj (hr.terminal_eq.symm.trans hr'.terminal_eq)
  rw [hr.stackBits_singleton (entry_lt hpg.wellFormed hpg.initial),
    hr'.stackBits_singleton (entry_lt hpg'.wellFormed hpg'.initial), hterminal]
  exact DependencyGraph.meaning_le_of_paired h hsys hpg hpg' hr.built hr'.built hr.solved hr'.solved
    (.entry hpg.initial (hinitial ▸ hpg'.initial)) i _

/-- Making guaranteed actions only possible keeps what holds: where a question about a process has
an answer it still has one, and the answer stays true if it was. -/
theorem satisfies_soften (sys : ProcessSystem) (chosen : Name → Nat → Nat → Bool) (f : Formula)
    (p : Name) (b : Bool) (hsys : sys.validate = .ok ()) (hp : p ∈ sys.processes)
    (hb : satisfies sys f p = .ok b) :
    ∃ b', satisfies (sys.soften chosen) f p = .ok b' ∧ (b = true → b' = true) := by
  obtain ⟨r, hr, -⟩ := Fold.bind_eq_ok.mp hb
  obtain ⟨-, -, idx, hidx, hsize⟩ := stages_of_check hr
  have hsys' : (sys.soften chosen).validate = .ok () := ProcessSystem.validate_soften hsys
  -- whether there is an answer depends on the size of the index only, which both systems share
  obtain ⟨b', hb'⟩ := (satisfies_isOk_iff hsys' hp hidx).mpr hsize
  refine ⟨b', hb', ?_⟩
  obtain ⟨r, hchecked, rfl⟩ := checked_of_satisfies hsys hp hidx hb
  obtain ⟨r', hchecked', rfl⟩ := checked_of_satisfies hsys' hp hidx hb'
  exact Bool.le_iff_imp.mp (Checked.stackBits_le ((sys.startAt p).weakens_soften chosen) rfl
    (ProcessSystem.validate_startAt hsys hp) (ProcessSystem.validate_startAt hsys' hp) hchecked
    hchecked' idx.root)

/-- The first step of a process that repeats itself is made only possible. There is still no way
to go on forever that a least fixpoint could find. -/
theorem satisfies_soften_loop :
    satisfies (.ofDefinitions "P" [{ name := "P", rules := [
          [.act "a" .must, .run "P", .act "c" .must], [.act "b" .may]] }])
        (.not (.mu "X" (.dia "" (.var "X")))) "P" = .ok true ∧
      satisfies (ProcessSystem.soften (.ofDefinitions "P" [{ name := "P", rules := [
          [.act "a" .must, .run "P", .act "c" .must], [.act "b" .may]] }])
          fun _ i j => i = 0 && j = 0)
        (.not (.mu "X" (.dia "" (.var "X")))) "P" = .ok true := by
  obtain ⟨idx, hidx⟩ : ∃ idx, Index.ofFormula (Formula.normal
      (.not (.mu "X" (.dia "" (.var "X"))))) = .ok idx := ⟨_, rfl⟩
  have hsize : idx.size ≤ Space.maxDim := by
    obtain rfl := Except.ok.inj hidx
    decide
  have hsys : (ProcessSystem.ofDefinitions "P" [{ name := "P", rules := [
      [.act "a" .must, .run "P", .act "c" .must], [.act "b" .may]] }]).validate = .ok () := rfl
  obtain ⟨b, hb⟩ := (satisfies_isOk_iff hsys (p := "P") (by decide) hidx).mpr hsize
  have htrue : b = true := by
    rw [satisfies_iff hsys (by decide) hidx hb fun _ => ∅]
    exact ⟨Set.univ, fun _ _ _ _ _ _ => trivial, trivial⟩
  obtain ⟨b', hb', himp⟩ := satisfies_soften _ (fun _ i j => i = 0 && j = 0) _ "P" b hsys
    (by decide) hb
  exact ⟨htrue ▸ hb, himp htrue ▸ hb'⟩

end MuProc
