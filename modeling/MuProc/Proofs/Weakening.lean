import MuProc.Proofs.Simulations
import MuProc.Proofs.Verdicts

/-!
# Weaker systems

One system is weaker than another if each rule of the one has a partner among the rules of
the other, step by step the same except that a guaranteed action may have become a possible
one. Order and repetition of the rules do not matter, and neither does the process from
which the systems are expanded. The values of a process grow with the weaker system; in
particular they depend on the set of its rules only.
-/

namespace MuProc

/-- The second step is the first one, or a guaranteed step that is only possible now. -/
def Step.Weakens (s s' : Step) : Prop :=
  s' = s ∨ s.kind = .must ∧ s' = { s with kind := .may }

namespace Step.Weakens

variable {s s' : Step}

protected theorem refl (s : Step) : s.Weakens s :=
  .inl rfl

theorem call_eq (h : s.Weakens s') : s'.call = s.call := by
  rcases h with rfl | ⟨-, rfl⟩ <;> rfl

theorem isCall_eq (h : s.Weakens s') : s'.isCall = s.isCall := by
  rw [isCall, isCall, h.call_eq]

/-- A box asks for less behind a step that is only possible; nothing else changes. -/
theorem behind_le (h : s.Weakens s') (t : Subformula) (x : Bits) :
    t.behind s x ≤ t.behind s' x := by
  rcases h with rfl | ⟨-, rfl⟩
  · exact le_rfl
  · unfold Subformula.behind
    split
    · simp
    · exact le_rfl
    · exact le_rfl

end Step.Weakens

/-- Each rule of the first system has a partner in the second one, and the other way round. -/
structure ProcessSystem.Weakens (sys sys' : ProcessSystem) : Prop where
  forth : ∀ p ∈ sys.processes, ∀ r ∈ sys.rules p,
    ∃ r' ∈ sys'.rules p, List.Forall₂ Step.Weakens r r'
  back : ∀ p ∈ sys.processes, ∀ r' ∈ sys'.rules p,
    ∃ r ∈ sys.rules p, List.Forall₂ Step.Weakens r r'
  props : ∀ p ∈ sys.processes, ∀ a, a ∈ sys.props p ↔ a ∈ sys'.props p

namespace Graph

/-- States of two graphs at the same place: the entries of one process, or positions from
which partners are still to be taken. -/
inductive Paired (g g' : Graph) : Nat → Nat → Prop
  | entry {p v v'} (hv : g.entry? p = some v) (hv' : g'.entry? p = some v') : Paired g g' v v'
  | chain {steps steps' v v'} (hsteps : List.Forall₂ Step.Weakens steps steps')
      (hv : g.Spells steps v) (hv' : g'.Spells steps' v') : Paired g g' v v'

theorem exists_right_of_forall₂ {α β : Type} {R : α → β → Prop} {l : List α} {m : List β}
    (h : List.Forall₂ R l m) {a : α} (ha : a ∈ l) : ∃ b ∈ m, R a b :=
  exists_left_of_forall₂ h.flip ha

theorem mem_sorted {l : List Name} {a : Name} : a ∈ ByteString.sorted l ↔ a ∈ l :=
  (List.mergeSort_perm _ _).mem_iff

end Graph

namespace DependencyGraph

/-- Links of paired edges. -/
structure Link.Paired (pg pg' : Graph) (l l' : Link) : Prop where
  target : Graph.Paired pg pg' l.target l'.target
  callee : Option.Rel (Graph.Paired pg pg') l.callee? l'.callee?
  step : l.step.Weakens l'.step

variable {sys sys' : ProcessSystem} {pg pg' : Graph} {sp sp' : Space} {idx : Index}
  {g g' : DependencyGraph} {v v' : Nat} {n n' : Node}

theorem linked_paired (hpg : pg.WellFormed) (hpg' : pg'.WellFormed) {es es' : List Edge}
    {e e' : Edge} (hes : pg.out[v]? = some es) (he : e ∈ es) (hes' : pg'.out[v']? = some es')
    (he' : e' ∈ es') (hstep : e.step.Weakens e'.step)
    (htarget : Graph.Paired pg pg' e.target e'.target) {l l' : Link} (hl : Linked sp idx pg e l)
    (hl' : Linked sp' idx pg' e' l') : l.Paired pg pg' l' := by
  refine ⟨?_, ?_, ?_⟩
  · rw [hl.target_eq, hl'.target_eq]
    exact htarget
  · rw [hl.callee?_eq, hl'.callee?_eq, hstep.isCall_eq, hstep.call_eq]
    split
    · rename_i hcall
      obtain ⟨u, hu⟩ := Option.isSome_iff_exists.mp (hpg.callee v es hes e he hcall)
      obtain ⟨u', hu'⟩ := Option.isSome_iff_exists.mp
        (hpg'.callee v' es' hes' e' he' (hstep.isCall_eq.trans hcall))
      rw [hstep.call_eq] at hu'
      rw [hu, hu']
      exact .some (.entry hu hu')
    · exact .none
  · rw [hl.step_eq, hl'.step_eq]
    exact hstep

theorem match_of_entry (hsys : sys.Weakens sys') (hpg : pg.Expanded sys) (hpg' : pg'.Expanded sys')
    {p : Name} (hp : p ∈ sys.processes) (hv : pg.entry? p = some v) (hv' : pg'.entry? p = some v')
    (hn : IsNode sp idx pg v n) (hn' : IsNode sp' idx pg' v' n') :
    n.isExit = false ∧ n'.isExit = false ∧ n.Match (Link.Paired pg pg') n' := by
  obtain ⟨⟨s, hs, hplace, -, hprops⟩, -, es, hes, hrules⟩ := hpg.entered p v hv
  obtain ⟨⟨s', hs', hplace', -, hprops'⟩, -, es', hes', hrules'⟩ := hpg'.entered p v' hv'
  obtain rfl : n.state = s := Option.some.inj (hn.state_eq.symm.trans hs)
  obtain rfl : n'.state = s' := Option.some.inj (hn'.state_eq.symm.trans hs')
  have hpaired {e e' : Edge} {r r' : Rule} (he : e ∈ es) (he' : e' ∈ es') (hr : pg.Begins e r)
      (hr' : pg'.Begins e' r') (hw : List.Forall₂ Step.Weakens r r') {l l' : Link}
      (hl : Linked sp idx pg e l) (hl' : Linked sp' idx pg' e' l') : l.Paired pg pg' l' := by
    obtain ⟨rest, rfl, hrest⟩ := hr
    obtain ⟨rest', rfl, hrest'⟩ := hr'
    obtain ⟨hstep, hw⟩ := List.forall₂_cons.mp hw
    exact linked_paired hpg.wellFormed hpg'.wellFormed hes he hes' he' hstep
      (.chain hw hrest hrest') hl hl'
  refine ⟨by simp [Node.isExit, hplace], by simp [Node.isExit, hplace'], ?_, ?_, ?_, ?_⟩
  · intro a
    rw [State.hasProp, State.hasProp, hprops, hprops', Bool.eq_iff_iff, List.contains_iff_mem,
      List.contains_iff_mem, Graph.mem_sorted, Graph.mem_sorted]
    exact hsys.props p hp a
  · simp only [Node.onlyCall?, hplace, hplace']
    exact .none
  · intro l hl
    obtain ⟨es₁, e, hes₁, he, hlinked⟩ := hn.linked hl
    obtain rfl : es = es₁ := Option.some.inj (hes.symm.trans hes₁)
    obtain ⟨r, hr, hbegins⟩ := Graph.exists_right_of_forall₂ hrules he
    obtain ⟨r', hr', hw⟩ := hsys.forth p hp r hr
    obtain ⟨e', he', hbegins'⟩ := Graph.exists_left_of_forall₂ hrules' hr'
    obtain ⟨l', hl', hlinked'⟩ := hn'.link_of_edge hes' he'
    exact ⟨l', hl', hpaired he he' hbegins hbegins' hw hlinked hlinked'⟩
  · intro l' hl'
    obtain ⟨es₁, e', hes₁, he', hlinked'⟩ := hn'.linked hl'
    obtain rfl : es' = es₁ := Option.some.inj (hes'.symm.trans hes₁)
    obtain ⟨r', hr', hbegins'⟩ := Graph.exists_right_of_forall₂ hrules' he'
    obtain ⟨r, hr, hw⟩ := hsys.back p hp r' hr'
    obtain ⟨e, he, hbegins⟩ := Graph.exists_left_of_forall₂ hrules hr
    obtain ⟨l, hl, hlinked⟩ := hn.link_of_edge hes he
    exact ⟨l, hl, hpaired he he' hbegins hbegins' hw hlinked hlinked'⟩

theorem match_of_position (hpg : pg.WellFormed) (hpg' : pg'.WellFormed) {st st' : Step}
    {rest rest' : List Step} (hstep : st.Weakens st') (hrest : List.Forall₂ Step.Weakens rest rest')
    (hv : pg.Spells (st :: rest) v) (hv' : pg'.Spells (st' :: rest') v')
    (hn : IsNode sp idx pg v n) (hn' : IsNode sp' idx pg' v' n') :
    n.isExit = false ∧ n'.isExit = false ∧ n.Match (Link.Paired pg pg') n' := by
  obtain ⟨s, e, hs, hplace, hprops, hout, rfl, hspells⟩ := hv
  obtain ⟨s', e', hs', hplace', hprops', hout', rfl, hspells'⟩ := hv'
  obtain rfl : n.state = s := Option.some.inj (hn.state_eq.symm.trans hs)
  obtain rfl : n'.state = s' := Option.some.inj (hn'.state_eq.symm.trans hs')
  -- each of the two nodes has a single link
  have hsingle {sp : Space} {pg : Graph} {v : Nat} {n : Node} {e : Edge}
      (hn : IsNode sp idx pg v n) (hout : pg.out[v]? = some [e]) :
      ∃ l, n.links = [l] ∧ Linked sp idx pg e l := by
    obtain ⟨es, hes, hlinks⟩ := hn.links
    obtain rfl : [e] = es := Option.some.inj (hout.symm.trans hes)
    obtain ⟨l, links, hl, hnil, hlinks⟩ := List.forall₂_cons_left_iff.mp hlinks
    rw [List.forall₂_nil_left_iff.mp hnil] at hlinks
    exact ⟨l, hlinks, hl⟩
  obtain ⟨l, hlinks, hl⟩ := hsingle hn hout
  obtain ⟨l', hlinks', hl'⟩ := hsingle hn' hout'
  have hpaired : l.Paired pg pg' l' :=
    linked_paired hpg hpg' hout (List.mem_singleton_self e) hout' (List.mem_singleton_self e') hstep
      (.chain hrest hspells hspells') hl hl'
  refine ⟨by simp [Node.isExit, hplace], by simp [Node.isExit, hplace'], ?_, ?_, ?_, ?_⟩
  · intro a
    rw [State.hasProp, State.hasProp, hprops, hprops']
  · simp only [Node.onlyCall?, hplace, hplace', hlinks, hlinks', hpaired.step.isCall_eq]
    split
    · exact .some hpaired
    · exact .none
  · simpa [hlinks, hlinks'] using hpaired
  · simpa [hlinks, hlinks'] using hpaired

theorem Built.exists_node (hg : Built sp idx pg g) {s : State} (hs : pg.states[v]? = some s) :
    ∃ n, g.nodes[v]? = some n ∧ IsNode sp idx pg v n ∧ n.state = s := by
  have hlt : v < g.nodes.size := hg.size_eq.symm ▸ (Array.getElem?_eq_some_iff.mp hs).1
  have hn := Array.getElem?_eq_getElem hlt
  exact ⟨_, hn, hg.isNode v _ hn, Option.some.inj ((hg.isNode v _ hn).state_eq.symm.trans hs)⟩

/-- Paired nodes are exits, or match link by link. -/
theorem match_of_paired (hsys : sys.Weakens sys') (hvalid : sys.validate = .ok ())
    (hpg : pg.Expanded sys) (hpg' : pg'.Expanded sys') (hg : Built sp idx pg g)
    (hg' : Built sp' idx pg' g') (h : Graph.Paired pg pg' v v') :
    ∃ n n', g.nodes[v]? = some n ∧ g'.nodes[v']? = some n' ∧
      n.isExit = n'.isExit ∧ (n.isExit = false → n.Match (Link.Paired pg pg') n') := by
  cases h with
  | @entry p _ _ hv hv' =>
    obtain ⟨s, hs, -⟩ := (hpg.entered p v hv).state
    obtain ⟨s', hs', -⟩ := (hpg'.entered p v' hv').state
    obtain ⟨n, hn, hnode, -⟩ := hg.exists_node hs
    obtain ⟨n', hn', hnode', -⟩ := hg'.exists_node hs'
    have hacc := ProcessSystem.accepted_of_validate hvalid
    have hreach := (hpg.known p).mp (by rw [hv]; rfl)
    have hp := hacc.mem_of_reaches hacc.initial_mem hreach
    obtain ⟨hinner, hinner', hmatch⟩ := match_of_entry hsys hpg hpg' hp hv hv' hnode hnode'
    exact ⟨n, n', hn, hn', hinner.trans hinner'.symm, fun _ => hmatch⟩
  | chain hsteps hv hv' =>
    cases hsteps with
    | nil =>
      obtain ⟨s, hs, hplace⟩ := hv
      obtain ⟨s', hs', hplace'⟩ := hv'
      obtain ⟨n, hn, -, rfl⟩ := hg.exists_node hs
      obtain ⟨n', hn', -, rfl⟩ := hg'.exists_node hs'
      have hexit : n.isExit = true := by simp [Node.isExit, hplace]
      have hexit' : n'.isExit = true := by simp [Node.isExit, hplace']
      refine ⟨n, n', hn, hn', hexit.trans hexit'.symm, fun hinner => ?_⟩
      rw [hexit] at hinner
      cases hinner
    | cons hstep hrest =>
      obtain ⟨s, hs⟩ := hv.exists_state
      obtain ⟨s', hs'⟩ := hv'.exists_state
      obtain ⟨n, hn, hnode, -⟩ := hg.exists_node hs
      obtain ⟨n', hn', hnode', -⟩ := hg'.exists_node hs'
      obtain ⟨hinner, hinner', hmatch⟩ := match_of_position hpg.wellFormed hpg'.wellFormed hstep
        hrest hv hv' hnode hnode'
      exact ⟨n, n', hn, hn', hinner.trans hinner'.symm, fun _ => hmatch⟩

/-- Values grow from a system to a weaker one, whatever the two systems start from. -/
theorem meaning_le_of_paired (hsys : sys.Weakens sys') (hvalid : sys.validate = .ok ())
    (hpg : pg.Expanded sys) (hpg' : pg'.Expanded sys') (hg : Built sp idx pg g)
    (hg' : Built sp' idx pg' g') {a a' : Assignment} (ha : g.SolvedFrom 0 a)
    (ha' : g'.SolvedFrom 0 a') (h : Graph.Paired pg pg' v v') (i : Nat) (x : Bits) :
    a.meaning g.space v i x ≤ a'.meaning g'.space v' i x := by
  have hindex : g'.index = g.index := hg'.index_eq.trans hg.index_eq.symm
  refine ha.meaning_le hg.coherent hg'.coherent hindex ha' (fun k hk => ?_) ?_ v v' h i x
  · intro w w' hw
    obtain ⟨n, n', hn, hn', hexit, hmatch⟩ := match_of_paired hsys hvalid hpg hpg' hg hg' hw
    refine ⟨n, n', hn, hn', hexit, fun hinner => (hmatch hinner).imp fun l l' hl => ?_⟩
    exact ⟨hl.target, hl.callee, fun s y => (BlockKind.below_of_ne hk).mpr (hl.step.behind_le s y)⟩
  · intro w' w hw
    obtain ⟨n, n', hn, hn', hexit, hmatch⟩ := match_of_paired hsys hvalid hpg hpg' hg hg' hw
    refine ⟨n', n, hn', hn, hexit.symm, fun hinner =>
      (hmatch (hexit.trans hinner)).flip.imp fun l' l hl => ?_⟩
    exact ⟨hl.target, rel_flip hl.callee, fun s y =>
      BlockKind.below_greatest.mpr (hl.step.behind_le s y)⟩

end DependencyGraph

end MuProc
