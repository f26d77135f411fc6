import MuProc.Proofs.Weakening

/-!
# Systems with the same rules

The solution at a process depends on the sets of rules and propositions of the processes
only. How often a rule is repeated, the order of the rules and the process from which the
system is expanded change the states of the graph and the schedule of the solver, but not
the functions that it ends with.
-/

namespace MuProc

/-- The same processes with the same rules and propositions, in any order and any number. -/
structure ProcessSystem.SameRules (sys sys' : ProcessSystem) : Prop where
  processes : ∀ p, p ∈ sys.processes ↔ p ∈ sys'.processes
  rules : ∀ p ∈ sys.processes, ∀ r, r ∈ sys.rules p ↔ r ∈ sys'.rules p
  props : ∀ p ∈ sys.processes, ∀ a, a ∈ sys.props p ↔ a ∈ sys'.props p

theorem Space.eval?_congr {sp sp' : Space} (hsp : sp.Proper) (hsp' : sp'.Proper)
    (hdim : sp.dim = sp'.dim) {φ ψ : Func} (hφ : sp.Valid φ) (hψ : sp'.Valid ψ)
    (h : sp.value φ = sp'.value ψ) (bits : List Bool) : sp.eval? φ bits = sp'.eval? ψ bits := by
  by_cases hlen : bits.length ≤ sp.dim
  · rw [eval?_of_monotone hsp hφ.fits hφ.monotone hlen,
      eval?_of_monotone hsp' hψ.fits hψ.monotone (hdim ▸ hlen), h]
  · rw [eval?_eq_none hsp (Nat.not_le.mp hlen), eval?_eq_none hsp' (hdim ▸ Nat.not_le.mp hlen)]

/-- Transformers with the same meaning have the same values, also if they are of two spaces. -/
theorem Space.evalAll?_congr {sp sp' : Space} (hsp : sp.Proper) (hsp' : sp'.Proper)
    (hdim : sp.dim = sp'.dim) {t t' : Transformer} (ht : t.Valid sp) (ht' : t'.Valid sp')
    (h : t.meaning sp = t'.meaning sp') (bits : List Bool) :
    sp.evalAll? t bits = sp'.evalAll? t' bits := by
  have hsize : t.size = t'.size := (ht.size_eq.trans hdim).trans ht'.size_eq.symm
  have hmap : t.toList.map (sp.eval? · bits) = t'.toList.map (sp'.eval? · bits) := by
    refine List.ext_getElem (by simp [hsize]) fun i hi hi' => ?_
    have hi : i < t.size := by simpa using hi
    have hi' : i < t'.size := by simpa using hi'
    have hget := Array.getElem?_eq_getElem hi
    have hget' := Array.getElem?_eq_getElem hi'
    simp only [List.getElem_map, Array.getElem_toList]
    refine eval?_congr hsp hsp' hdim (ht.valid hget) (ht'.valid hget') ?_ bits
    exact funext fun x => ((Transformer.meaning_of_getElem? hget x).symm.trans (by rw [h])).trans
      (Transformer.meaning_of_getElem? hget' x)
  have hmapM (sp : Space) (t : Transformer) :
      sp.evalAll? t bits = (t.toList.map (sp.eval? · bits)).mapM id := by
    rw [List.mapM_map]
    rfl
  rw [hmapM, hmapM, hmap]

namespace ProcessSystem.SameRules

variable {sys sys' : ProcessSystem} {p q : Name}

protected theorem symm (h : sys.SameRules sys') : sys'.SameRules sys := by
  refine ⟨fun p => (h.processes p).symm, fun p hp r => ?_, fun p hp a => ?_⟩
  · exact (h.rules p ((h.processes p).mpr hp) r).symm
  · exact (h.props p ((h.processes p).mpr hp) a).symm

theorem startAt (sys : ProcessSystem) (p : Name) : sys.SameRules (sys.startAt p) :=
  ⟨fun _ => .rfl, fun _ _ _ => .rfl, fun _ _ _ => .rfl⟩

theorem weakens (h : sys.SameRules sys') : sys.Weakens sys' := by
  have hrefl (r : Rule) : List.Forall₂ Step.Weakens r r :=
    List.forall₂_same.mpr fun s _ => .refl s
  refine ⟨fun p hp r hr => ?_, fun p hp r hr => ?_, h.props⟩
  · exact ⟨r, (h.rules p hp r).mp hr, hrefl r⟩
  · exact ⟨r, (h.rules p hp r).mpr hr, hrefl r⟩

theorem reaches (h : sys.SameRules sys') (hsys : sys.Accepted) (hp : p ∈ sys.processes)
    (hq : sys.Reaches p q) : sys'.Reaches p q := by
  induction hq with
  | refl => exact .refl
  | @tail q q' hreach hcalls ih =>
    obtain ⟨r, hr, hcall⟩ := hcalls
    exact ih.tail ⟨r, (h.rules q (hsys.mem_of_reaches hp hreach) r).mp hr, hcall⟩

end ProcessSystem.SameRules

variable {sys sys' : ProcessSystem} {f : Formula} {idx : Index} {r r' : Result} {p : Name}
  {v v' : Nat}

section Checked

variable (h : sys.SameRules sys') (hsys : sys.validate = .ok ()) (hsys' : sys'.validate = .ok ())
  (hr : Checked idx (.ofSystem sys) r) (hr' : Checked idx (.ofSystem sys') r')
  (hv : Graph.entry? (.ofSystem sys) p = some v) (hv' : Graph.entry? (.ofSystem sys') p = some v')
include h hsys hsys' hr hr' hv hv'

theorem Checked.meaning_eq :
    r.assign.meaning r.graph.space v = r'.assign.meaning r'.graph.space v' := by
  have hpg := Graph.ofSystem_expanded hsys
  have hpg' := Graph.ofSystem_expanded hsys'
  funext i x
  apply le_antisymm
  · exact DependencyGraph.meaning_le_of_paired h.weakens hsys hpg hpg' hr.built hr'.built hr.solved
      hr'.solved (.entry hv hv') i x
  · exact DependencyGraph.meaning_le_of_paired h.symm.weakens hsys' hpg' hpg hr'.built hr.built
      hr'.solved hr.solved (.entry hv' hv) i x

/-- The entries of a process hold the same functions. -/
theorem Checked.transformers_eq : ∃ t t', r.assign[v]? = some t ∧ r'.assign[v']? = some t' ∧
    t.meaning r.graph.space = t'.meaning r'.graph.space ∧
    ∀ bits, r.graph.space.evalAll? t bits = r'.graph.space.evalAll? t' bits := by
  have hdim {pg : Graph} {r : Result} (hr : Checked idx pg r) : r.graph.space.dim = idx.size := by
    rw [hr.built.coherent.dim_eq, hr.built.index_eq]
  have hvalue {pg : Graph} {r : Result} (hr : Checked idx pg r) (hpg : pg.WellFormed) {v : Nat}
      (hv : pg.entry? p = some v) :
      ∃ t, r.assign[v]? = some t ∧ t.Valid r.graph.space ∧
        r.assign.meaning r.graph.space v = t.meaning r.graph.space := by
    obtain ⟨t, ht, hvalid, hmeaning⟩ :=
      hr.solved.sound.valid.getElem? (hr.built.size_eq.symm ▸ Checked.entry_lt hpg hv)
    exact ⟨t, ht, hvalid, hmeaning⟩
  obtain ⟨t, ht, hvalid, hmeaning⟩ := hvalue hr (Graph.ofSystem_wellFormed sys).1 hv
  obtain ⟨t', ht', hvalid', hmeaning'⟩ := hvalue hr' (Graph.ofSystem_wellFormed sys').1 hv'
  have hsame : t.meaning r.graph.space = t'.meaning r'.graph.space := by
    rw [← hmeaning, ← hmeaning', Checked.meaning_eq h hsys hsys' hr hr' hv hv']
  exact ⟨t, t', ht, ht', hsame, Space.evalAll?_congr hr.built.coherent.space
    hr'.built.coherent.space ((hdim hr).trans (hdim hr').symm) hvalid hvalid' hsame⟩

theorem Checked.stackBits_eq : r.stackBits [v] = r'.stackBits [v'] := by
  have hterminal : r.terminal = r'.terminal :=
    Option.some.inj (hr.terminal_eq.symm.trans hr'.terminal_eq)
  funext i
  rw [hr.stackBits_singleton (Checked.entry_lt (Graph.ofSystem_wellFormed sys).1 hv),
    hr'.stackBits_singleton (Checked.entry_lt (Graph.ofSystem_wellFormed sys').1 hv'), hterminal,
    Checked.meaning_eq h hsys hsys' hr hr' hv hv']

theorem Checked.satisfied_agree : ∃ fs, r.satisfied p = .ok fs ∧ r'.satisfied p = .ok fs := by
  obtain ⟨l, -, hlen, hbits, hfs⟩ := hr.satisfied_eq (Graph.ofSystem_wellFormed sys).1 hv
  obtain ⟨l', -, hlen', hbits', hfs'⟩ := hr'.satisfied_eq (Graph.ofSystem_wellFormed sys').1 hv'
  have hl : l = l' := by
    refine List.ext_getElem (hlen.trans hlen'.symm) fun i hi hi' => ?_
    have hget := (hbits i).trans
      ((congrFun (Checked.stackBits_eq h hsys hsys' hr hr' hv hv') i).trans (hbits' i).symm)
    simpa [hi, hi'] using hget
  subst hl
  exact ⟨_, hfs, hfs'⟩

end Checked

theorem check_isOk_congr (hsys' : sys'.validate = .ok ()) (h : check sys f = .ok r) :
    ∃ r', check sys' f = .ok r' := by
  obtain ⟨-, -, idx, hidx, hsize⟩ := stages_of_check h
  exact exists_check rfl hsys' hidx hsize

/-- Order and repetition of rules and propositions do not matter: a check has a result for both
of two such systems or for none, and all answers about a reachable process agree. -/
theorem check_sameRules (sys sys' : ProcessSystem) (f : Formula) (hsys : sys.validate = .ok ())
    (hsys' : sys'.validate = .ok ()) (hinitial : sys.initial = sys'.initial)
    (h : sys.SameRules sys') :
    ((∃ r, check sys f = .ok r) ↔ ∃ r', check sys' f = .ok r') ∧
    ∀ r r', check sys f = .ok r → check sys' f = .ok r' →
      (∃ b, r.verdict = .ok b ∧ r'.verdict = .ok b) ∧
      ∀ p, sys.Reaches sys.initial p →
        (∃ (v v' : Nat) (t t' : Transformer), r.graph.entry? p = some (v : Int) ∧
          r'.graph.entry? p = some (v' : Int) ∧ r.assign[v]? = some t ∧ r'.assign[v']? = some t' ∧
          t.meaning r.graph.space = t'.meaning r'.graph.space ∧
          ∀ bits, r.graph.space.evalAll? t bits = r'.graph.space.evalAll? t' bits) ∧
        (∃ b, r.holds p = .ok b ∧ r'.holds p = .ok b) ∧
        (∀ bits, r.holdsUnder p bits = r'.holdsUnder p bits) ∧
        ∃ fs, r.satisfied p = .ok fs ∧ r'.satisfied p = .ok fs := by
  refine ⟨⟨fun ⟨r, hr⟩ => check_isOk_congr hsys' hr, fun ⟨r, hr⟩ => check_isOk_congr hsys hr⟩,
    fun r r' hr hr' => ?_⟩
  obtain ⟨-, -, idx, hidx, -⟩ := stages_of_check hr
  have hc : Checked idx (.ofSystem sys) r := checked_of_check (o := {}) hidx hsys hr
  have hc' : Checked idx (.ofSystem sys') r' := checked_of_check (o := {}) hidx hsys' hr'
  have hpg := Graph.ofSystem_expanded hsys
  have hpg' := Graph.ofSystem_expanded hsys'
  refine ⟨?_, fun p hp => ?_⟩
  · have hagree := Checked.stackBits_eq h hsys hsys' hc hc' hpg.initial (hinitial ▸ hpg'.initial)
    refine ⟨r.stackBits [(Graph.ofSystem sys).initial] idx.root, ?_, ?_⟩
    · rw [Result.verdict, hc.verdict?_eq]
      rfl
    · rw [Result.verdict, hc'.verdict?_eq, ← hagree]
      rfl
  have hacc := ProcessSystem.accepted_of_validate hsys
  have hp' : sys'.Reaches sys'.initial p := hinitial ▸ h.reaches hacc hacc.initial_mem hp
  obtain ⟨v, hv⟩ := Option.isSome_iff_exists.mp ((hpg.known p).mpr hp)
  obtain ⟨v', hv'⟩ := Option.isSome_iff_exists.mp ((hpg'.known p).mpr hp')
  refine ⟨?_, ?_, fun bits => ?_, Checked.satisfied_agree h hsys hsys' hc hc' hv hv'⟩
  · obtain ⟨t, t', ht, ht', hvalues⟩ := Checked.transformers_eq h hsys hsys' hc hc' hv hv'
    refine ⟨v, v', t, t', ?_, ?_, ht, ht', hvalues⟩
    · rw [hc.entry?_eq, hv]
      rfl
    · rw [hc'.entry?_eq, hv']
      rfl
  · refine ⟨_, hc.holds_eq hpg.wellFormed hv, ?_⟩
    rw [hc'.holds_eq hpg'.wellFormed hv', Checked.stackBits_eq h hsys hsys' hc hc' hv hv']
  · rw [hc.holdsUnder_eq hpg.wellFormed hv, hc'.holdsUnder_eq hpg'.wellFormed hv',
      Checked.meaning_eq h hsys hsys' hc hc' hv hv']

/-- Two rules of a process that repeats itself, in either order, one of them twice. -/
theorem check_sameRules_loop :
    ∃ r r', check (.ofDefinitions "P" [{ name := "P", props := ["p", "q"], rules := [
          [.act "a" .must, .run "P", .act "c" .must], [.act "b" .may]] }])
        (.nu "X" (.and (.atom "p") (.box "" (.var "X")))) = .ok r ∧
      check (.ofDefinitions "P" [{ name := "P", props := ["q", "p", "p"], rules := [
          [.act "b" .may], [.act "a" .must, .run "P", .act "c" .must], [.act "b" .may]] }])
        (.nu "X" (.and (.atom "p") (.box "" (.var "X")))) = .ok r' ∧
      (∃ b, r.verdict = .ok b ∧ r'.verdict = .ok b) ∧
      ∃ fs, r.satisfied "P" = .ok fs ∧ r'.satisfied "P" = .ok fs := by
  obtain ⟨idx, hidx⟩ : ∃ idx, Index.ofFormula (Formula.normal
      (.nu "X" (.and (.atom "p") (.box "" (.var "X"))))) = .ok idx := ⟨_, rfl⟩
  have hsize : idx.size ≤ Space.maxDim := by
    obtain rfl := Except.ok.inj hidx
    decide
  obtain ⟨r, hr⟩ : ∃ r, check (.ofDefinitions "P" [{ name := "P", props := ["p", "q"], rules := [
        [.act "a" .must, .run "P", .act "c" .must], [.act "b" .may]] }])
      (.nu "X" (.and (.atom "p") (.box "" (.var "X")))) = .ok r :=
    exists_check rfl rfl hidx hsize
  obtain ⟨htotal, h⟩ := check_sameRules
    (.ofDefinitions "P" [{ name := "P", props := ["p", "q"], rules := [
      [.act "a" .must, .run "P", .act "c" .must], [.act "b" .may]] }])
    (.ofDefinitions "P" [{ name := "P", props := ["q", "p", "p"], rules := [
      [.act "b" .may], [.act "a" .must, .run "P", .act "c" .must], [.act "b" .may]] }])
    (.nu "X" (.and (.atom "p") (.box "" (.var "X")))) rfl rfl rfl (by
      refine ⟨fun p => Iff.rfl, fun p hp r => ?_, fun p hp a => ?_⟩
      · obtain rfl := List.mem_singleton.mp hp
        show r ∈ [_, _] ↔ r ∈ [_, _, _]
        grind
      · obtain rfl := List.mem_singleton.mp hp
        show a ∈ [_, _] ↔ a ∈ [_, _, _]
        grind)
  obtain ⟨r', hr'⟩ := htotal.mp ⟨r, hr⟩
  obtain ⟨hverdict, hall⟩ := h r r' hr hr'
  obtain ⟨-, -, -, hsatisfied⟩ := hall "P" .refl
  exact ⟨r, r', hr, hr', hverdict, hsatisfied⟩

end MuProc
