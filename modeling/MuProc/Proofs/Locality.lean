import MuProc.Proofs.Acceptance
import MuProc.Proofs.Agreement

/-!
# One check answers many questions

A check of a formula from the initial process also answers what closed subformulas say, and
for every process that is reachable. Asked alone and from that process, a subformula is
numbered anew, stands in other blocks and is checked over another graph; but its meaning
is that of the place where it stands, and the functions of a process do not depend on where
the system starts.
-/

namespace MuProc

namespace Formula

variable {S : Type} {L : ModalSystem S} {f : Formula} {V : Set Name} {k : BlockKind}

/-- What can be numbered is in normal form. -/
theorem Numberable.normal_eq (h : f.Numberable V k) : f.normal = f := by
  have hbind (x : Name) : Polarity.bind (fun _ => false) x false = fun _ => false := by
    funext y
    simp [Polarity.bind]
  induction f generalizing V k with
  | tt => rfl
  | ff => rfl
  | atom p => rfl
  | not f ih =>
    obtain ⟨p, rfl⟩ := h
    rfl
  | and f g ihf ihg => exact congrArg₂ Formula.and (ihf h.1) (ihg h.2)
  | or f g ihf ihg => exact congrArg₂ Formula.or (ihf h.1) (ihg h.2)
  | box a f ih => exact congrArg (Formula.box a) (ih h)
  | dia a f ih => exact congrArg (Formula.dia a) (ih h)
  | mu x f ih =>
    have hbody := ih h
    rw [normal, ← hbind x] at hbody
    exact congrArg (Formula.mu x) hbody
  | nu x f ih =>
    have hbody := ih h
    rw [normal, ← hbind x] at hbody
    exact congrArg (Formula.nu x) hbody
  | var x => rfl

end Formula

/-- A subformula can be numbered where it stands, and is not larger than the formula. -/
theorem Index.Laid.occurrence_numberable {S : Type} {L : ModalSystem S} {n : Layout}
    {scopes : List Binding} {block a : Nat} {kind : BlockKind} {φ : Formula}
    (h : Laid n scopes block kind φ a) {ρ : Name → Set S} {o : Formula × (Name → Set S)}
    (ho : o ∈ φ.occurrences L ρ) : o.1.size ≤ φ.size ∧ ∃ V k, o.1.Numberable V k := by
  -- the last occurrence is the formula itself, the others lie in its operands
  have hself {scopes : List Binding} {block a : Nat} {kind : BlockKind} {φ : Formula}
      {ρ : Name → Set S} (h : Laid n scopes block kind φ a) (ho : o ∈ [(φ, ρ)]) :
      o.1.size ≤ φ.size ∧ ∃ V k, o.1.Numberable V k := by
    obtain rfl := List.mem_singleton.mp ho
    exact ⟨Nat.le_refl _, _, _, h.numberable⟩
  induction h generalizing ρ with
  | @leaf scopes _ _ _ _ hφ hsub =>
    rw [hφ.occurrences_eq] at ho
    exact hself (.leaf hφ hsub : Laid n scopes _ _ _ _) ho
  | @literal scopes _ _ _ _ hatom hsub =>
    rcases List.mem_cons.mp ho with rfl | ho
    · exact ⟨Nat.le_succ _, ∅, .plain, trivial⟩
    · exact hself (.literal hatom hsub : Laid n scopes _ _ _ _) ho
  | binary hφ hf hg hsub ihf ihg =>
    rw [hφ.occurrences_eq, List.mem_append, List.mem_append] at ho
    have hsize := hφ.size_eq
    rcases ho with (ho | ho) | ho
    · exact (ihf ho).imp_left fun hle => by omega
    · exact (ihg ho).imp_left fun hle => by omega
    · exact hself (.binary hφ hf hg hsub) ho
  | modal hφ hf hsub ih =>
    rw [hφ.occurrences_eq, List.mem_append] at ho
    have hsize := hφ.size_eq
    rcases ho with ho | ho
    · exact (ih ho).imp_left fun hle => by omega
    · exact hself (.modal hφ hf hsub) ho
  | binder hφ hopens hf hsub ih =>
    rw [hφ.occurrences_eq, List.mem_append] at ho
    have hsize := hφ.size_eq
    rcases ho with ho | ho
    · exact (ih ho).imp_left fun hle => by omega
    · exact hself (.binder hφ hopens hf hsub) ho
  | var hs hblock hsub => exact hself (.var hs hblock hsub) ho

variable {sys : ProcessSystem} {f g : Formula} {idx idx' : Index} {r : Result} {p : Name}
  {v i : Nat} {s : Subformula}

/-- A closed subformula of a numbered formula is in normal form, can be numbered by itself and
means by itself what it means where it stands. -/
theorem Index.closed_subformula {S : Type} (hidx : Index.ofFormula f = .ok idx)
    (hs : idx.subs[i]? = some s) (hclosed : s.node.Closed) (L : ModalSystem S)
    (ρ : Name → Set S) :
    (∃ idx', Index.ofFormula s.node.normal = .ok idx' ∧ idx'.size ≤ idx.size) ∧
      f.meaningAt L ρ i = s.node.normal.denote L ρ := by
  have hsize := Index.size_of_ofFormula hidx
  obtain ⟨n, rfl, -, -, hlaid, -⟩ := Index.laid_of_ofFormula hidx
  have hi : i < f.size := hsize ▸ (Array.getElem?_eq_some_iff.mp hs).1
  obtain ⟨t, ht, ρ', hρ'⟩ := hlaid.occurrence (L := L) ρ hi
  rw [Nat.zero_add] at ht
  obtain rfl : s = t := Option.some.inj (hs.symm.trans ht)
  obtain ⟨hle, V, k, hnum⟩ := hlaid.occurrence_numberable (List.mem_of_getElem? hρ')
  rw [hnum.normal_eq]
  constructor
  · obtain ⟨idx', hidx'⟩ := Index.ofFormula_isOk_iff.mpr (hnum.of_closed hclosed ∅ .plain)
    refine ⟨idx', hidx', ?_⟩
    rw [hsize, Index.size_of_ofFormula hidx']
    exact hle
  · rw [Formula.meaningAt, hρ', Option.elim_some]
    exact hclosed.denote_eq ρ' ρ

/-- A bit of a check, in front of a terminated process, is the answer to the question that the
subformula asks. -/
theorem Checked.satisfies_eq (hr : Checked idx (.ofSystem sys) r) (hsys : sys.validate = .ok ())
    (hidx : Index.ofFormula f.normal = .ok idx) (hsize : idx.size ≤ Space.maxDim)
    (hi : i < idx.size) (hp : p ∈ sys.processes) (hv : Graph.entry? (.ofSystem sys) p = some v)
    (hidx' : Index.ofFormula g.normal = .ok idx') (hsize' : idx'.size ≤ Space.maxDim)
    (hmeaning : ∀ ρ, f.normal.meaningAt (Graph.configurations (.ofSystem (sys.startAt p))) ρ i =
      g.normal.denote (Graph.configurations (.ofSystem (sys.startAt p))) ρ) :
    satisfies sys g p = .ok (r.stackBits [v] i) := by
  have hsys' := ProcessSystem.validate_startAt hsys hp
  obtain ⟨b, hb⟩ := (satisfies_isOk_iff hsys hp hidx').mpr hsize'
  -- the same formula from the same process, where both graphs can be compared
  obtain ⟨r', hr'⟩ : ∃ r', check (sys.startAt p) f = .ok r' := exists_check rfl hsys' hidx hsize
  have hc' : Checked idx (.ofSystem (sys.startAt p)) r' := checked_of_check (o := {}) hidx hsys' hr'
  have hv' := (Graph.ofSystem_expanded hsys').initial
  have hbits := Checked.stackBits_eq (.startAt sys p) hsys hsys' hr hc' hv hv'
  have hiff := satisfies_iff hsys hp hidx' hb fun _ => ∅
  rw [← hmeaning, ← hc'.stackBits_iff hsys' hidx _ (Index.size_of_ofFormula hidx ▸ hi), ← hbits,
    ← Bool.eq_iff_iff] at hiff
  rw [hb, hiff]

theorem mem_selected {α : Type} {ns : List α} {l : List Bool} {a : α} :
    a ∈ ((ns.zip l).filter (·.2)).map (·.1) ↔ ∃ j : Nat, ns[j]? = some a ∧ l[j]? = some true := by
  simp only [List.mem_map, List.mem_filter]
  constructor
  · rintro ⟨⟨a', b⟩, ⟨hzip, hb⟩, rfl⟩
    obtain ⟨j, hj⟩ := List.mem_iff_getElem?.mp hzip
    obtain ⟨ha, hl⟩ := List.getElem?_zip_eq_some.mp hj
    have hb : b = true := hb
    exact ⟨j, ha, hb ▸ hl⟩
  · rintro ⟨j, ha, hl⟩
    have hzip : (a, true) ∈ ns.zip l :=
      List.mem_of_getElem? (List.getElem?_zip_eq_some.mpr ⟨ha, hl⟩)
    exact ⟨(a, true), ⟨hzip, rfl⟩, rfl⟩

/-- A check from the initial process answers, for every reachable process, what every closed
subformula and the formula itself would be answered alone. -/
theorem check_subformulas (sys : ProcessSystem) (f : Formula) (r : Result) (p : Name)
    (hr : check sys f = .ok r) (hp : sys.Reaches sys.initial p) :
    Index.ofFormula f.normal = .ok r.graph.index ∧ r.graph.index.terminal? = some r.terminal ∧
    (∃ b, r.holds p = .ok b ∧ satisfies sys f p = .ok b) ∧
    ∃ v l fs, r.graph.entry? p = some v ∧ r.values? v = some l ∧ r.satisfied p = .ok fs ∧
      ∀ (i : Nat) s, r.graph.index.subs[i]? = some s → s.node.Closed →
        ∃ b, l[i]? = some b ∧ satisfies sys s.node p = .ok b ∧ (s.node ∈ fs ↔ b = true) := by
  obtain ⟨-, hsys, idx, hidx, hsize⟩ := stages_of_check hr
  have hsys : sys.validate = .ok () := hsys
  have hc : Checked idx (.ofSystem sys) r := checked_of_check (o := {}) hidx hsys hr
  have hpg := Graph.ofSystem_expanded hsys
  have hacc := ProcessSystem.accepted_of_validate hsys
  have hmem := hacc.mem_of_reaches hacc.initial_mem hp
  obtain ⟨v, hv⟩ := Option.isSome_iff_exists.mp ((hpg.known p).mpr hp)
  obtain rfl := hc.built.index_eq
  obtain ⟨l, hl, hlen, hbits, hfs⟩ := hc.satisfied_eq hpg.wellFormed hv
  have hbit (i : Nat) (s : Subformula) (hs : r.graph.index.subs[i]? = some s)
      (hclosed : s.node.Closed) : satisfies sys s.node p = .ok (r.stackBits [v] i) := by
    have hi : i < r.graph.index.size := (Array.getElem?_eq_some_iff.mp hs).1
    obtain ⟨⟨idx', hidx', hle⟩, -⟩ := Index.closed_subformula hidx hs hclosed
      (Graph.configurations (.ofSystem sys)) fun _ => ∅
    exact hc.satisfies_eq hsys hidx hsize hi hmem hv hidx' (Nat.le_trans hle hsize) fun ρ =>
      (Index.closed_subformula hidx hs hclosed _ ρ).2
  refine ⟨hidx, hc.terminal_eq, ⟨_, hc.holds_eq hpg.wellFormed hv, ?_⟩, v, l, _, ?_, hl, hfs, ?_⟩
  · refine hc.satisfies_eq hsys hidx hsize hc.root_lt hmem hv hidx hsize fun ρ => ?_
    rw [Index.root_eq hidx, Formula.meaningAt_root]
  · rw [hc.entry?_eq, hv]
    rfl
  intro i s hs hclosed
  have hget (j : Nat) (hj : j < r.graph.index.size) : l[j]? = some (r.stackBits [v] j) := by
    have hj : j < l.length := hlen ▸ hj
    rw [← hbits, List.getElem?_eq_getElem hj]
    simp [hj]
  refine ⟨_, hget i (Array.getElem?_eq_some_iff.mp hs).1, hbit i s hs hclosed, ?_⟩
  rw [mem_selected]
  constructor
  · -- another occurrence of the same formula has the same bit
    rintro ⟨j, hnode, htrue⟩
    obtain ⟨s', hs', hsame⟩ : ∃ s', r.graph.index.subs[j]? = some s' ∧ s'.node = s.node := by
      simpa using hnode
    have hj := hget j (Array.getElem?_eq_some_iff.mp hs').1
    have hsame := hsame ▸ hbit j s' hs' (hsame ▸ hclosed)
    rw [← Except.ok.inj ((hbit i s hs hclosed).symm.trans hsame)] at hj
    exact Option.some.inj (hj.symm.trans htrue)
  · intro htrue
    refine ⟨i, ?_, ?_⟩
    · simp [hs]
    · rw [hget i (Array.getElem?_eq_some_iff.mp hs).1, htrue]

/-- In a recursive system whose loop calls a second process, the check from the first process
answers for the second one, both the formula and its fixpoint operand. -/
theorem check_subformulas_loop :
    ∃ r, check (.ofDefinitions "P" [
          { name := "P", props := ["p"], rules := [
            [.act "a" .must, .run "Q", .run "P"], [.act "b" .may]] },
          { name := "Q", props := ["p"], rules := [[.act "c" .must]] }])
        (.and (.dia "" .tt) (.nu "X" (.and (.atom "p") (.box "" (.var "X"))))) = .ok r ∧
      (∃ b, r.holds "Q" = .ok b ∧ satisfies (.ofDefinitions "P" [
          { name := "P", props := ["p"], rules := [
            [.act "a" .must, .run "Q", .run "P"], [.act "b" .may]] },
          { name := "Q", props := ["p"], rules := [[.act "c" .must]] }])
        (.and (.dia "" .tt) (.nu "X" (.and (.atom "p") (.box "" (.var "X"))))) "Q" = .ok b) ∧
      ∃ fs b, r.satisfied "Q" = .ok fs ∧ satisfies (.ofDefinitions "P" [
          { name := "P", props := ["p"], rules := [
            [.act "a" .must, .run "Q", .run "P"], [.act "b" .may]] },
          { name := "Q", props := ["p"], rules := [[.act "c" .must]] }])
        (.nu "X" (.and (.atom "p") (.box "" (.var "X")))) "Q" = .ok b ∧
        (.nu "X" (.and (.atom "p") (.box "" (.var "X"))) ∈ fs ↔ b = true) := by
  obtain ⟨idx, hidx⟩ : ∃ idx, Index.ofFormula (Formula.normal
      (.and (.dia "" .tt) (.nu "X" (.and (.atom "p") (.box "" (.var "X")))))) = .ok idx := ⟨_, rfl⟩
  obtain ⟨hsize, s, hs, hnode⟩ : idx.size ≤ Space.maxDim ∧ ∃ s, idx.subs[6]? = some s ∧
      s.node = .nu "X" (.and (.atom "p") (.box "" (.var "X"))) := by
    obtain rfl := Except.ok.inj hidx
    exact ⟨by decide, _, rfl, rfl⟩
  obtain ⟨r, hr⟩ : ∃ r, check (.ofDefinitions "P" [
        { name := "P", props := ["p"], rules := [
          [.act "a" .must, .run "Q", .run "P"], [.act "b" .may]] },
        { name := "Q", props := ["p"], rules := [[.act "c" .must]] }])
      (.and (.dia "" .tt) (.nu "X" (.and (.atom "p") (.box "" (.var "X"))))) = .ok r :=
    exists_check rfl rfl hidx hsize
  obtain ⟨hindex, -, hholds, v, l, fs, -, -, hfs, hsubs⟩ := check_subformulas _ _ r "Q" hr
    (.single ⟨_, List.mem_cons_self, by decide⟩)
  obtain rfl := Except.ok.inj (hidx.symm.trans hindex)
  have hclosed : s.node.Closed := by
    rw [hnode]
    rintro x ⟨hne, hx | hx⟩
    · exact hx
    · exact hne hx
  obtain ⟨b, -, hb, hmem⟩ := hsubs 6 s hs hclosed
  rw [hnode] at hb hmem
  exact ⟨r, hr, hholds, fs, b, hfs, hb, hmem⟩

end MuProc
