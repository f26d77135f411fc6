import MuProc.Transformer.Diagram
import MuProc.Proofs.Combination
import MuProc.Proofs.Folds

/-!
# Diagrams laid out

The walk from the start of a diagram enters the decisions it meets into a new table. Two
walks through reduced tables from entries with the same answers enter the same decisions
in the same order, so diagrams with the same values are laid out in the same way.
-/

namespace MuProc

namespace Decision

variable {n m : Nat} {ds es : Array Decision} {k : Nat} {d : Decision} {c : Combination}

/-! ### The walk through one table -/

theorem combine_fst_of_none (fuel : Nat) (h : at? ds k = none) :
    combine (fun a _ => a) ds #[] (fuel + 1) k 0 c = (answer (k = 1), c) := by
  have hother : at? #[] 0 = none := rfl
  simp [combine, answer?, h, hother, settled?]

theorem combine_fst_of_found (fuel : Nat) {e : Nat} (h : at? ds k = some d)
    (he : c.found[(k, 0)]? = some e) :
    combine (fun a _ => a) ds #[] (fuel + 1) k 0 c = (e, c) := by
  have hother : at? #[] 0 = none := rfl
  simp [combine, answer?, h, hother, settled?, first?, he]

theorem combine_fst_of_new (fuel : Nat) (h : at? ds k = some d) (hk : c.found[(k, 0)]? = none) :
    combine (fun a _ => a) ds #[] (fuel + 1) k 0 c =
      let high := combine (fun a _ => a) ds #[] fuel d.high 0 c
      let low := combine (fun a _ => a) ds #[] fuel d.low 0 high.2
      let entered := low.2.table.enter ⟨d.level, high.1, low.1⟩
      (entered.1, { table := entered.2, found := low.2.found.insert (k, 0) entered.1 }) := by
  have hother : at? #[] 0 = none := rfl
  simp [combine, answer?, h, hother, settled?, first?, hk, follow, next]

/-- Two walks that have entered the same decisions, and know the same entries for entries
with the same answers. -/
structure Twins (ds es : Array Decision) (c c' : Combination) : Prop where
  table_eq : c.table = c'.table
  found_eq : ∀ k k', k < ds.size + 2 → k' < es.size + 2 →
    (∀ x, result ds k x = result es k' x) → c.found[(k, 0)]? = c'.found[(k', 0)]?

theorem Twins.insert {c c' : Combination} {table : Table} {k' e : Nat} (h : Twins ds es c c')
    (hr : Reduced n ds) (hr' : Reduced m es) (hk : k < ds.size + 2) (hk' : k' < es.size + 2)
    (hx : ∀ x, result ds k x = result es k' x) :
    Twins ds es { table, found := c.found.insert (k, 0) e }
      { table, found := c'.found.insert (k', 0) e } := by
  refine ⟨rfl, fun i i' hi hi' hix => ?_⟩
  have hsame : k = i ↔ k' = i' := by
    constructor
    · rintro rfl
      exact hr'.eq_of_result_eq hk' hi' fun x => (hx x).symm.trans (hix x)
    · rintro rfl
      exact hr.eq_of_result_eq hk hi fun x => (hx x).trans (hix x).symm
  have horder (i j : Nat) : pairOrder (i, 0) (j, 0) = .eq ↔ i = j :=
    ⟨fun h => (Prod.mk.inj (eq_of_pairOrder_eq h)).1, fun h => h ▸ by simp [pairOrder, compareLex,
      compareOn]⟩
  simp only [Std.TreeMap.getElem?_insert, horder, hsame, h.found_eq i i' hi hi' hix]

/-- Walks from entries with the same answers enter the same decisions. -/
theorem combine_twins (hr : Reduced n ds) (hr' : Reduced m es) (fuel fuel' : Nat) {k' : Nat}
    {c c' : Combination} (hk : k < ds.size + 2) (hk' : k' < es.size + 2)
    (hx : ∀ x, result ds k x = result es k' x) (hfuel : k ≤ fuel + 1)
    (hfuel' : k' ≤ fuel' + 1) (h : Twins ds es c c') :
    (combine (fun a _ => a) ds #[] (fuel + 1) k 0 c).1 =
        (combine (fun a _ => a) es #[] (fuel' + 1) k' 0 c').1 ∧
      Twins ds es (combine (fun a _ => a) ds #[] (fuel + 1) k 0 c).2
        (combine (fun a _ => a) es #[] (fuel' + 1) k' 0 c').2 := by
  induction k using Nat.strongRecOn generalizing k' fuel fuel' c c' with
  | ind k ih =>
    rcases hr.graph.alike hr'.graph hk hk' hx with ⟨hv, hw⟩ | ⟨v, w, hv, hw, ha⟩
    · have hd := Option.map_eq_none_iff.mp hv
      have he := Option.map_eq_none_iff.mp hw
      have hsame := hx fun _ => false
      rw [result_of_none hd, result_of_none he] at hsame
      rw [combine_fst_of_none fuel hd, combine_fst_of_none fuel' he, hsame]
      exact ⟨rfl, h⟩
    · obtain ⟨d, hd, rfl⟩ := Option.map_eq_some_iff.mp hv
      obtain ⟨e, he, rfl⟩ := Option.map_eq_some_iff.mp hw
      have hfound := h.found_eq k k' hk hk' hx
      cases hc : c.found[(k, 0)]? with
      | some i =>
        rw [combine_fst_of_found fuel hd hc, combine_fst_of_found fuel' he (hfound ▸ hc)]
        exact ⟨rfl, h⟩
      | none =>
        rw [combine_fst_of_new fuel hd hc, combine_fst_of_new fuel' he (hfound ▸ hc)]
        have h2 := (lt_of_at? hd).1
        have h2' := (lt_of_at? he).1
        obtain ⟨fuel, rfl⟩ : ∃ i, fuel = i + 1 := ⟨fuel - 1, by omega⟩
        obtain ⟨fuel', rfl⟩ : ∃ i, fuel' = i + 1 := ⟨fuel' - 1, by omega⟩
        have hlt (b : Bool) := hr.next_lt k d hd b
        have hlt' (b : Bool) := hr'.next_lt k' e he b
        have hnext (b : Bool) : d.next b ≤ fuel + 1 ∧ e.next b ≤ fuel' + 1 := by
          have h1 := hlt b
          have h2 := hlt' b
          omega
        have hvalue (b : Bool) (x : Nat → Bool) :
            result ds (d.next b) x = result es (e.next b) x := ha.value_eq b x
        have hside (b : Bool) {c c' : Combination} (h : Twins ds es c c') :=
          ih (d.next b) (hlt b) _ _ (Nat.lt_trans (hlt b) hk) (Nat.lt_trans (hlt' b) hk') (hvalue b)
            (hnext b).1 (hnext b).2 h
        obtain ⟨hhigh, htwins⟩ := hside true h
        obtain ⟨hlow, htwins⟩ := hside false htwins
        have hlevel : d.level = e.level := ha.level_eq
        simp only [next, if_true, Bool.false_eq_true, if_false] at hhigh hlow htwins
        simp only [hhigh, hlow, hlevel, htwins.table_eq]
        exact ⟨trivial, htwins.insert hr hr' hk hk' hx⟩

end Decision

namespace Diagram

open Decision (Ordered Reduced result Above)

variable {n m : Nat} {f g : Diagram} {op : Bool → Bool → Bool}

/-- A diagram with a reduced table and its start in it. -/
structure WellFormed (n : Nat) (f : Diagram) : Prop where
  reduced : Reduced n f.decisions
  root_lt : f.root < f.decisions.size + 2

/-- A diagram as the operations leave it. -/
structure Canonical (n : Nat) (f : Diagram) : Prop extends WellFormed n f where
  layout_eq : f.layout = f

/-! ### Combinations -/

theorem merge_walked (hf : f.WellFormed n) (hg : g.WellFormed n) (op : Bool → Bool → Bool) :
    Decision.Walked n op f.decisions g.decisions f.root g.root {}
      (Decision.combine op f.decisions g.decisions (f.decisions.size + g.decisions.size + 1)
        f.root g.root {}) := by
  apply Decision.combine_walked hf.reduced.toOrdered hg.reduced.toOrdered
    Decision.Combination.Good.empty
  have h1 := Decision.rank_le_size f.decisions f.root
  have h2 := Decision.rank_le_size g.decisions g.root
  omega

theorem WellFormed.merge (hf : f.WellFormed n) (hg : g.WellFormed n) :
    (merge op f g).WellFormed n :=
  have hw := merge_walked hf hg op
  ⟨hw.good.table.toReduced, hw.combines.lt⟩

theorem eval_merge (hf : f.WellFormed n) (hg : g.WellFormed n) (x : Nat → Bool) :
    (merge op f g).eval x = op (f.eval x) (g.eval x) :=
  (merge_walked hf hg op).combines.result_eq x

theorem wellFormed_const (b : Bool) : (const b).WellFormed n where
  reduced := Decision.Table.Good.empty.toReduced
  root_lt := by cases b <;> simp [const, Decision.answer]

@[simp] theorem eval_const (b : Bool) (x : Nat → Bool) : (const b).eval x = b :=
  Decision.result_answer b x

theorem WellFormed.layout (hf : f.WellFormed n) : f.layout.WellFormed n :=
  hf.merge (wellFormed_const false)

theorem eval_layout (hf : f.WellFormed n) (x : Nat → Bool) : f.layout.eval x = f.eval x :=
  eval_merge hf (wellFormed_const false) x

/-- Diagrams with the same values are laid out in the same way. -/
theorem layout_congr (hf : f.WellFormed n) (hg : g.WellFormed m)
    (h : ∀ x, f.eval x = g.eval x) : f.layout = g.layout := by
  have hstart : Decision.Twins f.decisions g.decisions {} {} := ⟨rfl, fun _ _ _ _ _ => rfl⟩
  obtain ⟨hroot, htwins⟩ := Decision.combine_twins hf.reduced hg.reduced f.decisions.size
    g.decisions.size hf.root_lt hg.root_lt h
    (Nat.lt_succ_iff.mp hf.root_lt) (Nat.lt_succ_iff.mp hg.root_lt) hstart
  unfold Diagram.layout Diagram.merge
  exact congrArg₂ Diagram.mk (congrArg Decision.Table.decisions htwins.table_eq) hroot

theorem WellFormed.canonical (hf : f.WellFormed n) : f.layout.Canonical n :=
  ⟨hf.layout, layout_congr hf.layout hf (eval_layout hf)⟩

/-- Canonical diagrams with the same values are the same. -/
theorem Canonical.eq_of_eval_eq (hf : f.Canonical n) (hg : g.Canonical m)
    (h : ∀ x, f.eval x = g.eval x) : f = g := by
  rw [← hf.layout_eq, ← hg.layout_eq]
  exact layout_congr hf.toWellFormed hg.toWellFormed h

theorem canonical_const (b : Bool) : (const b).Canonical n :=
  ⟨wellFormed_const b, by cases b <;> rfl⟩

theorem eval_of_answer? {b : Bool} (h : f.answer? = some b) (x : Nat → Bool) : f.eval x = b :=
  Decision.answer?_eq_some h x

theorem wellFormed_literal {l : Nat} (hl : l < n) (b : Bool) : (literal l b).WellFormed n := by
  have hent : Decision.Enterable n #[] ⟨l, Decision.answer b, Decision.answer (!b)⟩ := by
    refine ⟨hl, fun c => ?_, fun c d hd => ?_⟩
    · cases b <;> cases c <;> simp [Decision.next, Decision.answer]
    · simp [Decision.at?_empty] at hd
  refine ⟨Decision.Table.Good.empty.toReduced.push hent ?_ ?_, by simp [literal]⟩
  · cases b <;> simp [Decision.answer]
  · simp [Decision.at?_empty]

theorem canonical_literal {l : Nat} (hl : l < n) (b : Bool) : (literal l b).Canonical n := by
  refine ⟨wellFormed_literal hl b, ?_⟩
  cases b <;> simp [literal, layout, merge, Decision.combine, Decision.settled?, Decision.answer?,
    Decision.at?, Decision.first?, Decision.follow, Decision.next, Decision.answer, const,
    Decision.Table.enter]

@[simp] theorem eval_literal (l : Nat) (b : Bool) (x : Nat → Bool) :
    (literal l b).eval x = (x l == b) := by
  cases hx : x l <;> cases b <;>
    simp [eval, literal, Decision.value, Decision.at?, Decision.next, Decision.answer, hx]

/-! ### Operations -/

section Operations

variable (hf : f.Canonical n) (hg : g.Canonical n)
include hf hg

theorem canonical_combine (op : Bool → Bool → Bool) : (combine op f g).Canonical n :=
  (hf.toWellFormed.merge hg.toWellFormed).canonical

theorem eval_combine (op : Bool → Bool → Bool) (x : Nat → Bool) :
    (combine op f g).eval x = op (f.eval x) (g.eval x) := by
  rw [combine, eval_layout (hf.toWellFormed.merge hg.toWellFormed),
    eval_merge hf.toWellFormed hg.toWellFormed]

theorem canonical_and : (and f g).Canonical n := by
  unfold Diagram.and
  split
  · exact hg
  · split
    · exact hf
    · exact canonical_combine hf hg _

theorem eval_and (x : Nat → Bool) : (and f g).eval x = (f.eval x && g.eval x) := by
  unfold Diagram.and
  split
  · simp [eval_of_answer? ‹_›]
  · split
    · simp [eval_of_answer? ‹_›]
    · exact eval_combine hf hg _ x

theorem canonical_or : (or f g).Canonical n := by
  unfold Diagram.or
  split
  · exact hg
  · split
    · exact hf
    · exact canonical_combine hf hg _

theorem eval_or (x : Nat → Bool) : (or f g).eval x = (f.eval x || g.eval x) := by
  unfold Diagram.or
  split
  · simp [eval_of_answer? ‹_›]
  · split
    · simp [eval_of_answer? ‹_›]
    · exact eval_combine hf hg _ x

theorem canonical_ite {cond : Diagram} (hc : cond.Canonical n) : (ite cond f g).Canonical n :=
  canonical_or (canonical_and hc hf) (canonical_combine hc hg _)

theorem eval_ite {cond : Diagram} (hc : cond.Canonical n) (x : Nat → Bool) :
    (ite cond f g).eval x = if cond.eval x then f.eval x else g.eval x := by
  rw [ite, eval_or (canonical_and hc hf) (canonical_combine hc hg _), eval_and hc hf,
    eval_combine hc hg]
  cases cond.eval x <;> simp

end Operations

theorem canonical_not (hf : f.Canonical n) : (not f).Canonical n :=
  canonical_combine hf (canonical_const false) _

theorem eval_not (hf : f.Canonical n) (x : Nat → Bool) : (not f).eval x = !f.eval x :=
  eval_combine hf (canonical_const false) _ x

/-! ### Fixing a variable -/

/-- Entry `e` of the second table is entry `k` of the first with the variable of level `l`
fixed. -/
structure Fixes (ds ts : Array Decision) (l : Nat) (b : Bool) (k e : Nat) : Prop where
  lt : e < ts.size + 2
  result_eq : ∀ x, result ts e x = result ds k (Function.update x l b)
  above : ∀ l, Above ds l k → Above ts l e

theorem Fixes.extend {ds ts us : Array Decision} {l k e : Nat} {b : Bool}
    (h : Fixes ds ts l b k e) (hx : Decision.Extends ts us) (ho : Ordered n ts)
    (ho' : Ordered n us) : Fixes ds us l b k e where
  lt := Nat.lt_of_lt_of_le h.lt (Nat.add_le_add_right hx.size_le 2)
  result_eq x := (hx.result_eq ho ho' h.lt x).trans (h.result_eq x)
  above l hl := (hx.above h.lt).mpr (h.above l hl)

theorem fixes_answer {ds ts : Array Decision} {l : Nat} {b a : Bool} :
    Fixes ds ts l b (Decision.answer a) (Decision.answer a) where
  lt := by
    cases a <;> simp [Decision.answer]
  result_eq x := by simp only [Decision.result_answer]
  above l _ d hd := by simp [Decision.at?_answer] at hd

/-- The first decisions, with the variable fixed, are in a table of their own. -/
structure FixedTo (n : Nat) (ds : Array Decision) (l : Nat) (b : Bool) (m : Nat)
    (r : Array Nat × Decision.Table) : Prop where
  size_eq : r.1.size = m + 2
  good : r.2.Good n
  fixes : ∀ k < m + 2, Fixes ds r.2.decisions l b k (r.1.getD k (Decision.answer false))

theorem FixedTo.push {ds : Array Decision} {l e : Nat} {b : Bool} {entries : Array Nat}
    {t t' : Decision.Table} (h : FixedTo n ds l b m (entries, t))
    (hx : Decision.Extends t.decisions t'.decisions) (hg : t'.Good n)
    (he : Fixes ds t'.decisions l b (m + 2) e) :
    FixedTo n ds l b (m + 1) (entries.push e, t') := by
  refine ⟨by simp [h.size_eq], hg, fun k hk => ?_⟩
  have hsize := h.size_eq
  simp only at hsize
  rw [Array.getD_eq_getD_getElem?, Array.getElem?_push, hsize]
  split
  · rename_i heq
    exact heq ▸ he
  · rw [← Array.getD_eq_getD_getElem?]
    exact (h.fixes k (by omega)).extend hx h.good.toOrdered hg.toOrdered

theorem fix_spec (hf : f.WellFormed n) (l : Nat) (b : Bool) :
    (f.fix l b).WellFormed n ∧
      ∀ x, (f.fix l b).eval x = f.eval (Function.update x l b) := by
  have ho := hf.reduced.toOrdered
  unfold fix
  rw [← Array.foldl_toList]
  generalize hr : f.decisions.toList.foldl _ _ = r
  have hloop : FixedTo n f.decisions l b f.decisions.toList.length r := by
    rw [← hr]
    refine Fold.foldl_inv (P := FixedTo n f.decisions l b) ?_ ?_
    · refine ⟨rfl, Decision.Table.Good.empty, fun k hk => ?_⟩
      obtain rfl | rfl : k = 0 ∨ k = 1 := by omega
      · exact fixes_answer (a := false)
      · exact fixes_answer (a := true)
    · rintro m d ⟨entries, t⟩ hd h
      have hat : Decision.at? f.decisions (m + 2) = some d :=
        Decision.at?_eq_some_iff.mpr ⟨by omega, by simpa using hd⟩
      have hlt (c : Bool) := ho.next_lt _ d hat c
      have hnext (c : Bool) := h.fixes (d.next c) (hlt c)
      have hup := Decision.result_of_some ho hat
      by_cases hl : d.level = l
      · simp only [hl, if_true]
        refine h.push (Decision.Extends.refl _) h.good ⟨(hnext b).lt, fun x => ?_, fun l hl => ?_⟩
        · rw [(hnext b).result_eq, hup, hl, Function.update_self]
        · exact (hnext b).above l ((ho.next_above _ d hat b).of_le (Nat.le_of_lt (hl d hat)))
      · simp only [hl, if_false]
        have hent : Decision.Enterable n t.decisions { d with
            high := entries.getD d.high (Decision.answer false)
            low := entries.getD d.low (Decision.answer false) } := by
          refine ⟨ho.level_lt _ d hat, fun c => ?_, fun c => ?_⟩
          · cases c with
            | false => exact (hnext false).lt
            | true => exact (hnext true).lt
          · cases c with
            | false => exact (hnext false).above _ (ho.next_above _ d hat false)
            | true => exact (hnext true).above _ (ho.next_above _ d hat true)
        have hin := h.good.enter hent
        refine h.push hin.extend hin.good ⟨hin.lt, fun x => ?_, fun l hl => hin.above l (hl d hat)⟩
        rw [hin.result_eq, hup, Function.update_of_ne hl]
        cases hb : x d.level with
        | false => exact (hnext false).result_eq x
        | true => exact (hnext true).result_eq x
  obtain ⟨entries, t⟩ := r
  have hroot := hloop.fixes f.root (by simpa using hf.root_lt)
  exact ⟨⟨hloop.good.toReduced, hroot.lt⟩, hroot.result_eq⟩

theorem canonical_exist (hf : f.Canonical n) (l : Nat) : (exist f l).Canonical n :=
  ((fix_spec hf.toWellFormed l true).1.merge (fix_spec hf.toWellFormed l false).1).canonical

theorem eval_exist (hf : f.Canonical n) (l : Nat) (x : Nat → Bool) : (exist f l).eval x =
    (f.eval (Function.update x l true) || f.eval (Function.update x l false)) := by
  obtain ⟨htrue, hevalt⟩ := fix_spec hf.toWellFormed l true
  obtain ⟨hfalse, hevalf⟩ := fix_spec hf.toWellFormed l false
  rw [exist, combine, eval_layout (htrue.merge hfalse), eval_merge htrue hfalse, hevalt, hevalf]

/-! ### Diagrams as nodes -/

/-- What a diagram asks for first. -/
def vertex? (f : Diagram) : Option (Vertex Diagram) :=
  (Decision.at? f.decisions f.root).map f.vertex

theorem vertex_next (f : Diagram) (d : Decision) (b : Bool) :
    (f.vertex d).next b = f.startAt (d.next b) := by
  cases b <;> rfl

theorem startAt_root (hf : f.Canonical n) : f.startAt f.root = f :=
  hf.layout_eq

section StartAt

variable {k : Nat} (hf : f.WellFormed n) (hk : k < f.decisions.size + 2)
include hf hk

theorem WellFormed.setRoot : WellFormed n ⟨f.decisions, k⟩ :=
  ⟨hf.reduced, hk⟩

theorem canonical_startAt : (f.startAt k).Canonical n :=
  (hf.setRoot hk).canonical

theorem eval_startAt (x : Nat → Bool) : (f.startAt k).eval x = result f.decisions k x :=
  eval_layout (hf.setRoot hk) x

/-- A diagram that starts at an entry of another one asks for what is asked for there. -/
theorem vertex?_startAt :
    (f.startAt k).vertex? = (Decision.at? f.decisions k).map f.vertex := by
  have hg := canonical_startAt hf hk
  rcases hg.reduced.graph.alike hf.reduced.graph hg.root_lt hk (eval_startAt hf hk) with
    ⟨hv, hw⟩ | ⟨v, w, hv, hw, ha⟩
  · rw [vertex?, Option.map_eq_none_iff.mp hv, Option.map_eq_none_iff.mp hw]
    rfl
  · obtain ⟨d, hd, rfl⟩ := Option.map_eq_some_iff.mp hv
    obtain ⟨e, he, rfl⟩ := Option.map_eq_some_iff.mp hw
    have hside (b : Bool) : (f.startAt k).startAt (d.next b) = f.startAt (e.next b) := by
      have hlt := Nat.lt_trans (hg.reduced.next_lt _ d hd b) hg.root_lt
      have hlt' := Nat.lt_trans (hf.reduced.next_lt _ e he b) hk
      exact layout_congr (hg.setRoot hlt) (hf.setRoot hlt') (ha.value_eq b)
    rw [vertex?, hd, he, Option.map_some, Option.map_some, vertex, vertex]
    exact congrArg some (congr (congrArg₂ Vertex.mk ha.level_eq (hside false)) (hside true))

end StartAt

theorem eval_vertex (hf : f.Canonical n) {v : Vertex Diagram} (hv : f.vertex? = some v)
    (x : Nat → Bool) : f.eval x = (v.next (x v.level)).eval x := by
  obtain ⟨d, hd, rfl⟩ := Option.map_eq_some_iff.mp hv
  have hlt := Nat.lt_trans (hf.reduced.next_lt _ d hd (x d.level)) hf.root_lt
  rw [vertex_next]
  exact (Decision.result_of_some hf.reduced.toOrdered hd x).trans
    (eval_startAt hf.toWellFormed hlt x).symm

/-- The canonical diagrams of functions of `n` variables. -/
def graph (n : Nat) : NodeGraph Diagram (const false) (const true) n where
  IsNode := Canonical n
  vertex? := vertex?
  value := eval
  isNode_zero := canonical_const false
  isNode_one := canonical_const true
  vertex?_zero := rfl
  vertex?_one := rfl
  eq_of_vertex?_eq_none {f} hf h := by
    have hat := Option.map_eq_none_iff.mp h
    have hconst : f = const (decide (f.root = 1)) :=
      hf.eq_of_eval_eq (canonical_const (n := n) _) fun x =>
        (Decision.result_of_none hat x).trans (eval_const _ x).symm
    cases hroot : decide (f.root = 1) with
    | false => exact .inl (hroot ▸ hconst)
    | true => exact .inr (hroot ▸ hconst)
  isNode_next {f v} hf h b := by
    obtain ⟨d, hd, rfl⟩ := Option.map_eq_some_iff.mp h
    rw [vertex_next]
    exact canonical_startAt hf.toWellFormed
      (Nat.lt_trans (hf.reduced.next_lt _ d hd b) hf.root_lt)
  level_lt {f v} hf h := by
    obtain ⟨d, hd, rfl⟩ := Option.map_eq_some_iff.mp h
    exact hf.reduced.level_lt _ d hd
  level_next {f v} hf h b w hw := by
    obtain ⟨d, hd, rfl⟩ := Option.map_eq_some_iff.mp h
    rw [vertex_next, vertex?_startAt hf.toWellFormed
      (Nat.lt_trans (hf.reduced.next_lt _ d hd b) hf.root_lt)] at hw
    obtain ⟨e, he, rfl⟩ := Option.map_eq_some_iff.mp hw
    exact hf.reduced.next_above _ d hd b e he
  high_ne_low {f v} hf h heq := by
    obtain ⟨d, hd, rfl⟩ := Option.map_eq_some_iff.mp h
    have hlt (b : Bool) := Nat.lt_trans (hf.reduced.next_lt _ d hd b) hf.root_lt
    refine hf.reduced.high_ne_low _ d hd (hf.reduced.eq_of_result_eq (hlt true) (hlt false)
      fun x => ?_)
    calc result f.decisions d.high x
      _ = (f.startAt d.high).eval x := (eval_startAt hf.toWellFormed (hlt true) x).symm
      _ = (f.startAt d.low).eval x := congrArg (eval · x) heq
      _ = result f.decisions d.low x := eval_startAt hf.toWellFormed (hlt false) x
  eq_of_vertex?_eq {f g v} hf hg h h' := by
    refine hf.eq_of_eval_eq hg fun x => ?_
    rw [eval_vertex hf h, eval_vertex hg h']
  value_zero := eval_const false
  value_one := eval_const true
  value_vertex hf h x := eval_vertex hf h x

theorem mem_nodes_iff {g : Diagram} {v : Vertex Diagram} : (g, v) ∈ f.nodes ↔
    ∃ k d, Decision.at? f.decisions k = some d ∧ g = f.startAt k ∧ v = f.vertex d := by
  simp only [nodes, List.mem_map, Prod.exists, List.mem_zipIdx_iff_getElem?, Prod.mk.injEq,
    Array.getElem?_toList]
  constructor
  · rintro ⟨d, i, hd, rfl, rfl⟩
    exact ⟨i + 2, d, Decision.at?_eq_some_iff.mpr ⟨by omega, hd⟩, rfl, rfl⟩
  · rintro ⟨k, d, hd, rfl, rfl⟩
    obtain ⟨h2, hk⟩ := Decision.at?_eq_some_iff.mp hd
    exact ⟨d, k - 2, hk, by rw [Nat.sub_add_cancel h2], rfl⟩

theorem exists_startAt_of_reaches {g : Diagram} (hf : f.Canonical n)
    (h : (graph n).Reaches f g) : ∃ k < f.decisions.size + 2, g = f.startAt k := by
  induction h with
  | start => exact ⟨f.root, hf.root_lt, (startAt_root hf).symm⟩
  | next _ hv b ih =>
    obtain ⟨k, hk, rfl⟩ := ih
    obtain ⟨d, hd, rfl⟩ := Option.map_eq_some_iff.mp
      ((vertex?_startAt hf.toWellFormed hk).symm.trans hv)
    exact ⟨d.next b, Nat.lt_trans (hf.reduced.next_lt _ d hd b) hk, vertex_next f d b⟩

open NodeGraph (Denotes)

/-- Canonical diagrams are the nodes of a package. -/
instance (n : Nat) : NodeTable Diagram n where
  toNodeGraph := graph n
  var_denotes hl := ⟨canonical_literal hl true, fun x =>
    (eval_literal _ true x).trans (beq_true _)⟩
  nvar_denotes hl := ⟨canonical_literal hl false, fun x =>
    (eval_literal _ false x).trans (beq_false _)⟩
  not_denotes hf := ⟨canonical_not hf.isNode, fun x =>
    (eval_not hf.isNode x).trans (congrArg _ (hf.value_eq x))⟩
  and_denotes hf hg := ⟨canonical_and hf.isNode hg.isNode, fun x =>
    (eval_and hf.isNode hg.isNode x).trans (congrArg₂ _ (hf.value_eq x) (hg.value_eq x))⟩
  or_denotes hf hg := ⟨canonical_or hf.isNode hg.isNode, fun x =>
    (eval_or hf.isNode hg.isNode x).trans (congrArg₂ _ (hf.value_eq x) (hg.value_eq x))⟩
  ite_denotes {c f g χ φ ψ} hc hf hg := by
    refine ⟨canonical_ite hf.isNode hg.isNode hc.isNode, fun x => ?_⟩
    have hceq : c.eval x = χ x := hc.value_eq x
    have hfeq : f.eval x = φ x := hf.value_eq x
    have hgeq : g.eval x = ψ x := hg.value_eq x
    rw [← hceq, ← hfeq, ← hgeq]
    exact eval_ite hf.isNode hg.isNode hc.isNode x
  exist_denotes hf _ := ⟨canonical_exist hf.isNode _, fun x =>
    (eval_exist hf.isNode _ x).trans (congrArg₂ _ (hf.value_eq _) (hf.value_eq _))⟩
  mem_nodes {f g v} hf hreach hv := by
    obtain ⟨k, hk, rfl⟩ := exists_startAt_of_reaches hf hreach
    obtain ⟨d, hd, rfl⟩ := Option.map_eq_some_iff.mp
      ((vertex?_startAt hf.toWellFormed hk).symm.trans hv)
    exact mem_nodes_iff.mpr ⟨k, d, hd, rfl, rfl⟩
  eq_of_mem_nodes {f g v w} hf hmem hw := by
    obtain ⟨k, d, hd, rfl, rfl⟩ := mem_nodes_iff.mp hmem
    have hat := vertex?_startAt hf.toWellFormed (Decision.lt_of_at? hd).2
    rw [hd] at hat
    exact Option.some.inj (hat.symm.trans hw)

end Diagram

end MuProc
