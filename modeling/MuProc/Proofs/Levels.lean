import MuProc.Proofs.Indices

/-!
# Levels

The variable order of a numbered formula puts the nodes of later blocks first, so inner ones
before those around them, and the nodes of one block in the order of their numbers. As a list
of levels it is a permutation. Permutations are exactly the orders that are accepted when a
space is made, which then keeps the levels as given and the inputs as their inverse.
-/

namespace MuProc

/-- The node `s` comes first: it stands in a later block, or in the same one before `t`. -/
def Subformula.Precedes (s t : Subformula) : Prop :=
  t.block < s.block ∨ s.block = t.block ∧ s.var < t.var

namespace Index

/-! ### The variable order -/

theorem before_iff {s t : Subformula} :
    before s t = true ↔ s.Precedes t ∨ s.block = t.block ∧ s.var = t.var := by
  unfold before Subformula.Precedes
  split
  · rw [decide_eq_true_iff]
    omega
  · rw [decide_eq_true_iff]
    omega

theorem before_trans (r s t : Subformula) (hrs : before r s = true) (hst : before s t = true) :
    before r t = true := by
  rw [before_iff, Subformula.Precedes] at hrs hst ⊢
  omega

theorem before_total (s t : Subformula) : (before s t || before t s) = true := by
  rw [Bool.or_eq_true, before_iff, before_iff, Subformula.Precedes, Subformula.Precedes]
  omega

namespace WellFormed

variable {idx : Index} (h : idx.WellFormed)
include h

theorem nodup_arrangement : idx.arrangement.Nodup :=
  h.arrangement_perm.nodup_iff.mpr List.nodup_range

theorem order_perm : idx.order.Perm (List.range idx.size) := by
  have hsub : idx.order ⊆ List.range idx.size := fun m hm => List.mem_range.mpr (h.order_lt hm)
  exact (List.subperm_of_subset h.nodup_order hsub).perm_of_length_le (by simp [order])

/-- The nodes are sorted strictly, as their numbers differ. -/
theorem pairwise_precedes :
    (idx.subs.toList.mergeSort before).Pairwise Subformula.Precedes := by
  have hsorted : (idx.subs.toList.mergeSort before).Pairwise (before · · = true) :=
    List.pairwise_mergeSort before_trans before_total _
  have hdistinct : (idx.subs.toList.mergeSort before).Pairwise (·.var ≠ ·.var) :=
    List.pairwise_map.mp h.nodup_arrangement
  refine (hsorted.and hdistinct).imp ?_
  intro s t hst
  obtain hlt | heq := before_iff.mp hst.1
  · exact hlt
  · exact absurd heq.2 hst.2

/-- The level of a node is its place among the sorted nodes. -/
theorem exists_level {v : Nat} {s : Subformula} (hs : idx.subs[v]? = some s) :
    ∃ l, idx.order[v]? = some l ∧ (idx.subs.toList.mergeSort before)[l]? = some s := by
  have hmem : s ∈ idx.subs.toList.mergeSort before := by
    rw [List.mem_mergeSort]
    exact Array.mem_toList_iff.mpr (Array.mem_of_getElem? hs)
  obtain ⟨l, hl⟩ := List.mem_iff_getElem?.mp hmem
  have hplace : idx.arrangement[l]? = some v := by
    rw [arrangement, List.getElem?_map, hl, Option.map_some, h.var_eq v s hs]
  obtain ⟨hlt, hget⟩ := List.getElem?_eq_some_iff.mp hplace
  have hv : v < idx.size := (Array.getElem?_eq_some_iff.mp hs).1
  refine ⟨l, ?_, hl⟩
  rw [order, List.getElem?_map, List.getElem?_range hv, Option.map_some, ← hget,
    h.nodup_arrangement.idxOf_getElem l hlt]

theorem level_lt_iff {v w : Nat} {s t : Subformula} (hs : idx.subs[v]? = some s)
    (ht : idx.subs[w]? = some t) :
    ∃ l m, idx.order[v]? = some l ∧ idx.order[w]? = some m ∧ (l < m ↔ s.Precedes t) := by
  obtain ⟨l, hl, hsl⟩ := h.exists_level hs
  obtain ⟨m, hm, htm⟩ := h.exists_level ht
  refine ⟨l, m, hl, hm, ?_⟩
  have hsorted := List.pairwise_iff_getElem.mp h.pairwise_precedes
  obtain ⟨hll, rfl⟩ := List.getElem?_eq_some_iff.mp hsl
  obtain ⟨hml, rfl⟩ := List.getElem?_eq_some_iff.mp htm
  constructor
  · exact hsorted l m hll hml
  · intro hst
    -- in the other two cases the sorted nodes contradict the strict order of `s` and `t`
    obtain hlt | rfl | hgt := Nat.lt_trichotomy l m
    · exact hlt
    · simp only [Subformula.Precedes] at hst
      omega
    · have hts := hsorted m l hml hll hgt
      simp only [Subformula.Precedes] at hst hts
      omega

end WellFormed

end Index

namespace Space

/-! ### The check of an order -/

/-- The order of `n` inputs passes its check: only their number can stand in the way of a space. -/
def AcceptsOrder (n : Int) (order : List Int) : Prop :=
  ∀ e, make n (some order) = .error e → e = .tooLarge n

theorem checkLevels_eq_error {n j : Nat} {seen : Std.HashSet Int} {l : List Int} {e : SpaceError}
    (h : checkLevels n j seen l = .error e) : ∃ i m, e = .notPermutation i m := by
  induction l generalizing j seen with
  | nil => cases h
  | cons m l ih =>
    rw [checkLevels] at h
    split at h
    · exact ⟨j, m, (Except.error.inj h).symm⟩
    · exact ih h

theorem levels_ne_tooLarge {n : Nat} {order : List Int} {d : Int} :
    levels n (some order) ≠ .error (.tooLarge d) := by
  intro h
  simp only [levels] at h
  split at h
  · cases h
  · obtain hcheck | ⟨u, -, hu⟩ := Fold.bind_eq_error.mp h
    · obtain ⟨i, m, he⟩ := checkLevels_eq_error hcheck
      cases he
    · cases hu

theorem make_of_levels_error {n : Int} {order : Option (List Int)} {e : SpaceError} (hpos : 0 < n)
    (h : levels n.toNat order = .error e) : make n order = .error e := by
  have hneg : ¬ n ≤ 0 := by omega
  simp only [make, hneg, if_false, h]
  rfl

theorem acceptsOrder_iff {n : Int} {order : List Int} (hpos : 0 < n) :
    AcceptsOrder n order ↔ ∃ l, levels n.toNat (some order) = .ok l := by
  constructor
  · intro h
    cases hlevels : levels n.toNat (some order) with
    | ok l => exact ⟨l, rfl⟩
    | error e =>
      obtain rfl := h e (make_of_levels_error hpos hlevels)
      exact absurd hlevels levels_ne_tooLarge
  · intro ⟨l, hl⟩ e he
    rw [make_of_levels hpos hl] at he
    split at he
    · exact (Except.error.inj he).symm
    · cases he

/-- The variable order is a permutation with the nodes of later blocks first, and it is accepted.
Exactly the permutations are accepted, and a space keeps them together with their inverse. -/
theorem order_accepted :
    (∀ f idx, Index.ofFormula f = .ok idx →
      idx.order.Perm (List.range idx.size) ∧
      (∀ (v w : Nat) s t, idx.subs[v]? = some s → idx.subs[w]? = some t →
        ∃ l m, idx.order[v]? = some l ∧ idx.order[w]? = some m ∧
          (l < m ↔ t.block < s.block ∨ s.block = t.block ∧ v < w)) ∧
      AcceptsOrder idx.size (idx.order.map Int.ofNat)) ∧
    ∀ (n : Int) (order : List Int), 0 < n →
      (AcceptsOrder n order ↔
        (order.length : Int) = n ∧ order.Perm ((List.range n.toNat).map Int.ofNat)) ∧
      (AcceptsOrder n order → ∃ level input,
        level.toList.map Int.ofNat = order ∧ Inverse n.toNat level input ∧
        make n (some order) =
          if maxDim < n then .error (.tooLarge n)
          else .ok { dim := n.toNat, level := level, input := input }) := by
  constructor
  · intro f idx hidx
    have hwf := Index.wellFormed_of_ofFormula hidx
    refine ⟨hwf.order_perm, fun v w s t hs ht => ?_, ?_⟩
    · rw [← hwf.var_eq v s hs, ← hwf.var_eq w t ht]
      exact hwf.level_lt_iff (hwf.var_eq v s hs ▸ hs) (hwf.var_eq w t ht ▸ ht)
    · have hpos : (0 : Int) < idx.size := Int.ofNat_lt.mpr hwf.size_pos
      exact (acceptsOrder_iff hpos).mpr ⟨_, levels_eq_ok_iff.mpr ⟨rfl, hwf.order_perm⟩⟩
  · intro n order hpos
    rw [acceptsOrder_iff hpos]
    constructor
    · simp only [levels_eq_ok_iff, ← perm_ofNat_iff]
      refine ⟨fun hperm => ⟨?_, hperm⟩, fun h => h.2⟩
      have hlen := hperm.length_eq
      rw [List.length_map, List.length_range] at hlen
      omega
    · intro ⟨l, hl⟩
      obtain ⟨horder, hperm⟩ := levels_eq_ok_iff.mp hl
      exact ⟨l.toArray, invert l, horder.symm, inverse_invert hperm, make_of_levels hpos hl⟩

/-- The nodes of a fixpoint come before those around it, so the levels differ from their inverse. -/
theorem order_accepted_inner :
    ∃ idx sp, Index.ofFormula (.and (.atom "q") (.mu "X" (.dia "" (.var "X")))) = .ok idx ∧
      idx.order = [3, 0, 1, 2, 4] ∧ make 5 (some [3, 0, 1, 2, 4]) = .ok sp ∧
      sp.level = #[3, 0, 1, 2, 4] ∧ sp.input[0]? = some 1 ∧ sp.input[3]? = some 0 := by
  obtain ⟨idx, hidx, hsize, horder⟩ : ∃ idx,
      Index.ofFormula (.and (.atom "q") (.mu "X" (.dia "" (.var "X")))) = .ok idx ∧
      idx.size = 5 ∧ idx.order = [3, 0, 1, 2, 4] := by
    refine ⟨{
      subs := #[
        { node := .atom "q", var := 0, block := 0, kind := .plain },
        { node := .var "X", var := 1, block := 1, kind := .least, binder := some 3 },
        { node := .dia "" (.var "X"), var := 2, block := 1, kind := .least, left := some 1 },
        { node := .mu "X" (.dia "" (.var "X")), var := 3, block := 1, kind := .least,
          left := some 2 },
        { node := .and (.atom "q") (.mu "X" (.dia "" (.var "X"))), var := 4, block := 0,
          kind := .plain, left := some 0, right := some 3 }]
      blocks := #[
        { number := 0, kind := .plain, parent := none, vars := [0, 4] },
        { number := 1, kind := .least, parent := some 0, vars := [1, 2, 3] }]
      root := 4 }, rfl, rfl, ?_⟩
    simp [Index.order, Index.arrangement, Index.size, Index.before, List.mergeSort,
      List.range_succ, List.idxOf_cons]
  have haccepts : AcceptsOrder 5 [3, 0, 1, 2, 4] := by
    have h := (order_accepted.1 _ idx hidx).2.2
    rwa [hsize, horder] at h
  obtain ⟨level, input, hlevel, hinverse, hmake⟩ :=
    (order_accepted.2 5 [3, 0, 1, 2, 4] (by decide)).2 haccepts
  obtain rfl : level = #[3, 0, 1, 2, 4] := by
    have hlist : level.toList = [3, 0, 1, 2, 4] :=
      List.map_injective_iff.mpr (fun i j hij => Int.ofNat.inj hij) hlevel
    rw [← hlist, Array.toArray_toList]
  rw [if_neg (by decide)] at hmake
  exact ⟨idx, _, hidx, horder, hmake, rfl, (hinverse.level_iff 1 0).mp rfl,
    (hinverse.level_iff 0 3).mp rfl⟩

end Space

end MuProc
