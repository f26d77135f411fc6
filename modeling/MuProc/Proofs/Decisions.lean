import MuProc.Transformer.Decision
import MuProc.Proofs.NodeGraphs

/-!
# Ordered and reduced decision tables

A table is ordered when every decision leads to earlier entries at higher levels,
and reduced when no decision is superfluous and none is repeated. The entries of a
reduced table are the nodes of a graph, so two entries with the same answers are the
same entry.
-/

namespace MuProc.Decision

variable {n : Nat} {ds es : Array Decision} {k l : Nat} {d e : Decision}

/-! ### Entries -/

theorem at?_eq_some_iff : at? ds k = some d ↔ 2 ≤ k ∧ ds[k - 2]? = some d := by
  unfold at?
  split
  · simp only [reduceCtorEq, false_iff, not_and]
    omega
  · simp only [iff_and_self]
    omega

theorem lt_of_at? (h : at? ds k = some d) : 2 ≤ k ∧ k < ds.size + 2 := by
  obtain ⟨h2, hk⟩ := at?_eq_some_iff.mp h
  obtain ⟨hlt, -⟩ := Array.getElem?_eq_some_iff.mp hk
  omega

theorem lt_two_of_at?_none (h : at? ds k = none) (hk : k < ds.size + 2) : k < 2 := by
  by_contra hge
  rw [at?, if_neg hge, Array.getElem?_eq_none_iff] at h
  omega

theorem at?_push (d : Decision) (hk : k < ds.size + 2) : at? (ds.push d) k = at? ds k := by
  unfold at?
  split
  · rfl
  · rw [Array.getElem?_push, if_neg (by omega)]

theorem at?_push_last (d : Decision) : at? (ds.push d) (ds.size + 2) = some d := by
  rw [at?_eq_some_iff]
  simp

theorem at?_push_of_gt (d : Decision) (hk : ds.size + 2 < k) : at? (ds.push d) k = none := by
  rw [at?, if_neg (by omega), Array.getElem?_eq_none_iff, Array.size_push]
  omega

theorem at?_empty (k : Nat) : at? #[] k = none := by
  unfold at?
  split <;> rfl

/-- The first decision from entry `k` on, if there is one, lies above level `l`. -/
def Above (ds : Array Decision) (l k : Nat) : Prop :=
  ∀ d, at? ds k = some d → l < d.level

theorem Above.of_le {l' : Nat} (h : Above ds l k) (hl : l' ≤ l) : Above ds l' k :=
  fun d hd => Nat.lt_of_le_of_lt hl (h d hd)

/-- Decisions lead to earlier entries above their levels. -/
structure Ordered (n : Nat) (ds : Array Decision) : Prop where
  level_lt : ∀ k d, at? ds k = some d → d.level < n
  next_lt : ∀ k d, at? ds k = some d → ∀ b, d.next b < k
  next_above : ∀ k d, at? ds k = some d → ∀ b, Above ds d.level (d.next b)

theorem Ordered.empty : Ordered n #[] := by
  constructor <;> simp [at?_empty]

/-! ### The answer found from an entry on -/

/-- The answer from entry `k` on. -/
def result (ds : Array Decision) (k : Nat) (x : Nat → Bool) : Bool :=
  value ds x ds.size k

theorem value_of_none (x : Nat → Bool) (fuel : Nat) (h : at? ds k = none) :
    value ds x fuel k = decide (k = 1) := by
  cases fuel with
  | zero => rfl
  | succ fuel => simp [value, h]

/-- As much fuel as the number of the entry is enough, and more changes nothing. -/
theorem value_eq_value (ho : Ordered n ds) (x : Nat → Bool) {fuel fuel' : Nat}
    (hf : k < fuel + 2) (hf' : k < fuel' + 2) : value ds x fuel k = value ds x fuel' k := by
  induction k using Nat.strongRecOn generalizing fuel fuel' with
  | ind k ih =>
    cases hd : at? ds k with
    | none => rw [value_of_none x _ hd, value_of_none x _ hd]
    | some d =>
      have h2 := (lt_of_at? hd).1
      obtain ⟨fuel, rfl⟩ : ∃ m, fuel = m + 1 := ⟨fuel - 1, by omega⟩
      obtain ⟨fuel', rfl⟩ : ∃ m, fuel' = m + 1 := ⟨fuel' - 1, by omega⟩
      have hlt := ho.next_lt k d hd (x d.level)
      simp only [value, hd]
      exact ih _ hlt (by omega) (by omega)

theorem result_of_none (h : at? ds k = none) (x : Nat → Bool) : result ds k x = decide (k = 1) :=
  value_of_none x _ h

theorem result_of_some (ho : Ordered n ds) (h : at? ds k = some d) (x : Nat → Bool) :
    result ds k x = result ds (d.next (x d.level)) x := by
  have hk := lt_of_at? h
  have hlt := ho.next_lt k d h (x d.level)
  obtain ⟨m, hm⟩ : ∃ m, ds.size = m + 1 := ⟨ds.size - 1, by omega⟩
  unfold result
  rw [hm]
  conv_lhs => rw [value, h]
  exact value_eq_value ho x (by omega) (by omega)

/-! ### Reduced tables -/

/-- No decision is superfluous, and none is repeated. -/
structure Reduced (n : Nat) (ds : Array Decision) : Prop extends Ordered n ds where
  high_ne_low : ∀ k d, at? ds k = some d → d.high ≠ d.low
  distinct : ∀ k k' d, at? ds k = some d → at? ds k' = some d → k = k'

/-- What a decision asks for, and the entries to go on with. -/
def vertex (d : Decision) : Vertex Nat :=
  ⟨d.level, d.low, d.high⟩

/-- The entries of a reduced table are nodes. -/
def Reduced.graph (hr : Reduced n ds) : NodeGraph Nat (answer false) (answer true) n where
  IsNode k := k < ds.size + 2
  vertex? k := (at? ds k).map vertex
  value := result ds
  isNode_zero := Nat.zero_lt_succ _
  isNode_one := Nat.succ_lt_succ (Nat.zero_lt_succ _)
  vertex?_zero := rfl
  vertex?_one := rfl
  eq_of_vertex?_eq_none hk h := by
    have := lt_two_of_at?_none (Option.map_eq_none_iff.mp h) hk
    simp only [answer, Bool.false_eq_true, if_false, if_true]
    omega
  isNode_next hk h b := by
    obtain ⟨d, hd, rfl⟩ := Option.map_eq_some_iff.mp h
    exact Nat.lt_trans (hr.next_lt _ d hd b) hk
  level_lt _ h := by
    obtain ⟨d, hd, rfl⟩ := Option.map_eq_some_iff.mp h
    exact hr.level_lt _ d hd
  level_next _ h b w hw := by
    obtain ⟨d, hd, rfl⟩ := Option.map_eq_some_iff.mp h
    obtain ⟨e, he, rfl⟩ := Option.map_eq_some_iff.mp hw
    exact hr.next_above _ d hd b e he
  high_ne_low _ h := by
    obtain ⟨d, hd, rfl⟩ := Option.map_eq_some_iff.mp h
    exact hr.high_ne_low _ d hd
  eq_of_vertex?_eq _ _ h h' := by
    obtain ⟨d, hd, rfl⟩ := Option.map_eq_some_iff.mp h
    obtain ⟨e, he, hde⟩ := Option.map_eq_some_iff.mp h'
    obtain rfl : e = d := by
      cases d
      cases e
      simp_all [vertex]
    exact hr.distinct _ _ e hd he
  value_zero x := result_of_none rfl x
  value_one x := result_of_none rfl x
  value_vertex _ h x := by
    obtain ⟨d, hd, rfl⟩ := Option.map_eq_some_iff.mp h
    exact result_of_some hr.toOrdered hd x

/-- In a reduced table entries with the same answers are the same. -/
theorem Reduced.eq_of_result_eq (hr : Reduced n ds) {k k' : Nat} (hk : k < ds.size + 2)
    (hk' : k' < ds.size + 2) (hx : ∀ x, result ds k x = result ds k' x) : k = k' :=
  hr.graph.eq_of_value_eq hk hk' hx

end MuProc.Decision
