import MuProc.Transformer.Space
import MuProc.Proofs.Folds
import Mathlib.Data.List.Nodup
import Mathlib.Data.List.Perm.Basic

/-!
# The levels of a space

The order of the inputs passes its check exactly if it is a permutation, and a space has
it together with its inverse.
-/

namespace MuProc.Space

/-! ### The inverse of a permutation -/

/-- The maps are inverse to each other on the numbers below `n`. -/
structure Inverse (n : Nat) (level input : Array Nat) : Prop where
  size_level : level.size = n
  size_input : input.size = n
  level_iff : ∀ j l : Nat, level[j]? = some l ↔ input[l]? = some j

/-- The first `k` inputs are entered at their levels. -/
structure InvertedTo (levels : List Nat) (k : Nat) (a : Array Nat) : Prop where
  size_eq : a.size = levels.length
  entered : ∀ j l : Nat, j < k → levels[j]? = some l → a[l]? = some j

section Inversion

variable {levels : List Nat} (hnodup : levels.Nodup)
include hnodup

theorem InvertedTo.enter {k l : Nat} {a : Array Nat} (h : InvertedTo levels k a)
    (hk : levels[k]? = some l) (hl : l < levels.length) :
    InvertedTo levels (k + 1) (a.setIfInBounds l k) where
  size_eq := by rw [Array.size_setIfInBounds, h.size_eq]
  entered := by
    intro j m hj hm
    by_cases hjk : j = k
    · subst hjk
      obtain rfl : l = m := Option.some.inj (hk.symm.trans hm)
      exact Array.getElem?_setIfInBounds_self_of_lt (h.size_eq ▸ hl)
    · -- an earlier input has another level, so its entry stays
      have hne : l ≠ m := by
        rintro rfl
        obtain ⟨hj', hm⟩ := List.getElem?_eq_some_iff.mp hm
        obtain ⟨hk', hk⟩ := List.getElem?_eq_some_iff.mp hk
        exact hjk ((hnodup.getElem_inj_iff).mp (hm.trans hk.symm))
      rw [Array.getElem?_setIfInBounds_ne hne]
      exact h.entered j m (by omega) hm

theorem invertedTo_invert (hlt : ∀ l ∈ levels, l < levels.length) :
    InvertedTo levels levels.length (invert levels) := by
  have hstart : InvertedTo levels 0 (Array.replicate levels.length 0) :=
    ⟨Array.size_replicate, fun j l hj => absurd hj (Nat.not_lt_zero j)⟩
  have hrun : InvertedTo levels levels.zipIdx.length (invert levels) := by
    rw [invert]
    refine Fold.foldl_inv hstart ?_
    intro k entry a hentry ha
    rw [List.getElem?_zipIdx, Nat.zero_add, Option.map_eq_some_iff] at hentry
    obtain ⟨l, hl, rfl⟩ := hentry
    exact ha.enter hnodup hl (hlt l (List.mem_of_getElem? hl))
  rwa [List.length_zipIdx] at hrun

end Inversion

theorem inverse_invert {n : Nat} {l : List Nat} (h : l.Perm (List.range n)) :
    Inverse n l.toArray (invert l) := by
  have hlen : l.length = n := by simpa using h.length_eq
  have hmem (m : Nat) : m ∈ l ↔ m < n := by rw [h.mem_iff, List.mem_range]
  have hinv := invertedTo_invert (h.nodup_iff.mpr List.nodup_range)
    fun m hm => hlen ▸ (hmem m).mp hm
  have hentered (j m : Nat) (hm : l[j]? = some m) : (invert l)[m]? = some j :=
    hinv.entered j m (List.getElem?_eq_some_iff.mp hm).1 hm
  have hsize : (invert l).size = n := hinv.size_eq.trans hlen
  refine ⟨by simpa using hlen, hsize, fun j m => ?_⟩
  rw [List.getElem?_toArray]
  refine ⟨hentered j m, fun hj => ?_⟩
  -- level `m` belongs to some input `i`, and one input only is entered there
  have hm : m < n := hsize ▸ (Array.getElem?_eq_some_iff.mp hj).1
  obtain ⟨i, hi⟩ := List.mem_iff_getElem?.mp ((hmem m).mpr hm)
  obtain rfl : i = j := Option.some.inj ((hentered i m hi).symm.trans hj)
  exact hi

/-! ### The levels of a space -/

/-- Levels pass the check exactly if they are distinct, new and within bounds. -/
theorem checkLevels_eq_ok (n : Nat) (j : Nat) (seen : Std.HashSet Int) (l : List Int) :
    checkLevels n j seen l = .ok () ↔
      l.Nodup ∧ ∀ m ∈ l, 0 ≤ m ∧ m < n ∧ ¬ seen.contains m := by
  induction l generalizing j seen with
  | nil => simp [checkLevels]
  | cons m l ih =>
    rw [checkLevels]
    by_cases hm : m < 0 ∨ (n : Int) ≤ m ∨ seen.contains m = true
    · rw [if_pos hm]
      simp only [reduceCtorEq, List.nodup_cons, List.mem_cons, forall_eq_or_imp, false_iff, not_and]
      intro _ hcond
      rcases hm with hm | hm | hm
      · omega
      · omega
      · exact absurd hm hcond.2.2
    · rw [if_neg hm, ih]
      simp only [not_or, Int.not_lt, Int.not_le] at hm
      simp only [Std.HashSet.contains_insert, Bool.or_eq_true, beq_iff_eq, List.nodup_cons,
        List.mem_cons, forall_eq_or_imp, not_or]
      constructor
      · rintro ⟨hnodup, hall⟩
        refine ⟨⟨fun hmem => (hall m hmem).2.2.1 rfl, hnodup⟩, ⟨hm.1, hm.2.1, hm.2.2⟩, ?_⟩
        exact fun m' hm' => ⟨(hall m' hm').1, (hall m' hm').2.1, (hall m' hm').2.2.2⟩
      · rintro ⟨⟨hnew, hnodup⟩, -, hall⟩
        refine ⟨hnodup, fun m' hm' => ⟨(hall m' hm').1, (hall m' hm').2.1, ?_, (hall m' hm').2.2⟩⟩
        rintro rfl
        exact hnew hm'

/-- Permutations of the levels, as integers and as natural numbers. -/
theorem perm_ofNat_iff {n : Nat} {order : List Int} :
    order.Perm ((List.range n).map Int.ofNat) ↔
      ∃ l : List Nat, order = l.map Int.ofNat ∧ l.Perm (List.range n) := by
  constructor
  · intro h
    have hnat (m : Int) (hm : m ∈ order) : Int.ofNat m.toNat = m := by
      obtain ⟨k, -, rfl⟩ := List.mem_map.mp (h.mem_iff.mp hm)
      rfl
    refine ⟨order.map Int.toNat, ?_, ?_⟩
    · rw [List.map_map]
      exact ((List.map_congr_left hnat).trans (List.map_id order)).symm
    · simpa [Function.comp_def] using h.map Int.toNat
  · rintro ⟨l, rfl, h⟩
    exact h.map Int.ofNat

/-- An order is accepted exactly if it is a permutation, and its levels are as given. -/
theorem levels_eq_ok_iff {n : Nat} {order : List Int} {l : List Nat} :
    levels n (some order) = .ok l ↔ order = l.map Int.ofNat ∧ l.Perm (List.range n) := by
  have hback (l : List Nat) : (l.map Int.ofNat).map Int.toNat = l := by simp [Function.comp_def]
  constructor
  · intro h
    simp only [levels] at h
    split at h
    · cases h
    · rename_i hlen
      obtain ⟨u, hcheck, hl⟩ := Fold.bind_eq_ok.mp h
      obtain rfl := Except.ok.inj hl
      obtain ⟨hnodup, hall⟩ := (checkLevels_eq_ok n 0 {} order).mp hcheck
      have hsub : order ⊆ (List.range n).map Int.ofNat := by
        intro m hm
        obtain ⟨h0, hn, -⟩ := hall m hm
        exact List.mem_map.mpr ⟨m.toNat, List.mem_range.mpr (by omega), Int.toNat_of_nonneg h0⟩
      have hperm := (List.subperm_of_subset hnodup hsub).perm_of_length_le (by simp; omega)
      obtain ⟨k, rfl, hk⟩ := perm_ofNat_iff.mp hperm
      rw [hback]
      exact ⟨rfl, hk⟩
  · rintro ⟨rfl, hperm⟩
    have hcheck : checkLevels n 0 {} (l.map Int.ofNat) = .ok () := by
      rw [checkLevels_eq_ok]
      have hnodup : l.Nodup := hperm.nodup_iff.mpr List.nodup_range
      refine ⟨hnodup.map fun i j hij => Int.ofNat.inj hij, fun m hm => ?_⟩
      obtain ⟨v, hv, rfl⟩ := List.mem_map.mp hm
      exact ⟨by simp, by simpa using hperm.mem_iff.mp hv, by simp⟩
    have hlen : l.length = n := by simpa using hperm.length_eq
    simp only [levels, List.length_map, hlen, ne_eq, not_true_eq_false, if_false, hcheck, hback]
    rfl

theorem levels_perm {n : Nat} {order : Option (List Int)} {l : List Nat}
    (h : levels n order = .ok l) : l.Perm (List.range n) := by
  cases order with
  | none =>
    obtain rfl := Except.ok.inj h
    exact .refl _
  | some order => exact (levels_eq_ok_iff.mp h).2

/-- A space as it is made: its maps between inputs and levels are inverse to each other. -/
structure Proper (sp : Space) : Prop extends Inverse sp.dim sp.level sp.input

theorem proper_of_make {n : Int} {order : Option (List Int)} {sp : Space}
    (h : make n order = .ok sp) : sp.Proper ∧ (sp.dim : Int) = n := by
  unfold make at h
  split at h
  · cases h
  · rename_i hpos
    obtain ⟨l, hl, h⟩ := Fold.bind_eq_ok.mp h
    split at h
    · cases h
    · obtain rfl := Except.ok.inj h
      refine ⟨⟨inverse_invert (levels_perm hl)⟩, ?_⟩
      simp only
      omega

/-- Levels that pass the check make a space unless there are too many of them. -/
theorem make_of_levels {n : Int} {order : Option (List Int)} {l : List Nat} (hpos : 0 < n)
    (h : levels n.toNat order = .ok l) :
    make n order =
      if maxDim < n then .error (.tooLarge n)
      else .ok { dim := n.toNat, level := l.toArray, input := invert l } := by
  have hneg : ¬ n ≤ 0 := by omega
  have hmax : maxDim < n.toNat ↔ maxDim < n := by omega
  simp only [make, hneg, if_false, h, hmax]
  rfl

/-- Distinct levels within bounds make a space. -/
theorem make_of_nodup {n : Nat} {l : List Nat} (hpos : 0 < n) (hmax : n ≤ maxDim)
    (hlen : l.length = n) (hnodup : l.Nodup) (hlt : ∀ m ∈ l, m < n) :
    make n (some (l.map Int.ofNat)) = .ok { dim := n, level := l.toArray, input := invert l } := by
  have hsub : l ⊆ List.range n := fun m hm => List.mem_range.mpr (hlt m hm)
  have hperm := (List.subperm_of_subset hnodup hsub).perm_of_length_le (by simp [hlen])
  have hlevels : levels (n : Int).toNat (some (l.map Int.ofNat)) = .ok l :=
    levels_eq_ok_iff.mpr ⟨rfl, hperm⟩
  rw [make_of_levels (by omega) hlevels, if_neg (by omega)]
  rfl

theorem exists_make_of_perm {n : Nat} (hpos : 0 < n) (hmax : n ≤ maxDim)
    {order : Option (List Int)} (h : ∀ l ∈ order, l.Perm ((List.range n).map Int.ofNat)) :
    ∃ sp, make n order = .ok sp := by
  obtain ⟨l, hl⟩ : ∃ l, levels (n : Int).toNat order = .ok l := by
    cases order with
    | none => exact ⟨_, rfl⟩
    | some order =>
      obtain ⟨l, hl⟩ := perm_ofNat_iff.mp (h order rfl)
      exact ⟨l, levels_eq_ok_iff.mpr hl⟩
  exact ⟨_, (make_of_levels (by omega) hl).trans (if_neg (by omega))⟩

end MuProc.Space
