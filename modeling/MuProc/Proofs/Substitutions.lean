import MuProc.Proofs.Transformers

/-!
# Substitution

Rewriting replaces every decision by a choice between its rewritten sides, so the value of
the result is that of the function at the values of the components. The memo stays right
from one node to the next, and from one function to the next.
-/

namespace MuProc.Space

variable {ν : Type} [Package ν] {sp : Space} [NodeTable ν sp.dim] {f g r : ν}
  {s t u : Transformer ν}

/-- What a function becomes when its inputs are replaced by the components of `t`. -/
structure Rewritten (sp : Space) [NodeTable ν sp.dim] (t : Transformer ν) (f r : ν) : Prop where
  fits : sp.Fits r
  value_eq : ∀ x, sp.value r x = sp.value f fun j => t.meaning sp j x

theorem rewritten_const (b : Bool) : Rewritten sp t (Func.const b) (Func.const b) :=
  ⟨fits_const b, fun x => by rw [value_const, value_const]⟩

/-- A decision on the input of its level is a choice by the component for this input. -/
theorem Rewritten.choice (hsp : sp.Proper) {v : Vertex ν} {j : Nat} {c high low : ν}
    (hf : sp.Fits f) (hv : (sp.graph ν).vertex? f = some v) (hj : sp.input[v.level]? = some j)
    (hc : t[j]? = some c) (hcf : sp.Fits c) (hhigh : Rewritten sp t v.high high)
    (hlow : Rewritten sp t v.low low) : Rewritten sp t f (Package.ite c high low) := by
  obtain ⟨hfits, hvalue⟩ := ite_spec hcf hhigh.fits hlow.fits
  refine ⟨hfits, fun x => ?_⟩
  have hlevel : sp.byLevel (fun j => t.meaning sp j x) v.level = sp.value c x := by
    rw [byLevel, hsp.input_getD ((hsp.level_iff j _).mpr hj)]
    exact Transformer.meaning_of_getElem? hc x
  have hvertex : (sp.value f fun j => t.meaning sp j x) =
      sp.value (v.next (sp.value c x)) fun j => t.meaning sp j x := by
    rw [← hlevel]
    exact (sp.graph ν).value_vertex hf hv _
  rw [hvalue, hhigh.value_eq, hlow.value_eq, hvertex]
  cases sp.value c x <;> rfl

variable [DecidableEq ν] [Hashable ν]

/-! ### The vertices of a function -/

/-- The table has exactly the first rows, each at its node. -/
structure TabledTo (rows : List (ν × Vertex ν)) (m : Nat) (table : Std.HashMap ν (Vertex ν)) :
    Prop where
  mem : ∀ g v, table[g]? = some v → (g, v) ∈ rows
  contains : ∀ (i : Nat) row, i < m → rows[i]? = some row → row.1 ∈ table

omit [Package ν] in
theorem TabledTo.insert {rows : List (ν × Vertex ν)} {m : Nat} {row : ν × Vertex ν}
    {table : Std.HashMap ν (Vertex ν)} (h : TabledTo rows m table) (hrow : rows[m]? = some row) :
    TabledTo rows (m + 1) (table.insert row.1 row.2) := by
  refine ⟨fun g v hg => ?_, fun i row' hi hrow' => ?_⟩
  · rw [Std.HashMap.getElem?_insert] at hg
    split at hg
    · rename_i heq
      obtain rfl := Option.some.inj hg
      obtain rfl := eq_of_beq heq
      exact List.mem_of_getElem? hrow
    · exact h.mem g v hg
  · rw [Std.HashMap.mem_insert]
    obtain hlt | rfl := Nat.lt_succ_iff_lt_or_eq.mp hi
    · exact .inr (h.contains i row' hlt hrow')
    · obtain rfl := Option.some.inj (hrow.symm.trans hrow')
      exact .inl (beq_self_eq_true _)

theorem getElem?_vertices {v : Vertex ν} (hf : sp.Fits f) (hg : (sp.graph ν).Reaches f g)
    (hv : (sp.graph ν).vertex? g = some v) : (vertices f)[g]? = some v := by
  have hrun : TabledTo (Package.nodes f) (Package.nodes f).length (vertices f) :=
    Fold.foldl_inv (P := TabledTo (Package.nodes f))
      ⟨fun g v hg => by simp at hg, fun i _ hi => absurd hi (Nat.not_lt_zero i)⟩
      fun _ _ _ hrow h => h.insert hrow
  obtain ⟨i, hi⟩ := List.mem_iff_getElem?.mp (NodeTable.mem_nodes hf hg hv)
  have hmem := hrun.contains i _ (List.getElem?_eq_some_iff.mp hi).1 hi
  obtain ⟨w, hw⟩ := Option.isSome_iff_exists.mp
    ((Std.HashMap.isSome_getElem?_iff_mem (m := vertices f)).mpr hmem)
  rw [hw, NodeTable.eq_of_mem_nodes hf (hrun.mem g w hw) hv]

/-! ### Rewriting -/

/-- A memo with results that are right, and the constants among them. -/
structure Right (sp : Space) [NodeTable ν sp.dim] (t : Transformer ν) (memo : Memo ν) : Prop where
  rewritten : ∀ f r, memo[f]? = some r → Rewritten sp t f r
  const : ∀ b : Bool, (Func.const b : ν) ∈ memo

theorem Right.insert {memo : Memo ν} (h : Right sp t memo) (hr : Rewritten sp t f r) :
    Right sp t (memo.insert f r) := by
  refine ⟨fun g q hg => ?_, fun b => Std.HashMap.mem_insert.mpr (.inr (h.const b))⟩
  rw [Std.HashMap.getElem?_insert] at hg
  split at hg
  · rename_i heq
    obtain rfl := Option.some.inj hg
    exact eq_of_beq heq ▸ hr
  · exact h.rewritten g q hg

theorem right_startMemo : Right sp t (startMemo : Memo ν) := by
  refine ⟨fun f r hr => ?_, fun b => ?_⟩
  · simp only [startMemo, Std.HashMap.getElem?_insert, Std.HashMap.getElem?_empty, beq_iff_eq] at hr
    split at hr
    · rename_i heq
      obtain rfl := Option.some.inj hr
      exact heq ▸ rewritten_const true
    · split at hr
      · rename_i heq
        obtain rfl := Option.some.inj hr
        exact heq ▸ rewritten_const false
      · cases hr
  · simp only [startMemo, Std.HashMap.mem_insert, beq_iff_eq]
    cases b with
    | false => exact .inr (.inl rfl)
    | true => exact .inl rfl

variable (hsp : sp.Proper) (ht : t.Valid sp)
include hsp ht

/-- Rewriting a node has an answer, and leaves the memo right. -/
theorem rewrite_spec {fuel : Nat} {memo : Memo ν} (hf : sp.Fits f)
    (hg : (sp.graph ν).Reaches f g) (hfuel : (sp.graph ν).rank g < fuel)
    (hmemo : Right sp t memo) :
    ∃ r memo', sp.rewrite t (vertices f) fuel g memo = some (r, memo') ∧ Rewritten sp t g r ∧
      Right sp t memo' := by
  induction fuel generalizing g memo with
  | zero => omega
  | succ fuel ih =>
    rw [rewrite]
    cases hknown : memo[g]? with
    | some r => exact ⟨r, memo, rfl, hmemo.rewritten g r hknown, hmemo⟩
    | none =>
      have hfits : sp.Fits g := hg.isNode hf
      obtain ⟨v, hv⟩ : ∃ v, (sp.graph ν).vertex? g = some v := by
        refine Option.ne_none_iff_exists'.mp fun hnone => ?_
        -- a node without a vertex is a constant, which the memo knows
        have hnew : g ∉ memo := by simp [← Std.HashMap.isSome_getElem?_iff_mem, hknown]
        rcases (sp.graph ν).eq_of_vertex?_eq_none hfits hnone with rfl | rfl
        · exact hnew (hmemo.const false)
        · exact hnew (hmemo.const true)
      obtain ⟨j, hj⟩ := hsp.exists_input ((sp.graph ν).level_lt hfits hv)
      obtain ⟨c, hc, hcf, -⟩ := ht.getElem? (hsp.input_lt hj)
      have hside (b : Bool) {memo : Memo ν} (hmemo : Right sp t memo) := by
        have hrank := (sp.graph ν).rank_next hfits hv b
        exact ih (hg.next hv b) (by omega) hmemo
      obtain ⟨high, memo₁, hhigh, hhighr, hmemo₁⟩ := hside true hmemo
      obtain ⟨low, memo₂, hlow, hlowr, hmemo₂⟩ := hside false hmemo₁
      simp only [Vertex.next, if_true, Bool.false_eq_true, if_false] at hhigh hlow hhighr hlowr
      have hr := Rewritten.choice hsp hfits hv hj hc hcf hhighr hlowr
      refine ⟨_, _, ?_, hr, hmemo₂.insert hr⟩
      simp only [Std.HashMap.getD_eq_getD_getElem?, getElem?_vertices hf hg hv, Option.getD_some,
        hj, hc, hhigh, hlow, Option.bind_eq_bind, Option.bind_some]
      rfl

theorem substNext_spec {memo : Memo ν} (hf : sp.Fits f) (hmemo : Right sp t memo) :
    ∃ r memo', sp.substNext t f memo = some (r, memo') ∧ Rewritten sp t f r ∧
      Right sp t memo' := by
  unfold substNext
  cases hknown : memo[f]? with
  | some r => exact ⟨r, memo, rfl, hmemo.rewritten f r hknown, hmemo⟩
  | none =>
    exact rewrite_spec hsp ht hf .start (Nat.lt_succ_of_le ((sp.graph ν).rank_le f)) hmemo

/-- Substitution has an answer, and its value is that of the function at the values of
the components. -/
theorem subst_spec (hf : sp.Fits f) :
    ∃ h, sp.subst f t = some h ∧ sp.Fits h ∧
      ∀ x, sp.value h x = sp.value f fun j => t.meaning sp j x := by
  have hstart : Right sp t startMemo := right_startMemo
  obtain ⟨r, memo, hr, hrew, -⟩ := substNext_spec hsp ht hf hstart
  exact ⟨r, by rw [subst, hr, Option.map_some], hrew.fits, hrew.value_eq⟩

theorem substAll_spec {fs : List ν} {memo : Memo ν} (hfs : ∀ f ∈ fs, sp.Fits f)
    (hmemo : Right sp t memo) :
    ∃ rs, sp.substAll t fs memo = some rs ∧ List.Forall₂ (Rewritten sp t) fs rs := by
  induction fs generalizing memo with
  | nil => exact ⟨[], rfl, .nil⟩
  | cons f fs ih =>
    obtain ⟨r, memo', hr, hrew, hmemo'⟩ :=
      substNext_spec hsp ht (hfs f (List.mem_cons_self ..)) hmemo
    obtain ⟨rs, hrs, hall⟩ := ih (fun f' hf' => hfs f' (List.mem_cons_of_mem _ hf')) hmemo'
    refine ⟨r :: rs, ?_, .cons hrew hall⟩
    simp only [substAll, hr, hrs, Option.bind_eq_bind, Option.bind_some]
    rfl

/-- Composition has an answer, whose components are those of the first transformer rewritten. -/
theorem compose_rewritten (hs : s.Valid sp) : ∃ u, sp.compose s t = some u ∧ u.size = s.size ∧
    ∀ (i : Nat) f g, s[i]? = some f → u[i]? = some g → Rewritten sp t f g := by
  have hfits : ∀ f ∈ s.toList, sp.Fits f := by
    intro f hf
    obtain ⟨i, hi⟩ := List.mem_iff_getElem?.mp hf
    exact hs.fits i f (by simpa using hi)
  obtain ⟨rs, hrs, hall⟩ := substAll_spec hsp ht hfits right_startMemo
  obtain ⟨hlen, hget⟩ := List.forall₂_iff_get.mp hall
  refine ⟨rs.toArray, by rw [compose, hrs, Option.map_some], by simpa using hlen.symm,
    fun i f g hf hg => ?_⟩
  obtain ⟨hi, rfl⟩ := Array.getElem?_eq_some_iff.mp hf
  obtain ⟨hi', rfl⟩ := Array.getElem?_eq_some_iff.mp hg
  simpa using hget i (by simpa using hi) (by simpa using hi')

/-- Composition is the composition of the functions. -/
theorem compose_spec (hs : s.Valid sp) :
    ∃ u, sp.compose s t = some u ∧ u.Valid sp ∧
      ∀ i x, u.meaning sp i x = s.meaning sp i fun j => t.meaning sp j x := by
  obtain ⟨u, hu, hsize, hrew⟩ := compose_rewritten hsp ht hs
  have hmeaning (i : Nat) (x : Bits) :
      u.meaning sp i x = s.meaning sp i fun j => t.meaning sp j x := by
    by_cases hi : i < s.size
    · have hf := Array.getElem?_eq_getElem hi
      have hg := Array.getElem?_eq_getElem (hsize.symm ▸ hi)
      rw [Transformer.meaning_of_getElem? hg, Transformer.meaning_of_getElem? hf,
        (hrew i _ _ hf hg).value_eq]
    · rw [Transformer.meaning_of_size_le (by omega), Transformer.meaning_of_size_le (by omega)]
  refine ⟨u, hu, ⟨hsize.trans hs.size_eq, fun i g hg => ?_, fun i x y hxy => ?_⟩, hmeaning⟩
  · have hi : i < s.size := hsize ▸ (Array.getElem?_eq_some_iff.mp hg).1
    exact (hrew i _ g (Array.getElem?_eq_getElem hi) hg).fits
  · rw [hmeaning, hmeaning]
    exact hs.monotone i fun j => ht.monotone j hxy

end MuProc.Space
