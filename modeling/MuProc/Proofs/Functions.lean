import MuProc.Proofs.NodeGraphs
import MuProc.Proofs.Spaces
import Mathlib.Order.BooleanAlgebra.Basic
import Mathlib.Order.Bounds.Basic

/-!
# Boolean functions

The functions of a space are nodes of a package, whatever the package is. What is made of
them computes what its name says, and since functions with the same values are the same
node, the comparisons of nodes are exact: they hold whenever the values say so.
-/

namespace MuProc

/-- A vector of truth values, one for each input. -/
abbrev Bits := Nat → Bool

namespace Space

variable {ν : Type} [Package ν]

/-- The graph in which the functions of a space are nodes. -/
abbrev graph (sp : Space) (ν : Type) [Package ν] [NodeTable ν sp.dim] :
    NodeGraph ν Package.zero Package.one sp.dim :=
  NodeTable.toNodeGraph

/-- A function of the inputs of a space. -/
def Fits (sp : Space) [NodeTable ν sp.dim] (f : ν) : Prop :=
  (sp.graph ν).IsNode f

/-- The values of the variables, given those of the inputs. -/
def byLevel (sp : Space) (x : Bits) (l : Nat) : Bool :=
  x (sp.input.getD l 0)

/-- The value of a function when the inputs have the values `x`. -/
def value (sp : Space) [NodeTable ν sp.dim] (f : ν) (x : Bits) : Bool :=
  (sp.graph ν).value f (sp.byLevel x)

variable {sp : Space} [NodeTable ν sp.dim] {f g : ν} {x y : Bits}

theorem Fits.denotes (hf : sp.Fits f) : (sp.graph ν).Denotes f ((sp.graph ν).value f) :=
  ⟨hf, fun _ => rfl⟩

/-! ### Operations -/

theorem fits_const (b : Bool) : sp.Fits (Func.const b : ν) := by
  cases b with
  | false => exact (sp.graph ν).isNode_zero
  | true => exact (sp.graph ν).isNode_one

@[simp] theorem value_const (b : Bool) (x : Bits) : sp.value (Func.const b : ν) x = b := by
  cases b with
  | false => exact (sp.graph ν).value_zero _
  | true => exact (sp.graph ν).value_one _

theorem and_spec (hf : sp.Fits f) (hg : sp.Fits g) :
    sp.Fits (Package.and f g) ∧
      ∀ x, sp.value (Package.and f g) x = (sp.value f x && sp.value g x) :=
  have h := NodeTable.and_denotes hf.denotes hg.denotes
  ⟨h.isNode, fun _ => h.value_eq _⟩

theorem or_spec (hf : sp.Fits f) (hg : sp.Fits g) :
    sp.Fits (Package.or f g) ∧
      ∀ x, sp.value (Package.or f g) x = (sp.value f x || sp.value g x) :=
  have h := NodeTable.or_denotes hf.denotes hg.denotes
  ⟨h.isNode, fun _ => h.value_eq _⟩

theorem ite_spec {c : ν} (hc : sp.Fits c) (hf : sp.Fits f) (hg : sp.Fits g) :
    sp.Fits (Package.ite c f g) ∧ ∀ x,
      sp.value (Package.ite c f g) x = if sp.value c x then sp.value f x else sp.value g x :=
  have h := NodeTable.ite_denotes hc.denotes hf.denotes hg.denotes
  ⟨h.isNode, fun _ => h.value_eq _⟩

/-- An operation applied along a list is applied to the values. -/
theorem foldl_spec {op : ν → ν → ν} {c : Bool → Bool → Bool} {fs : List ν} (hg : sp.Fits g)
    (hop : ∀ {f g}, sp.Fits f → sp.Fits g →
      sp.Fits (op f g) ∧ ∀ x, sp.value (op f g) x = c (sp.value f x) (sp.value g x))
    (h : ∀ f ∈ fs, sp.Fits f) : sp.Fits (fs.foldl op g) ∧
      ∀ x, sp.value (fs.foldl op g) x = (fs.map (sp.value · x)).foldl c (sp.value g x) := by
  induction fs generalizing g with
  | nil => exact ⟨hg, fun _ => rfl⟩
  | cons f fs ih =>
    obtain ⟨hfits, hvalue⟩ := hop hg (h f (List.mem_cons_self ..))
    obtain ⟨hfits', hvalue'⟩ := ih hfits fun f' hf' => h f' (List.mem_cons_of_mem _ hf')
    refine ⟨hfits', fun x => ?_⟩
    rw [List.foldl_cons, hvalue', hvalue, List.map_cons, List.foldl_cons]

theorem all_spec {fs : List ν} (h : ∀ f ∈ fs, sp.Fits f) :
    sp.Fits (Func.all fs) ∧ ∀ x, sp.value (Func.all fs) x = fs.all (sp.value · x) := by
  obtain ⟨hfits, hvalue⟩ := foldl_spec (fits_const true) and_spec h
  refine ⟨hfits, fun x => (hvalue x).trans ?_⟩
  have hall (l : List Bool) (b : Bool) : l.foldl (· && ·) b = (b && l.all id) := by
    induction l generalizing b with
    | nil => simp
    | cons a l ih => rw [List.foldl_cons, ih, List.all_cons, Bool.and_assoc, id]
  rw [hall, value_const, Bool.true_and, List.all_map]
  rfl

theorem any_spec {fs : List ν} (h : ∀ f ∈ fs, sp.Fits f) :
    sp.Fits (Func.any fs) ∧ ∀ x, sp.value (Func.any fs) x = fs.any (sp.value · x) := by
  obtain ⟨hfits, hvalue⟩ := foldl_spec (fits_const false) or_spec h
  refine ⟨hfits, fun x => (hvalue x).trans ?_⟩
  have hany (l : List Bool) (b : Bool) : l.foldl (· || ·) b = (b || l.any id) := by
    induction l generalizing b with
    | nil => simp
    | cons a l ih => rw [List.foldl_cons, ih, List.any_cons, Bool.or_assoc, id]
  rw [hany, value_const, Bool.false_or, List.any_map]
  rfl

/-! ### Inputs and levels -/

theorem Proper.input_getD (hsp : sp.Proper) {j l : Nat} (h : sp.level[j]? = some l) :
    sp.input.getD l 0 = j := by
  rw [Array.getD_eq_getD_getElem?, (hsp.level_iff j l).mp h, Option.getD_some]

theorem Proper.level_lt (hsp : sp.Proper) {j l : Nat} (h : sp.level[j]? = some l) :
    l < sp.dim := by
  have hinput := (hsp.level_iff j l).mp h
  exact hsp.size_input ▸ (Array.getElem?_eq_some_iff.mp hinput).1

theorem Proper.input_lt (hsp : sp.Proper) {j l : Nat} (h : sp.input[l]? = some j) :
    j < sp.dim := by
  have hlevel := (hsp.level_iff j l).mpr h
  exact hsp.size_level ▸ (Array.getElem?_eq_some_iff.mp hlevel).1

theorem Proper.exists_level (hsp : sp.Proper) {j : Nat} (hj : j < sp.dim) :
    ∃ l, sp.level[j]? = some l :=
  ⟨_, Array.getElem?_eq_getElem (hsp.size_level.symm ▸ hj)⟩

theorem Proper.exists_input (hsp : sp.Proper) {l : Nat} (hl : l < sp.dim) :
    ∃ j, sp.input[l]? = some j :=
  ⟨_, Array.getElem?_eq_getElem (hsp.size_input.symm ▸ hl)⟩

/-- All values of the variables are those for some values of the inputs. -/
theorem Proper.exists_byLevel (hsp : sp.Proper) (y : Nat → Bool) :
    ∃ x : Bits, ∀ l < sp.dim, sp.byLevel x l = y l := by
  refine ⟨fun j => y (sp.level.getD j 0), fun l hl => ?_⟩
  obtain ⟨j, hj⟩ := hsp.exists_input hl
  have hlevel := (hsp.level_iff j l).mpr hj
  rw [byLevel, hsp.input_getD hlevel, Array.getD_eq_getD_getElem?, hlevel, Option.getD_some]

theorem value_byLevel (hf : sp.Fits f) {y : Nat → Bool}
    (h : ∀ l < sp.dim, sp.byLevel x l = y l) : sp.value f x = (sp.graph ν).value f y :=
  (sp.graph ν).value_congr hf fun _ m _ _ hm => h m hm

/-- A function does not depend on anything but the inputs of the space. -/
theorem value_congr (hsp : sp.Proper) (hf : sp.Fits f) (h : ∀ j < sp.dim, x j = y j) :
    sp.value f x = sp.value f y := by
  refine value_byLevel hf fun l hl => ?_
  obtain ⟨j, hj⟩ := hsp.exists_input hl
  simp only [byLevel, hsp.input_getD ((hsp.level_iff j l).mpr hj)]
  exact h j (hsp.input_lt hj)

theorem literal_spec (hsp : sp.Proper) {j l : Nat} (h : sp.level[j]? = some l) (b : Bool) :
    sp.Fits ((if b then Package.var else Package.nvar) l : ν) ∧
      ∀ x, sp.value ((if b then Package.var else Package.nvar) l : ν) x = (x j == b) := by
  have hl := hsp.level_lt h
  have hinput (x : Bits) : sp.byLevel x l = x j := congrArg x (hsp.input_getD h)
  cases b with
  | false =>
    have hnvar := NodeTable.nvar_denotes (ν := ν) hl
    refine ⟨hnvar.isNode, fun x => (hnvar.value_eq _).trans ?_⟩
    rw [hinput, beq_false]
  | true =>
    have hvar := NodeTable.var_denotes (ν := ν) hl
    refine ⟨hvar.isNode, fun x => (hvar.value_eq _).trans ?_⟩
    rw [hinput, beq_true]

theorem var_spec (hsp : sp.Proper) {j l : Nat} (h : sp.level[j]? = some l) :
    sp.Fits (Package.var l : ν) ∧ ∀ x, sp.value (Package.var l : ν) x = x j := by
  simpa using literal_spec hsp h true

theorem input?_spec (ν : Type) [Package ν] [NodeTable ν sp.dim] (hsp : sp.Proper) {j : Nat}
    (hj : j < sp.dim) :
    ∃ f : ν, sp.input? j = some f ∧ sp.Fits f ∧ ∀ x, sp.value f x = x j := by
  obtain ⟨l, hl⟩ := hsp.exists_level hj
  exact ⟨Package.var l, by rw [input?, hl, Option.map_some], var_spec hsp hl⟩

/-! ### Comparisons -/

section Comparisons

variable (hsp : sp.Proper)
include hsp

/-- Functions with the same values are the same node. -/
theorem eq_iff (hf : sp.Fits f) (hg : sp.Fits g) :
    f = g ↔ ∀ x, sp.value f x = sp.value g x := by
  constructor
  · rintro rfl x
    rfl
  · intro h
    refine (sp.graph ν).eq_of_value_eq hf hg fun y => ?_
    obtain ⟨x, hx⟩ := hsp.exists_byLevel y
    rw [← value_byLevel hf hx, ← value_byLevel hg hx]
    exact h x

theorem eq_const_iff (hf : sp.Fits f) (b : Bool) :
    f = Func.const b ↔ ∀ x, sp.value f x = b := by
  rw [eq_iff hsp hf (fits_const b)]
  simp only [value_const]

variable [DecidableEq ν]

theorem same_iff (hf : sp.Fits f) (hg : sp.Fits g) :
    Func.same f g = true ↔ ∀ x, sp.value f x = sp.value g x := by
  rw [Func.same, decide_eq_true_iff, eq_iff hsp hf hg]

/-- A function is constant only if it is a constant. -/
theorem const?_eq_some_iff (hf : sp.Fits f) (b : Bool) :
    Func.const? f = some b ↔ ∀ x, sp.value f x = b := by
  rw [← eq_const_iff hsp hf]
  have hne : (Package.zero : ν) ≠ Package.one := by
    intro h
    have hval := congrArg (sp.value · fun _ => false) h
    exact absurd ((value_const false _).symm.trans (hval.trans (value_const true _)))
      Bool.false_ne_true
  unfold Func.const? Func.const
  cases b with
  | false =>
    by_cases hzero : f = Package.zero <;> by_cases hone : f = Package.one <;> simp_all
  | true => simp

theorem implies_iff (hf : sp.Fits f) (hg : sp.Fits g) :
    Func.implies f g = true ↔ ∀ x, sp.value f x ≤ sp.value g x := by
  have hnot := NodeTable.not_denotes hf.denotes
  obtain ⟨hor, hvalue⟩ := or_spec (f := Package.not f) hnot.isNode hg
  rw [Func.implies, decide_eq_true_iff]
  refine (eq_const_iff hsp hor true).trans (forall_congr' fun x => ?_)
  have hval : sp.value (Package.not f) x = !sp.value f x := hnot.value_eq _
  rw [hvalue, hval]
  cases sp.value f x <;> cases sp.value g x <;> simp

theorem meets_iff (hf : sp.Fits f) (hg : sp.Fits g) :
    Func.meets f g = true ↔ ∃ x, sp.value f x = true ∧ sp.value g x = true := by
  obtain ⟨hand, hvalue⟩ := and_spec hf hg
  have hzero := (eq_const_iff hsp hand false).not
  rw [Func.meets, decide_eq_true_iff]
  refine hzero.trans ?_
  simp only [hvalue, not_forall, Bool.not_eq_false, Bool.and_eq_true]

/-- The test for positivity holds of every monotone function. -/
theorem positiveIn_of_monotone (hf : sp.Fits f) (hm : Monotone (sp.value f)) {l : Nat}
    (hl : l < sp.dim) : Func.positiveIn f l = true := by
  have hlow := NodeTable.exist_denotes
    (NodeTable.and_denotes hf.denotes (NodeTable.nvar_denotes hl)) hl
  have hhigh := NodeTable.exist_denotes
    (NodeTable.and_denotes hf.denotes (NodeTable.var_denotes hl)) hl
  rw [Func.positiveIn, implies_iff hsp hlow.isNode hhigh.isNode]
  intro x
  obtain ⟨j, hj⟩ := hsp.exists_input hl
  -- input `j` is the variable of level `l`, so fixing one fixes the other
  have hupdate (b : Bool) : sp.value f (Function.update x j b) =
      (sp.graph ν).value f (Function.update (sp.byLevel x) l b) := by
    refine value_byLevel hf fun m hm => ?_
    obtain ⟨i, hi⟩ := hsp.exists_input hm
    have hsame : i = j ↔ m = l := by
      constructor
      · rintro rfl
        exact Option.some.inj (((hsp.level_iff i m).mpr hi).symm.trans ((hsp.level_iff i l).mpr hj))
      · rintro rfl
        exact Option.some.inj (hi.symm.trans hj)
    simp only [byLevel, hsp.input_getD ((hsp.level_iff i m).mpr hi), Function.update_apply, hsame]
  rw [value, value, hlow.value_eq, hhigh.value_eq, ← hupdate, ← hupdate]
  simp only [Function.update_self, Bool.not_true, Bool.and_false, Bool.not_false, Bool.and_true,
    Bool.or_false, Bool.false_or]
  exact hm (update_le_update_iff.mpr ⟨Bool.false_le _, fun _ _ => le_rfl⟩)

/-! ### Values at given inputs -/

omit [DecidableEq ν] in
/-- The cube of some values is true where the first inputs have these values. -/
theorem cube?_spec (ν : Type) [Package ν] [NodeTable ν sp.dim] {bits : List Bool}
    (h : bits.length ≤ sp.dim) :
    ∃ c : ν, sp.cube? bits = some c ∧ sp.Fits c ∧
      ∀ x, sp.value c x = true ↔ ∀ j b, bits[j]? = some b → x j = b := by
  obtain ⟨c, hc, hfits, hvalue⟩ := Fold.foldlM_some (l := bits.zipIdx)
    (f := fun (cube : ν) row => (sp.literal? row.2 row.1).map (Package.and cube))
    (P := fun m c => sp.Fits c ∧
      ∀ x, sp.value c x = true ↔ ∀ j b, j < m → bits[j]? = some b → x j = b)
    (b := Package.one) ⟨fits_const true, fun x => ⟨fun _ j _ hj => absurd hj (Nat.not_lt_zero j),
      fun _ => value_const true x⟩⟩ (by
    intro m row c hrow hc
    rw [List.getElem?_zipIdx, Nat.zero_add, Option.map_eq_some_iff] at hrow
    obtain ⟨b, hb, rfl⟩ := hrow
    have hm := (List.getElem?_eq_some_iff.mp hb).1
    obtain ⟨l, hl⟩ := hsp.exists_level (j := m) (by omega)
    obtain ⟨hlit, hlitv⟩ := literal_spec (ν := ν) hsp hl b
    obtain ⟨hand, handv⟩ := and_spec hc.1 hlit
    refine ⟨_, by rw [literal?, hl, Option.map_some, Option.map_some], hand, fun x => ?_⟩
    rw [handv, Bool.and_eq_true, hc.2, hlitv, beq_iff_eq]
    constructor
    · rintro ⟨hall, hx⟩ j b' hj hb'
      obtain hlt | rfl := Nat.lt_succ_iff_lt_or_eq.mp hj
      · exact hall j b' hlt hb'
      · exact Option.some.inj (hb.symm.trans hb') ▸ hx
    · intro hall
      exact ⟨fun j b' hj hb' => hall j b' (by omega) hb', hall m b (by omega) hb⟩)
  refine ⟨c, hc, hfits, fun x => (hvalue x).trans ?_⟩
  refine forall_congr' fun j => forall_congr' fun b => ⟨fun hj hb => ?_, fun hj _ => hj⟩
  exact hj (by simpa using (List.getElem?_eq_some_iff.mp hb).1) hb

omit [DecidableEq ν] [NodeTable ν sp.dim] in
theorem length_le_of_cube? {bits : List Bool} {c : ν} (h : sp.cube? bits = some c) :
    bits.length ≤ sp.dim := by
  have hle : bits.zipIdx.length ≤ sp.dim := by
    refine Fold.foldlM_inv_of_some (P := fun m _ => m ≤ sp.dim) (Nat.zero_le _) ?_ h
    intro m row c c' hrow _ hstep
    obtain ⟨b, -, rfl⟩ : ∃ b, bits[m]? = some b ∧ (b, m) = row := by
      simpa [List.getElem?_zipIdx] using hrow
    cases hl : sp.level[m]? with
    | none => simp [literal?, hl] at hstep
    | some l => exact hsp.size_level ▸ (Array.getElem?_eq_some_iff.mp hl).1
  simpa using hle

/-- A function has a value at values of the first inputs: whether it can be true there. -/
theorem eval?_spec (hf : sp.Fits f) {bits : List Bool} (h : bits.length ≤ sp.dim) :
    ∃ v, sp.eval? f bits = some v ∧
      (v = true ↔ ∃ x, sp.value f x = true ∧ ∀ j b, bits[j]? = some b → x j = b) := by
  obtain ⟨c, hc, hfits, hvalue⟩ := cube?_spec hsp ν h
  refine ⟨_, by rw [eval?, hc, Option.map_some], ?_⟩
  simp only [meets_iff hsp hf hfits, hvalue]

/-- Missing inputs of a monotone function count as true. -/
theorem eval?_of_monotone (hf : sp.Fits f) (hm : Monotone (sp.value f)) {bits : List Bool}
    (h : bits.length ≤ sp.dim) : sp.eval? f bits = some (sp.value f (bits.getD · true)) := by
  obtain ⟨v, hv, hiff⟩ := eval?_spec hsp hf h
  rw [hv]
  refine congrArg some (Bool.eq_iff_iff.mpr (hiff.trans ⟨?_, fun htrue => ?_⟩))
  · rintro ⟨x, hx, hbits⟩
    refine Bool.le_iff_imp.mp (hm fun j => ?_) hx
    cases hj : bits[j]? with
    | none => simp [List.getD_eq_getElem?_getD, hj]
    | some b => simp [List.getD_eq_getElem?_getD, hj, hbits j b hj]
  · exact ⟨_, htrue, fun j b hj => by simp [List.getD_eq_getElem?_getD, hj]⟩

omit [NodeTable ν sp.dim] in
theorem eval?_eq_none {bits : List Bool} (h : sp.dim < bits.length) (f : ν) :
    sp.eval? f bits = none := by
  rw [eval?, Option.map_eq_none_iff, Option.eq_none_iff_forall_ne_some]
  exact fun c hc => Nat.not_le.mpr h (length_le_of_cube? hsp hc)

end Comparisons

end Space

end MuProc
