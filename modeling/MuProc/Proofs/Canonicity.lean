import MuProc.Proofs.Substitutions
import MuProc.Proofs.Diagrams
import Mathlib.Data.List.OfFn

/-!
# Functions that are made in a space

Whatever is made from constants and inputs by conjunction, disjunction, substitution and
composition is a monotone function of the space. The comparisons look at nodes only, and yet
they answer for all inputs: functions are the same node exactly if their values are the same,
and a function is constant exactly if it is a constant. A vector that is too short is read as
if all missing inputs were true, which for a monotone function is the same as to ask whether it
can still become true.
-/

namespace MuProc.Space

variable {ν : Type} [Package ν] {sp : Space} [NodeTable ν sp.dim]

/-! ### Operations keep functions monotone -/

theorem valid_all {fs : List ν} (h : ∀ f ∈ fs, sp.Valid f) : sp.Valid (Func.all fs) := by
  obtain ⟨hfits, hvalue⟩ := all_spec fun f hf => (h f hf).fits
  refine ⟨hfits, fun x y hxy => ?_⟩
  simp only [hvalue, Bool.le_iff_imp, List.all_eq_true]
  intro hall f hf
  exact Bool.le_iff_imp.mp ((h f hf).monotone hxy) (hall f hf)

theorem valid_any {fs : List ν} (h : ∀ f ∈ fs, sp.Valid f) : sp.Valid (Func.any fs) := by
  obtain ⟨hfits, hvalue⟩ := any_spec fun f hf => (h f hf).fits
  refine ⟨hfits, fun x y hxy => ?_⟩
  simp only [hvalue, Bool.le_iff_imp, List.any_eq_true]
  rintro ⟨f, hf, htrue⟩
  exact ⟨f, hf, Bool.le_iff_imp.mp ((h f hf).monotone hxy) htrue⟩

theorem valid_toArray {fs : List ν} (hlen : fs.length = sp.dim) (h : ∀ f ∈ fs, sp.Valid f) :
    Transformer.Valid sp fs.toArray := by
  refine Transformer.valid_of_forall (by simpa using hlen) fun i f hf => h f ?_
  rw [List.getElem?_toArray] at hf
  exact List.mem_of_getElem? hf

theorem valid_put {t u : Transformer ν} {f : ν} {i : Nat} (ht : t.Valid sp) (hf : sp.Valid f)
    (h : t.put? i f = some u) : u.Valid sp := by
  unfold Transformer.put? at h
  split at h
  · obtain rfl := Option.some.inj h
    exact ht.setIfInBounds hf.fits hf.monotone
  · cases h

variable [DecidableEq ν] [Hashable ν]

theorem valid_subst {t : Transformer ν} {f g : ν} (hsp : sp.Proper) (hf : sp.Valid f)
    (ht : t.Valid sp) (h : sp.subst f t = some g) : sp.Valid g := by
  obtain ⟨g', hg', hfits, hvalue⟩ := subst_spec hsp ht hf.fits
  obtain rfl : g = g' := Option.some.inj (h.symm.trans hg')
  refine ⟨hfits, fun x y hxy => ?_⟩
  rw [hvalue, hvalue]
  exact hf.monotone fun j => ht.monotone j hxy

theorem valid_compose {s t u : Transformer ν} (hsp : sp.Proper) (hs : s.Valid sp)
    (ht : t.Valid sp) (h : sp.compose s t = some u) : u.Valid sp := by
  obtain ⟨u', hu', hvalid, -⟩ := compose_spec hsp ht hs
  obtain rfl : u = u' := Option.some.inj (h.symm.trans hu')
  exact hvalid

/-! ### Everything that can be made -/

omit [NodeTable ν sp.dim] in
/-- The functions and transformers that can be made in a space, by any number of operations. -/
inductive Made (sp : Space) : ν ⊕ Transformer ν → Prop
  | const (b : Bool) : Made sp (.inl (Func.const b))
  | input {j f} (h : sp.input? j = some f) : Made sp (.inl f)
  | all {fs : List ν} (hfs : ∀ f ∈ fs, Made sp (.inl f)) : Made sp (.inl (Func.all fs))
  | any {fs : List ν} (hfs : ∀ f ∈ fs, Made sp (.inl f)) : Made sp (.inl (Func.any fs))
  | subst {f t g} (hf : Made sp (.inl f)) (ht : Made sp (.inr t)) (h : sp.subst f t = some g) :
      Made sp (.inl g)
  | component {t : Transformer ν} {f} {i : Nat} (ht : Made sp (.inr t)) (h : t[i]? = some f) :
      Made sp (.inl f)
  | bottom : Made sp (.inr sp.bottom)
  | top : Made sp (.inr sp.top)
  | identity : Made sp (.inr sp.identity)
  | build {fs t} (hfs : ∀ f ∈ fs, Made sp (.inl f)) (h : sp.build fs = .ok t) : Made sp (.inr t)
  | put {t f u i} (ht : Made sp (.inr t)) (hf : Made sp (.inl f)) (h : t.put? i f = some u) :
      Made sp (.inr u)
  | compose {s t u} (hs : Made sp (.inr s)) (ht : Made sp (.inr t)) (h : sp.compose s t = some u) :
      Made sp (.inr u)

def MadeFunc (sp : Space) (f : ν) : Prop :=
  sp.Made (.inl f)

def MadeTransformer (sp : Space) (t : Transformer ν) : Prop :=
  sp.Made (.inr t)

theorem Made.sound (hsp : sp.Proper) {v : ν ⊕ Transformer ν} (h : sp.Made v) :
    v.elim sp.Valid (·.Valid sp) := by
  induction h with
  | const b => exact valid_const b
  | input h =>
    obtain ⟨l, hl, rfl⟩ := Option.map_eq_some_iff.mp h
    exact valid_var hsp hl
  | all _ ih => exact valid_all ih
  | any _ ih => exact valid_any ih
  | subst _ _ h ihf iht => exact valid_subst hsp ihf iht h
  | component _ h ih => exact Transformer.Valid.valid ih h
  | bottom => exact valid_bottom ν
  | top => exact valid_fill true
  | identity => exact valid_identity ν hsp
  | build _ h ih =>
    unfold Space.build at h
    split at h
    · rename_i hlen
      obtain rfl := Except.ok.inj h
      exact valid_toArray hlen ih
    · cases h
  | put _ _ h iht ihf => exact valid_put iht ihf h
  | compose _ _ h ihs iht => exact valid_compose hsp ihs iht h

theorem MadeFunc.valid {f : ν} (hsp : sp.Proper) (h : sp.MadeFunc f) : sp.Valid f :=
  Made.sound hsp h

theorem MadeTransformer.valid {t : Transformer ν} (hsp : sp.Proper) (h : sp.MadeTransformer t) :
    t.Valid sp :=
  Made.sound hsp h

/-! ### Values at the vectors of a space -/

section Spread

omit [DecidableEq ν] [Hashable ν]

/-- A vector of a space as values of all inputs; inputs outside of the space do not matter. -/
def spread (sp : Space) (x : Fin sp.dim → Bool) : Bits :=
  fun j => if h : j < sp.dim then x ⟨j, h⟩ else true

/-- The vector that a transformer makes of a vector. -/
def apply (sp : Space) [NodeTable ν sp.dim] (t : Transformer ν) (x : Fin sp.dim → Bool) :
    Fin sp.dim → Bool :=
  fun i => t.meaning sp i (sp.spread x)

theorem spread_mono {x y : Fin sp.dim → Bool} (h : x ≤ y) : sp.spread x ≤ sp.spread y := by
  intro j
  unfold spread
  split
  · exact h _
  · exact le_rfl

theorem getD_ofFn (x : Fin sp.dim → Bool) : ((List.ofFn x).getD · true) = sp.spread x := by
  funext j
  unfold spread
  split
  · rename_i h
    simp [h]
  · rename_i h
    rw [List.getD_eq_getElem?_getD, List.getElem?_eq_none (by simpa using h), Option.getD_none]

theorem forall_spread_iff (hsp : sp.Proper) {f g : ν} (hf : sp.Fits f) (hg : sp.Fits g)
    (R : Bool → Bool → Prop) :
    (∀ x : Fin sp.dim → Bool, R (sp.value f (sp.spread x)) (sp.value g (sp.spread x))) ↔
      ∀ y : Bits, R (sp.value f y) (sp.value g y) := by
  constructor
  · intro h y
    -- a function depends on inputs of the space only, so the vector of their values will do
    have hagree (j : Nat) (hj : j < sp.dim) : sp.spread (fun i => y i) j = y j := by
      simp [spread, hj]
    rw [← value_congr hsp hf hagree, ← value_congr hsp hg hagree]
    exact h fun i => y i
  · intro h x
    exact h (sp.spread x)

theorem forall_apply_iff (hsp : sp.Proper) {s t : Transformer ν} (hs : s.Valid sp)
    (ht : t.Valid sp) (R : Bool → Bool → Prop) (hR : R false false) :
    (∀ x i, R (sp.apply s x i) (sp.apply t x i)) ↔
      ∀ i y, R (s.meaning sp i y) (t.meaning sp i y) := by
  constructor
  · intro h i y
    by_cases hi : i < sp.dim
    · obtain ⟨f, -, hf, -, hfe⟩ := hs.getElem? hi
      obtain ⟨g, -, hg, -, hge⟩ := ht.getElem? hi
      rw [← hfe, ← hge]
      refine (forall_spread_iff hsp hf hg R).mp (fun x => ?_) y
      rw [hfe, hge]
      exact h x ⟨i, hi⟩
    · rw [Transformer.meaning_of_size_le (by rw [hs.size_eq]; omega),
        Transformer.meaning_of_size_le (by rw [ht.size_eq]; omega)]
      exact hR
  · intro h x i
    exact h i (sp.spread x)

end Spread

omit [Hashable ν]

section Evaluation

variable (hsp : sp.Proper)
include hsp

theorem eval?_ofFn {f : ν} (hf : sp.Valid f) (x : Fin sp.dim → Bool) :
    sp.eval? f (.ofFn x) = some (sp.value f (sp.spread x)) := by
  rw [eval?_of_monotone hsp hf.fits hf.monotone (by simp), getD_ofFn]

theorem evalAll?_ofFn {t : Transformer ν} (ht : t.Valid sp) (x : Fin sp.dim → Bool) :
    sp.evalAll? t (.ofFn x) = some (.ofFn (sp.apply t x)) := by
  rw [evalAll?_of_le hsp ht (by simp), getD_ofFn]
  refine congrArg some (List.ext_getElem (by simp [ht.size_eq]) fun i hi _ => ?_)
  have hi : i < t.size := by simpa using hi
  simp [apply, Transformer.meaning_of_getElem? (Array.getElem?_eq_getElem hi)]

/-! ### Vectors that are too short -/

theorem eval?_padded {f : ν} (hf : sp.Valid f) {bits : List Bool} (h : bits.length ≤ sp.dim) :
    sp.eval? f (bits ++ List.replicate (sp.dim - bits.length) true) = sp.eval? f bits := by
  have hlen : (bits ++ List.replicate (sp.dim - bits.length) true).length ≤ sp.dim := by
    simp only [List.length_append, List.length_replicate]
    omega
  have hvalues : ((bits ++ List.replicate (sp.dim - bits.length) true).getD · true) =
      (bits.getD · true) := by
    funext j
    rw [List.getD_eq_getElem?_getD, List.getD_eq_getElem?_getD, List.getElem?_append]
    split
    · rfl
    · rename_i hj
      rw [List.getElem?_replicate, List.getElem?_eq_none (by omega)]
      split <;> rfl
  rw [eval?_of_monotone hsp hf.fits hf.monotone hlen, eval?_of_monotone hsp hf.fits hf.monotone h,
    hvalues]

theorem eval?_short_iff {f : ν} (hf : sp.Valid f) {bits : List Bool}
    (h : bits.length ≤ sp.dim) : sp.eval? f bits = some true ↔
      ∃ x : Fin sp.dim → Bool, bits <+: List.ofFn x ∧ sp.eval? f (.ofFn x) = some true := by
  obtain ⟨v, hv, hiff⟩ := eval?_spec hsp hf.fits h
  rw [hv, Option.some.injEq, hiff]
  simp only [eval?_ofFn hsp hf, Option.some.injEq, List.prefix_iff_getElem?]
  constructor
  · rintro ⟨y, hy, hbits⟩
    have hagree (j : Nat) (hj : j < sp.dim) : sp.spread (fun i => y i) j = y j := by
      simp [spread, hj]
    refine ⟨fun i => y i, fun i hi => ?_, (value_congr hsp hf.fits hagree).trans hy⟩
    have hi' : i < sp.dim := by omega
    simp [hi', hbits i _ (List.getElem?_eq_getElem hi)]
  · rintro ⟨x, hprefix, htrue⟩
    refine ⟨sp.spread x, htrue, fun j b hb => ?_⟩
    obtain ⟨hj, rfl⟩ := List.getElem?_eq_some_iff.mp hb
    have hj' : j < sp.dim := by omega
    have hget := hprefix j hj
    simp only [List.getElem?_ofFn, hj', dite_true, Option.some.injEq] at hget
    simpa [spread, hj'] using hget

/-! ### Comparisons -/

theorem const?_iff_eval? {f : ν} (hf : sp.Valid f) (b : Bool) : Func.const? f = some b ↔
    ∀ x : Fin sp.dim → Bool, sp.eval? f (.ofFn x) = some b := by
  simp only [eval?_ofFn hsp hf, Option.some.injEq]
  rw [const?_eq_some_iff hsp hf.fits]
  exact (forall_spread_iff hsp hf.fits hf.fits fun a _ => a = b).symm

theorem same_iff_eval? {f g : ν} (hf : sp.Valid f) (hg : sp.Valid g) : Func.same f g = true ↔
    ∀ x : Fin sp.dim → Bool, sp.eval? f (.ofFn x) = sp.eval? g (.ofFn x) := by
  simp only [eval?_ofFn hsp hf, eval?_ofFn hsp hg, Option.some.injEq]
  rw [same_iff hsp hf.fits hg.fits]
  exact (forall_spread_iff hsp hf.fits hg.fits (· = ·)).symm

theorem implies_iff_eval? {f g : ν} (hf : sp.Valid f) (hg : sp.Valid g) :
    Func.implies f g = true ↔ ∀ x : Fin sp.dim → Bool,
      sp.eval? f (.ofFn x) = some true → sp.eval? g (.ofFn x) = some true := by
  simp only [eval?_ofFn hsp hf, eval?_ofFn hsp hg, Option.some.injEq]
  rw [implies_iff hsp hf.fits hg.fits]
  simp only [Bool.le_iff_imp]
  exact (forall_spread_iff hsp hf.fits hg.fits fun a b => a → b).symm

theorem same_iff_apply {s t : Transformer ν} (hs : s.Valid sp) (ht : t.Valid sp) :
    Transformer.same s t = true ↔ ∀ x, sp.apply s x = sp.apply t x := by
  rw [Transformer.same_iff hsp hs ht]
  simp only [funext_iff]
  exact (forall_apply_iff hsp hs ht (· = ·) rfl).symm

theorem leq?_spec_apply {s t : Transformer ν} (hs : s.Valid sp) (ht : t.Valid sp) :
    ∃ b, Transformer.leq? s t = some b ∧ (b = true ↔ ∀ x, sp.apply s x ≤ sp.apply t x) := by
  obtain ⟨b, hb, hiff⟩ := Transformer.leq?_spec hsp hs ht
  refine ⟨b, hb, hiff.trans ?_⟩
  exact (forall_apply_iff hsp hs ht (· ≤ ·) le_rfl).symm

end Evaluation

/-- In every space that can be made, the tests on functions and transformers answer for all
vectors of inputs: equality, the pointwise order and being constant. All functions are monotone,
and missing inputs count as true, which is to ask whether the function can become true. -/
theorem made_canonical {ν : Type} [Package ν] [DecidableEq ν] [Hashable ν] (n : Int)
    (order : Option (List Int)) (sp : Space) (h : make n order = .ok sp) [NodeTable ν sp.dim] :
    (sp.dim : Int) = n ∧
    (∀ f : ν, sp.MadeFunc f →
      (∀ b, Func.const? f = some b ↔ ∀ x : Fin sp.dim → Bool, sp.eval? f (.ofFn x) = some b) ∧
      (∀ x y : Fin sp.dim → Bool, x ≤ y →
        sp.eval? f (.ofFn x) = some true → sp.eval? f (.ofFn y) = some true) ∧
      ∀ bits : List Bool, bits.length ≤ sp.dim → ∃ b, sp.eval? f bits = some b ∧
        sp.eval? f (bits ++ List.replicate (sp.dim - bits.length) true) = some b ∧
        (b = true ↔
          ∃ x : Fin sp.dim → Bool, bits <+: .ofFn x ∧ sp.eval? f (.ofFn x) = some true)) ∧
    (∀ f g : ν, sp.MadeFunc f → sp.MadeFunc g →
      (Func.same f g = true ↔
        ∀ x : Fin sp.dim → Bool, sp.eval? f (.ofFn x) = sp.eval? g (.ofFn x)) ∧
      (Func.implies f g = true ↔ ∀ x : Fin sp.dim → Bool,
        sp.eval? f (.ofFn x) = some true → sp.eval? g (.ofFn x) = some true)) ∧
    (∀ t : Transformer ν, sp.MadeTransformer t → sp.monotone t = true ∧
      ∀ x : Fin sp.dim → Bool, ∃ y : Fin sp.dim → Bool,
        sp.evalAll? t (.ofFn x) = some (.ofFn y)) ∧
    ∀ s t : Transformer ν, sp.MadeTransformer s → sp.MadeTransformer t →
      (Transformer.same s t = true ↔
        ∀ x : Fin sp.dim → Bool, sp.evalAll? s (.ofFn x) = sp.evalAll? t (.ofFn x)) ∧
      ∃ b, Transformer.leq? s t = some b ∧
        (b = true ↔ ∀ x y z : Fin sp.dim → Bool, sp.evalAll? s (.ofFn x) = some (.ofFn y) →
          sp.evalAll? t (.ofFn x) = some (.ofFn z) → y ≤ z) := by
  obtain ⟨hsp, hdim⟩ := proper_of_make h
  refine ⟨hdim, fun f hf => ⟨?_, ?_, ?_⟩, fun f g hf hg => ⟨?_, ?_⟩, fun t ht => ⟨?_, ?_⟩,
    fun s t hs ht => ⟨?_, ?_⟩⟩
  · exact const?_iff_eval? hsp (hf.valid hsp)
  · intro x y hxy htrue
    rw [eval?_ofFn hsp (hf.valid hsp), Option.some.injEq] at htrue ⊢
    exact Bool.le_iff_imp.mp ((hf.valid hsp).monotone (spread_mono hxy)) htrue
  · intro bits hlen
    obtain ⟨b, hb, -⟩ := eval?_spec hsp (hf.valid hsp).fits hlen
    refine ⟨b, hb, (eval?_padded hsp (hf.valid hsp) hlen).trans hb, ?_⟩
    rw [← eval?_short_iff hsp (hf.valid hsp) hlen, hb, Option.some.injEq]
  · exact same_iff_eval? hsp (hf.valid hsp) (hg.valid hsp)
  · exact implies_iff_eval? hsp (hf.valid hsp) (hg.valid hsp)
  · exact monotone_of_valid hsp (ht.valid hsp)
  · intro x
    exact ⟨_, evalAll?_ofFn hsp (ht.valid hsp) x⟩
  · simp only [evalAll?_ofFn hsp (hs.valid hsp),
        evalAll?_ofFn hsp (ht.valid hsp), Option.some.injEq,
      List.ofFn_inj]
    exact same_iff_apply hsp (hs.valid hsp) (ht.valid hsp)
  · obtain ⟨b, hb, hiff⟩ := leq?_spec_apply hsp (hs.valid hsp) (ht.valid hsp)
    refine ⟨b, hb, hiff.trans ?_⟩
    simp only [evalAll?_ofFn hsp (hs.valid hsp),
        evalAll?_ofFn hsp (ht.valid hsp), Option.some.injEq,
      List.ofFn_inj]
    constructor
    · rintro hle x y z rfl rfl
      exact hle x
    · intro hle x
      exact hle x _ _ rfl rfl

/-- Absorption, with inputs that are asked in another order than that of their numbers: the
disjunction of an input with a conjunction that has it is the node of the input. -/
theorem made_canonical_absorption :
    ∃ sp, ∃ f g : Func, make 3 (some [2, 0, 1]) = .ok sp ∧ sp.input? 0 = some f ∧
      sp.input? 1 = some g ∧ Func.same (Func.any [f, Func.all [f, g]]) f = true := by
  obtain ⟨sp, hmake⟩ : ∃ sp, make 3 (some [2, 0, 1]) = .ok sp :=
    ⟨_, make_of_nodup (n := 3) (l := [2, 0, 1]) (by decide) (by decide) rfl (by decide) (by decide)⟩
  obtain ⟨hdim, -, hcompare, -⟩ := made_canonical (ν := Func) 3 (some [2, 0, 1]) sp hmake
  have hsp := (proper_of_make hmake).1
  obtain ⟨f, hf, hff, hfv⟩ := input?_spec Func hsp (j := 0) (by omega)
  obtain ⟨g, hg, hgf, hgv⟩ := input?_spec Func hsp (j := 1) (by omega)
  have hall : ∀ φ ∈ [f, g], sp.Made (.inl φ) := by
    simpa using ⟨Made.input hf, Made.input hg⟩
  have hany : ∀ φ ∈ [f, Func.all [f, g]], sp.Made (.inl φ) := by
    simpa using ⟨Made.input hf, Made.all hall⟩
  refine ⟨sp, f, g, hmake, hf, hg, (hcompare _ _ (Made.any hany) (Made.input hf)).1.mpr fun x => ?_⟩
  have hvalid := MadeFunc.valid hsp (Made.any hany)
  have hpair : ∀ φ ∈ [f, g], sp.Fits φ := by simpa using ⟨hff, hgf⟩
  obtain ⟨hallf, hallv⟩ := all_spec hpair
  have hboth : ∀ φ ∈ [f, Func.all [f, g]], sp.Fits φ := by simpa using ⟨hff, hallf⟩
  obtain ⟨-, hanyv⟩ := any_spec hboth
  have habsorb (a b : Bool) : (a || a && b) = a := by
    cases a <;> simp
  rw [eval?_ofFn hsp hvalid, eval?_ofFn hsp (MadeFunc.valid hsp (Made.input hf)), hanyv]
  simp only [List.any_cons, List.any_nil, List.all_cons, List.all_nil, hallv, hfv, hgv,
    Bool.and_true, Bool.or_false, habsorb]

end MuProc.Space
