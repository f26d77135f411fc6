import MuProc.Transformer.Substitution
import MuProc.Proofs.Functions

/-!
# Transformers

A transformer means a vector of boolean functions of a vector of inputs. The
transformers of a space have one component for each input, and all of them are
monotone. The comparisons of transformers decide the pointwise order and equality.
-/

namespace MuProc

/-- Writing into an array changes the function of its places at one argument. -/
theorem getD_setIfInBounds {α : Type} {l : Array α} {i : Nat} (hi : i < l.size) (a d : α) :
    (fun j => (l.setIfInBounds i a).getD j d) = Function.update (fun j => l.getD j d) i a := by
  funext j
  rw [Array.getD_eq_getD_getElem?, Array.getElem?_setIfInBounds]
  by_cases hj : j = i
  · subst hj
    rw [if_pos rfl, if_pos hi, Option.getD_some, Function.update_self]
  · rw [if_neg (Ne.symm hj), ← Array.getD_eq_getD_getElem?, Function.update_of_ne hj]

/-- A function of a space that no input lowers. -/
structure Space.Valid (sp : Space) {ν : Type} [Package ν] [NodeTable ν sp.dim] (f : ν) :
    Prop where
  fits : sp.Fits f
  monotone : Monotone (sp.value f)

namespace Transformer

variable {ν : Type} [Package ν]

/-- Component `i` of a transformer as a function of the inputs. -/
def meaning (sp : Space) [NodeTable ν sp.dim] (t : Transformer ν) (i : Nat) (x : Bits) : Bool :=
  sp.value (t.getD i (Func.const false)) x

/-- A transformer of a space: one component for each input, all of them monotone. -/
structure Valid (sp : Space) [NodeTable ν sp.dim] (t : Transformer ν) : Prop where
  size_eq : t.size = sp.dim
  fits : ∀ (i : Nat) f, t[i]? = some f → sp.Fits f
  monotone : ∀ i, Monotone (t.meaning sp i)

variable {sp : Space} [NodeTable ν sp.dim] {s t u : Transformer ν}

theorem meaning_of_getElem? {i : Nat} {f : ν} (h : t[i]? = some f) (x : Bits) :
    t.meaning sp i x = sp.value f x := by
  rw [meaning, Array.getD_eq_getD_getElem?, h, Option.getD_some]

theorem meaning_of_size_le {i : Nat} (h : t.size ≤ i) (x : Bits) : t.meaning sp i x = false := by
  rw [meaning, Array.getD_eq_getD_getElem?, Array.getElem?_eq_none h]
  exact Space.value_const false x

theorem Valid.getElem? (ht : t.Valid sp) {i : Nat} (hi : i < sp.dim) :
    ∃ f, t[i]? = some f ∧ sp.Fits f ∧ Monotone (sp.value f) ∧
      ∀ x, sp.value f x = t.meaning sp i x := by
  obtain ⟨f, hf⟩ : ∃ f, t[i]? = some f := ⟨_, Array.getElem?_eq_getElem (ht.size_eq.symm ▸ hi)⟩
  have hvalue (x : Bits) : sp.value f x = t.meaning sp i x := (meaning_of_getElem? hf x).symm
  refine ⟨f, hf, ht.fits i f hf, ?_, hvalue⟩
  rw [funext hvalue]
  exact ht.monotone i

theorem Valid.valid (ht : t.Valid sp) {i : Nat} {f : ν} (h : t[i]? = some f) : sp.Valid f := by
  have hmeaning : t.meaning sp i = sp.value f := funext (meaning_of_getElem? h)
  exact ⟨ht.fits i f h, hmeaning ▸ ht.monotone i⟩

theorem valid_of_forall (hsize : t.size = sp.dim)
    (h : ∀ (i : Nat) f, t[i]? = some f → sp.Valid f) : t.Valid sp := by
  refine ⟨hsize, fun i f hf => (h i f hf).fits, fun i => ?_⟩
  by_cases hi : i < t.size
  · have hf := Array.getElem?_eq_getElem hi
    have hmeaning : t.meaning sp i = sp.value t[i] := funext (meaning_of_getElem? hf)
    exact hmeaning ▸ (h i _ hf).monotone
  · intro x y _
    rw [meaning_of_size_le (by omega), meaning_of_size_le (by omega)]

theorem Valid.meaning_congr (hsp : sp.Proper) (ht : t.Valid sp) {i : Nat} {x y : Bits}
    (h : ∀ j < sp.dim, x j = y j) : t.meaning sp i x = t.meaning sp i y := by
  by_cases hi : i < sp.dim
  · obtain ⟨f, -, hf, -, hvalue⟩ := ht.getElem? hi
    rw [← hvalue, ← hvalue]
    exact Space.value_congr hsp hf h
  · have hsize : t.size ≤ i := by
      rw [ht.size_eq]
      omega
    rw [meaning_of_size_le hsize, meaning_of_size_le hsize]

/-! ### Replacing a component -/

omit [Package ν] in
theorem put?_eq_some {i : Nat} {f : ν} (hi : i < t.size) :
    t.put? i f = some (t.setIfInBounds i f) := by
  rw [put?, if_pos hi]

theorem meaning_setIfInBounds (sp : Space) [NodeTable ν sp.dim] {i : Nat} {f : ν}
    (hi : i < t.size) :
    meaning sp (t.setIfInBounds i f) = Function.update (t.meaning sp) i (sp.value f) := by
  show sp.value ∘ (fun j => (t.setIfInBounds i f).getD j (Func.const false)) = _
  rw [getD_setIfInBounds hi, Function.comp_update]
  rfl

theorem Valid.setIfInBounds (ht : t.Valid sp) {i : Nat} {f : ν} (hf : sp.Fits f)
    (hm : Monotone (sp.value f)) : Valid sp (t.setIfInBounds i f) := by
  refine valid_of_forall (by simpa using ht.size_eq) fun j g hg => ?_
  rw [Array.getElem?_setIfInBounds] at hg
  split at hg
  · split at hg
    · exact Option.some.inj hg ▸ ⟨hf, hm⟩
    · cases hg
  · exact ht.valid hg

/-! ### Comparisons -/

theorem forall_meaning_iff (hs : s.Valid sp) (ht : t.Valid sp) (R : Bool → Bool → Prop)
    (hR : R false false) :
    (∀ (i : Nat) (f g : ν), s[i]? = some f → t[i]? = some g →
        ∀ x, R (sp.value f x) (sp.value g x)) ↔
      ∀ i x, R (s.meaning sp i x) (t.meaning sp i x) := by
  constructor
  · intro h i x
    by_cases hi : i < sp.dim
    · obtain ⟨f, hf, -, -, hfe⟩ := hs.getElem? hi
      obtain ⟨g, hg, -, -, hge⟩ := ht.getElem? hi
      rw [← hfe, ← hge]
      exact h i f g hf hg x
    · rw [meaning_of_size_le (by rw [hs.size_eq]; omega),
        meaning_of_size_le (by rw [ht.size_eq]; omega)]
      exact hR
  · intro h i f g hf hg x
    rw [← meaning_of_getElem? hf, ← meaning_of_getElem? hg]
    exact h i x

variable [DecidableEq ν]

theorem same_iff (hsp : sp.Proper) (hs : s.Valid sp) (ht : t.Valid sp) :
    same s t = true ↔ s.meaning sp = t.meaning sp := by
  have hsize : s.size = t.size := hs.size_eq.trans ht.size_eq.symm
  have hpairs : same s t = true ↔
      ∀ (i : Nat) f g, s[i]? = some f → t[i]? = some g → Func.same f g = true := by
    simp only [same, hsize, decide_true, Bool.true_and, List.all_eq_true, Prod.forall]
    constructor
    · intro h i f g hf hg
      apply h f g
      rw [List.mem_iff_getElem?]
      exact ⟨i, by simp [List.getElem?_zip_eq_some, hf, hg]⟩
    · intro h f g hfg
      obtain ⟨i, hi⟩ := List.mem_iff_getElem?.mp hfg
      rw [List.getElem?_zip_eq_some] at hi
      exact h i f g (by simpa using hi.1) (by simpa using hi.2)
  have hmeaning := forall_meaning_iff hs ht (· = ·) rfl
  rw [hpairs, funext_iff]
  simp only [funext_iff]
  rw [← hmeaning]
  constructor
  · intro h i f g hf hg
    exact (Space.same_iff hsp (hs.fits i f hf) (ht.fits i g hg)).mp (h i f g hf hg)
  · intro h i f g hf hg
    exact (Space.same_iff hsp (hs.fits i f hf) (ht.fits i g hg)).mpr (h i f g hf hg)

theorem forall_implies_iff (hsp : sp.Proper) (hs : s.Valid sp) (ht : t.Valid sp) :
    (∀ (i : Nat) (f g : ν), s.toList[i]? = some f → t.toList[i]? = some g →
      Func.implies f g = true) ↔ ∀ i x, s.meaning sp i x ≤ t.meaning sp i x := by
  rw [← forall_meaning_iff hs ht (· ≤ ·) le_rfl]
  simp only [Array.getElem?_toList]
  constructor
  · intro h i f g hf hg
    exact (Space.implies_iff hsp (hs.fits i f hf) (ht.fits i g hg)).mp (h i f g hf hg)
  · intro h i f g hf hg
    exact (Space.implies_iff hsp (hs.fits i f hf) (ht.fits i g hg)).mpr (h i f g hf hg)

theorem firstNotLeq_eq_none (hsp : sp.Proper) (hs : s.Valid sp) (ht : t.Valid sp)
    (h : ∀ i x, s.meaning sp i x ≤ t.meaning sp i x) : firstNotLeq s.toList t.toList 0 = none := by
  have key (fs gs : List ν) (i : Nat)
      (h : ∀ (k : Nat) f g, fs[k]? = some f → gs[k]? = some g → Func.implies f g = true) :
      firstNotLeq fs gs i = none := by
    induction fs generalizing gs i with
    | nil => rfl
    | cons f fs ih =>
      cases gs with
      | nil => rfl
      | cons g gs =>
        rw [firstNotLeq, if_pos (h 0 f g rfl rfl)]
        exact ih gs (i + 1) fun k f' g' hf' hg' => h (k + 1) f' g' (by simpa using hf')
          (by simpa using hg')
  exact key _ _ 0 ((forall_implies_iff hsp hs ht).mpr h)

/-- Lists of the same length can be compared, and the answer speaks about all pairs. -/
theorem leqList_spec {fs gs : List ν} (hlen : fs.length = gs.length) :
    ∃ b, leqList fs gs = some b ∧
      (b = true ↔ ∀ (k : Nat) f g, fs[k]? = some f → gs[k]? = some g →
        Func.implies f g = true) := by
  induction fs generalizing gs with
  | nil => exact ⟨true, rfl, by simp⟩
  | cons f fs ih =>
    cases gs with
    | nil => cases hlen
    | cons g gs =>
      rw [leqList]
      by_cases hfg : Func.implies f g = true
      · obtain ⟨b, hb, hiff⟩ := ih (by simpa using hlen)
        refine ⟨b, by rw [if_pos hfg, hb], hiff.trans ⟨fun h k f' g' hf' hg' => ?_, ?_⟩⟩
        · cases k with
          | zero =>
            obtain rfl := Option.some.inj hf'
            obtain rfl := Option.some.inj hg'
            exact hfg
          | succ k => exact h k f' g' (by simpa using hf') (by simpa using hg')
        · intro h k f' g' hf' hg'
          exact h (k + 1) f' g' (by simpa using hf') (by simpa using hg')
      · refine ⟨false, by rw [if_neg hfg], ?_⟩
        simp only [Bool.false_eq_true, false_iff]
        intro h
        exact hfg (h 0 f g rfl rfl)

theorem leq?_spec (hsp : sp.Proper) (hs : s.Valid sp) (ht : t.Valid sp) :
    ∃ b, leq? s t = some b ∧ (b = true ↔ ∀ i x, s.meaning sp i x ≤ t.meaning sp i x) := by
  have hlen : s.toList.length = t.toList.length := by
    rw [Array.length_toList, Array.length_toList, hs.size_eq, ht.size_eq]
  obtain ⟨b, hb, hiff⟩ := leqList_spec hlen
  exact ⟨b, hb, hiff.trans (forall_implies_iff hsp hs ht)⟩

theorem leq?_of_le (hsp : sp.Proper) (hs : s.Valid sp) (ht : t.Valid sp)
    (h : ∀ i x, s.meaning sp i x ≤ t.meaning sp i x) : leq? s t = some true := by
  obtain ⟨b, hb, hiff⟩ := leq?_spec hsp hs ht
  rw [hb, hiff.mpr h]

end Transformer

/-! ### The transformers of a space -/

namespace Space

variable {ν : Type} [Package ν] {sp : Space} [NodeTable ν sp.dim]

theorem valid_const (b : Bool) : sp.Valid (Func.const b : ν) :=
  ⟨fits_const b, fun x y _ => by simp⟩

theorem valid_fill (b : Bool) : (sp.fill (Func.const b : ν)).Valid sp := by
  refine Transformer.valid_of_forall (by simp [fill]) fun i f hf => ?_
  obtain ⟨-, rfl⟩ : i < sp.dim ∧ f = Func.const b := by
    simpa [fill, Array.getElem?_replicate, eq_comm] using hf
  exact valid_const b

theorem valid_var (hsp : sp.Proper) {j l : Nat} (h : sp.level[j]? = some l) :
    sp.Valid (Package.var l : ν) := by
  obtain ⟨hfits, hvalue⟩ := var_spec (ν := ν) hsp h
  refine ⟨hfits, fun x y hxy => ?_⟩
  rw [hvalue, hvalue]
  exact hxy j

omit [NodeTable ν sp.dim] in
theorem getElem?_identity {i : Nat} {f : ν} (h : (sp.identity : Transformer ν)[i]? = some f) :
    ∃ l, sp.level[i]? = some l ∧ f = Package.var l := by
  rw [identity, Array.getElem?_map, Option.map_eq_some_iff] at h
  obtain ⟨l, hl, rfl⟩ := h
  exact ⟨l, hl, rfl⟩

variable (ν) in
theorem valid_identity (hsp : sp.Proper) : (sp.identity : Transformer ν).Valid sp := by
  refine Transformer.valid_of_forall (by simp [identity, hsp.size_level]) fun i f hf => ?_
  obtain ⟨l, hl, rfl⟩ := getElem?_identity hf
  exact valid_var hsp hl

variable (ν) in
theorem valid_bottom : (sp.bottom : Transformer ν).Valid sp :=
  valid_fill false

variable (ν) in
theorem meaning_bottom (i : Nat) (x : Bits) :
    (sp.bottom : Transformer ν).meaning sp i x = false := by
  unfold bottom
  by_cases hi : i < sp.dim
  · rw [Transformer.meaning_of_getElem? (f := Func.const false) (by simp [fill, hi])]
    exact value_const false x
  · exact Transformer.meaning_of_size_le (by simp [fill]; omega) x

variable (ν) in
theorem meaning_identity (hsp : sp.Proper) {i : Nat} (hi : i < sp.dim) (x : Bits) :
    (sp.identity : Transformer ν).meaning sp i x = x i := by
  obtain ⟨l, hl⟩ := hsp.exists_level hi
  rw [Transformer.meaning_of_getElem? (f := Package.var l) (by simp [identity, hl])]
  exact (var_spec hsp hl).2 x

variable [DecidableEq ν]

theorem monotone_of_valid (hsp : sp.Proper) {t : Transformer ν} (ht : t.Valid sp) :
    sp.monotone t = true := by
  simp only [monotone, List.all_eq_true, List.mem_range]
  intro f hf l hl
  obtain ⟨i, hi⟩ := List.mem_iff_getElem?.mp hf
  rw [Array.getElem?_toList] at hi
  have hvalid := ht.valid hi
  exact positiveIn_of_monotone hsp hvalid.fits hvalid.monotone hl

/-- A transformer has a value at values of the first inputs, component by component. -/
theorem evalAll?_of_le (hsp : sp.Proper) {t : Transformer ν} (ht : t.Valid sp) {l : List Bool}
    (hl : l.length ≤ sp.dim) :
    sp.evalAll? t l = some (t.toList.map fun f => sp.value f (l.getD · true)) := by
  rw [evalAll?, Fold.mapM_eq_some_iff, List.forall₂_map_right_iff, List.forall₂_same]
  intro f hf
  obtain ⟨i, hi⟩ := List.mem_iff_getElem?.mp hf
  rw [Array.getElem?_toList] at hi
  have hvalid := ht.valid hi
  exact eval?_of_monotone hsp hvalid.fits hvalid.monotone hl

/-- A transformer has a value at every vector of the right length. -/
theorem evalAll?_spec (hsp : sp.Proper) {t : Transformer ν} (ht : t.Valid sp) {l : List Bool}
    (hl : l.length = sp.dim) :
    ∃ out, sp.evalAll? t l = some out ∧ out.length = sp.dim ∧
      ∀ i, out.getD i false = t.meaning sp i fun j => l.getD j false := by
  refine ⟨_, evalAll?_of_le hsp ht (Nat.le_of_eq hl), by simp [ht.size_eq], fun i => ?_⟩
  have hcongr : (t.meaning sp i fun j => l.getD j false) = t.meaning sp i (l.getD · true) := by
    refine ht.meaning_congr hsp fun j hj => ?_
    have hj : j < l.length := hl.symm ▸ hj
    simp [hj]
  rw [hcongr, List.getD_eq_getElem?_getD, List.getElem?_map, Array.getElem?_toList]
  by_cases hi : i < sp.dim
  · obtain ⟨f, hf, -⟩ := ht.getElem? hi
    rw [hf, Transformer.meaning_of_getElem? hf]
    rfl
  · have hsize : t.size ≤ i := by
      rw [ht.size_eq]
      omega
    rw [Array.getElem?_eq_none hsize, Transformer.meaning_of_size_le hsize]
    rfl

end Space

end MuProc
