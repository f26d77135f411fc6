import MuProc.Proofs.Canonicity

/-!
# Composition

Substitution into a function composes it with a transformer, whatever the order of the
inputs. On the vectors of a space composition of transformers is therefore composition of
maps, and its laws hold up to the comparisons: it is associative, the identity is its unit
on both sides, and it is monotone in both arguments.
-/

namespace MuProc.Space

section Maps

variable {ν : Type} [Package ν] {sp : Space} [NodeTable ν sp.dim] {f : ν} {s t : Transformer ν}

theorem spread_apply {x : Fin sp.dim → Bool} {j : Nat} (hj : j < sp.dim) :
    sp.spread (sp.apply t x) j = t.meaning sp j (sp.spread x) := by
  simp [spread, apply, hj]

theorem apply_mono (ht : t.Valid sp) {x y : Fin sp.dim → Bool} (h : x ≤ y) :
    sp.apply t x ≤ sp.apply t y :=
  fun i => ht.monotone i (spread_mono h)

variable (hsp : sp.Proper)
include hsp

variable (ν) in
theorem apply_identity (x : Fin sp.dim → Bool) :
    sp.apply (sp.identity : Transformer ν) x = x := by
  funext i
  rw [apply, meaning_identity ν hsp i.isLt]
  simp [spread]

variable [DecidableEq ν] [Hashable ν]

theorem MadeFunc.subst (hf : sp.MadeFunc f) (ht : sp.MadeTransformer t) :
    ∃ g, sp.subst f t = some g ∧ sp.MadeFunc g ∧
      ∀ x, sp.value g (sp.spread x) = sp.value f (sp.spread (sp.apply t x)) := by
  have hfits := (hf.valid hsp).fits
  obtain ⟨g, hg, -, hvalue⟩ := subst_spec hsp (ht.valid hsp) hfits
  refine ⟨g, hg, Made.subst hf ht hg, fun x => ?_⟩
  rw [hvalue]
  exact value_congr hsp hfits fun j hj => (spread_apply hj).symm

theorem MadeTransformer.compose (hs : sp.MadeTransformer s) (ht : sp.MadeTransformer t) :
    ∃ u, sp.compose s t = some u ∧ sp.MadeTransformer u ∧
      ∀ x, sp.apply u x = sp.apply s (sp.apply t x) := by
  obtain ⟨u, hu, -, hmeaning⟩ := compose_spec hsp (ht.valid hsp) (hs.valid hsp)
  refine ⟨u, hu, Made.compose hs ht hu, fun x => funext fun i => ?_⟩
  rw [apply, hmeaning]
  exact (hs.valid hsp).meaning_congr hsp fun j hj => (spread_apply hj).symm

theorem leq?_iff_apply (hs : sp.MadeTransformer s) (ht : sp.MadeTransformer t) :
    s.leq? t = some true ↔ ∀ x, sp.apply s x ≤ sp.apply t x := by
  obtain ⟨b, hb, hiff⟩ := leq?_spec_apply hsp (hs.valid hsp) (ht.valid hsp)
  rw [hb, Option.some.injEq]
  exact hiff

end Maps

/-- The laws of substitution and composition, for every order of the inputs. -/
theorem compose_laws {ν : Type} [Package ν] [DecidableEq ν] [Hashable ν] (n : Int)
    (order : Option (List Int)) :
    (0 < n → n ≤ maxDim → (∀ l ∈ order, l.Perm ((List.range n.toNat).map Int.ofNat)) →
      ∃ sp, make n order = .ok sp) ∧
    ∀ sp, make n order = .ok sp → ∀ [NodeTable ν sp.dim],
      (∀ (f : ν) t, sp.MadeFunc f → sp.MadeTransformer t → ∃ g, sp.subst f t = some g ∧
        ∀ x : Fin sp.dim → Bool, ∃ (y : Fin sp.dim → Bool) (b : Bool),
          sp.evalAll? t (.ofFn x) = some (.ofFn y) ∧
          sp.eval? f (.ofFn y) = some b ∧ sp.eval? g (.ofFn x) = some b) ∧
      (∀ s t : Transformer ν, sp.MadeTransformer s → sp.MadeTransformer t →
        ∃ u, sp.compose s t = some u ∧
        ∀ x : Fin sp.dim → Bool, ∃ y z : Fin sp.dim → Bool,
          sp.evalAll? t (.ofFn x) = some (.ofFn y) ∧
          sp.evalAll? s (.ofFn y) = some (.ofFn z) ∧ sp.evalAll? u (.ofFn x) = some (.ofFn z)) ∧
      (∀ r s t : Transformer ν, sp.MadeTransformer r → sp.MadeTransformer s → sp.MadeTransformer t →
        ∃ rs st u v, sp.compose r s = some rs ∧ sp.compose s t = some st ∧
          sp.compose rs t = some u ∧ sp.compose r st = some v ∧ u.same v = true) ∧
      (∀ t : Transformer ν, sp.MadeTransformer t →
        ∃ u v, sp.compose sp.identity t = some u ∧ sp.compose t sp.identity = some v ∧
          u.same t = true ∧ v.same t = true) ∧
      ∀ s s' t t' : Transformer ν, sp.MadeTransformer s → sp.MadeTransformer s' →
        sp.MadeTransformer t → sp.MadeTransformer t' →
        s.leq? s' = some true → t.leq? t' = some true →
        ∃ u u', sp.compose s t = some u ∧ sp.compose s' t' = some u' ∧ u.leq? u' = some true := by
  refine ⟨fun hpos hmax horder => ?_, fun sp hmake _ => ?_⟩
  · obtain ⟨k, rfl⟩ := Int.eq_ofNat_of_zero_le hpos.le
    exact exists_make_of_perm (by omega) (by omega) (by simpa using horder)
  have hsp := (proper_of_make hmake).1
  refine ⟨fun f t hf ht => ?_, fun s t hs ht => ?_, fun r s t hr hs ht => ?_, fun t ht => ?_,
    fun s s' t t' hs hs' ht ht' hles hlet => ?_⟩
  · obtain ⟨g, hg, hmg, hvalue⟩ := hf.subst hsp ht
    refine ⟨g, hg, fun x => ⟨sp.apply t x, _, evalAll?_ofFn hsp (ht.valid hsp) x,
      eval?_ofFn hsp (hf.valid hsp) _, ?_⟩⟩
    rw [eval?_ofFn hsp (hmg.valid hsp), hvalue]
  · obtain ⟨u, hu, hmu, happly⟩ := hs.compose hsp ht
    refine ⟨u, hu, fun x => ⟨_, _, evalAll?_ofFn hsp (ht.valid hsp) x,
      evalAll?_ofFn hsp (hs.valid hsp) _, ?_⟩⟩
    rw [evalAll?_ofFn hsp (hmu.valid hsp), happly]
  · obtain ⟨rs, hrs, hmrs, hars⟩ := hr.compose hsp hs
    obtain ⟨st, hst, hmst, hast⟩ := hs.compose hsp ht
    obtain ⟨u, hu, hmu, hau⟩ := hmrs.compose hsp ht
    obtain ⟨v, hv, hmv, hav⟩ := hr.compose hsp hmst
    refine ⟨rs, st, u, v, hrs, hst, hu, hv, ?_⟩
    rw [same_iff_apply hsp (hmu.valid hsp) (hmv.valid hsp)]
    intro x
    rw [hau, hars, hav, hast]
  · have hid : sp.MadeTransformer (sp.identity : Transformer ν) := Made.identity
    obtain ⟨u, hu, hmu, hau⟩ := hid.compose hsp ht
    obtain ⟨v, hv, hmv, hav⟩ := ht.compose hsp hid
    refine ⟨u, v, hu, hv, ?_, ?_⟩
    · rw [same_iff_apply hsp (hmu.valid hsp) (ht.valid hsp)]
      intro x
      rw [hau, apply_identity ν hsp]
    · rw [same_iff_apply hsp (hmv.valid hsp) (ht.valid hsp)]
      intro x
      rw [hav, apply_identity ν hsp]
  · obtain ⟨u, hu, hmu, hau⟩ := hs.compose hsp ht
    obtain ⟨u', hu', hmu', hau'⟩ := hs'.compose hsp ht'
    refine ⟨u, u', hu, hu', (leq?_iff_apply hsp hmu hmu').mpr fun x => ?_⟩
    rw [leq?_iff_apply hsp hs hs'] at hles
    rw [leq?_iff_apply hsp ht ht'] at hlet
    calc sp.apply u x = sp.apply s (sp.apply t x) := hau x
      _ ≤ sp.apply s (sp.apply t' x) := apply_mono (hs.valid hsp) (hlet x)
      _ ≤ sp.apply s' (sp.apply t' x) := hles _
      _ = sp.apply u' x := (hau' x).symm

/-- The transformer of conjunction, disjunction and a copied input, applied twice. -/
theorem compose_laws_twice :
    ∃ sp, ∃ f g : Func, ∃ t u, make 3 (some [2, 0, 1]) = .ok sp ∧
      sp.input? 0 = some f ∧ sp.input? 1 = some g ∧
      sp.build [Func.all [f, g], Func.any [f, g], f] = .ok t ∧ sp.compose t t = some u ∧
      sp.evalAll? t [true, false, true] = some [false, true, true] ∧
      sp.evalAll? u [true, false, true] = some [false, true, false] := by
  obtain ⟨sp, hmake⟩ :=
    (compose_laws (ν := Func) 3 (some [2, 0, 1])).1 (by decide) (by decide) (by decide)
  obtain rfl : ⟨3, #[2, 0, 1], invert [2, 0, 1]⟩ = sp := Except.ok.inj ((make_of_nodup (n := 3)
    (l := [2, 0, 1]) (by decide) (by decide) rfl (by decide) (by decide)).symm.trans hmake)
  obtain ⟨-, hcompose, -⟩ := (compose_laws (ν := Func) 3 (some [2, 0, 1])).2 _ hmake
  let f : Func := Package.var 2
  let g : Func := Package.var 0
  have hfs : ∀ φ ∈ [f, g], Made ⟨3, #[2, 0, 1], invert [2, 0, 1]⟩ (.inl φ) := by
    simpa using ⟨Made.input (j := 0) rfl, Made.input (j := 1) rfl⟩
  have hcomponents : ∀ φ ∈ [Func.all [f, g], Func.any [f, g], f],
      Made ⟨3, #[2, 0, 1], invert [2, 0, 1]⟩ (.inl φ) := by
    simpa using ⟨Made.all hfs, Made.any hfs, hfs f (by simp)⟩
  have ht : MadeTransformer ⟨3, #[2, 0, 1], invert [2, 0, 1]⟩
      #[Func.all [f, g], Func.any [f, g], f] :=
    Made.build hcomponents rfl
  obtain ⟨u, hu, happly⟩ := hcompose _ _ ht ht
  obtain ⟨y, z, hy, hz, hxz⟩ := happly fun i => decide (i.val ≠ 1)
  have honce : evalAll? ⟨3, #[2, 0, 1], invert [2, 0, 1]⟩ #[Func.all [f, g], Func.any [f, g], f]
      [true, false, true] = some [false, true, true] := by
    decide
  have htwice : evalAll? ⟨3, #[2, 0, 1], invert [2, 0, 1]⟩ #[Func.all [f, g], Func.any [f, g], f]
      [false, true, true] = some [false, true, false] := by
    decide
  have hx : List.ofFn (fun i : Fin 3 => decide (i.val ≠ 1)) = [true, false, true] := by
    decide
  rw [hx] at hy hxz
  rw [← Option.some.inj (honce.symm.trans hy)] at hz
  rw [← htwice.symm.trans hz] at hxz
  exact ⟨_, f, g, _, u, hmake, rfl, rfl, rfl, hu, honce, hxz⟩

end MuProc.Space
