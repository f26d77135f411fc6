import MuProc.Proofs.Indices
import MuProc.Proofs.Variables

/-!
# Formulas that can be numbered

Whether a formula can be numbered is a property of the formula alone: negation stands
above propositions only, and a variable belongs to the block in which it stands. The block
matters only through its kind and its variables. A closed formula that can be numbered
inside another one can be numbered by itself.
-/

namespace MuProc

namespace Formula

/-- The variables that can be used inside a fixpoint of kind `k'` that binds `x`: those of
the block around it if the kinds agree, and `x`. -/
def scopeOf (V : Set Name) (k k' : BlockKind) (x : Name) : Set Name :=
  {y | y = x ∨ k = k' ∧ y ∈ V}

/-- A formula can be numbered inside a block of the given kind with the variables `V`. -/
def Numberable : Set Name → BlockKind → Formula → Prop
  | _, _, .tt | _, _, .ff | _, _, .atom _ => True
  | _, _, .not f => ∃ p, f = .atom p
  | V, k, .and f g | V, k, .or f g => f.Numberable V k ∧ g.Numberable V k
  | V, k, .box _ f | V, k, .dia _ f => f.Numberable V k
  | V, k, .mu x f => f.Numberable (scopeOf V k .least x) .least
  | V, k, .nu x f => f.Numberable (scopeOf V k .greatest x) .greatest
  | V, _, .var x => x ∈ V

variable {f g φ : Formula} {V W : Set Name} {k k' : BlockKind} {a x y : Name}

theorem IsBinary.numberable_iff (h : IsBinary f g φ) :
    φ.Numberable V k ↔ f.Numberable V k ∧ g.Numberable V k := by
  cases h <;> exact Iff.rfl

theorem IsModal.numberable_iff (h : IsModal a f φ) : φ.Numberable V k ↔ f.Numberable V k := by
  cases h <;> exact Iff.rfl

theorem IsBinder.numberable_iff (h : IsBinder x f k' φ) :
    φ.Numberable V k ↔ f.Numberable (scopeOf V k k' x) k' := by
  cases h <;> exact Iff.rfl

theorem IsBinary.free_iff (h : IsBinary f g φ) : φ.Free x ↔ f.Free x ∨ g.Free x := by
  cases h <;> exact Iff.rfl

theorem IsModal.free_iff (h : IsModal a f φ) : φ.Free x ↔ f.Free x := by
  cases h <;> exact Iff.rfl

theorem IsBinder.free_iff (h : IsBinder y f k φ) : φ.Free x ↔ x ≠ y ∧ f.Free x := by
  cases h <;> exact Iff.rfl

/-- Only the free variables of a formula have to be in scope. -/
theorem Numberable.of_free (h : f.Numberable V k) (hW : ∀ x ∈ V, f.Free x → x ∈ W) :
    f.Numberable W k := by
  induction f using Formula.shapes generalizing V W k with
  | leaf φ hφ => cases hφ <;> trivial
  | not f _ => exact h
  | binary f g φ hφ ihf ihg =>
    rw [hφ.numberable_iff] at h ⊢
    exact ⟨ihf h.1 fun x hx hfree => hW x hx (hφ.free_iff.mpr (.inl hfree)),
      ihg h.2 fun x hx hfree => hW x hx (hφ.free_iff.mpr (.inr hfree))⟩
  | modal a f φ hφ ih =>
    rw [hφ.numberable_iff] at h ⊢
    exact ih h fun x hx hfree => hW x hx (hφ.free_iff.mpr hfree)
  | binder x k' f φ hφ ih =>
    rw [hφ.numberable_iff] at h ⊢
    -- inside a fixpoint the scopes differ as they do outside
    refine ih h ?_
    rintro y (rfl | ⟨hk, hy⟩) hfree
    · exact .inl rfl
    · by_cases hyx : y = x
      · exact .inl hyx
      · exact .inr ⟨hk, hW y hy (hφ.free_iff.mpr ⟨hyx, hfree⟩)⟩
  | var x => exact hW x h rfl

/-- A closed formula can be numbered in any block. -/
theorem Numberable.of_closed (h : f.Numberable V k) (hf : f.Closed) (W : Set Name)
    (k' : BlockKind) : f.Numberable W k' := by
  induction f using Formula.shapes with
  | leaf φ hφ => cases hφ <;> trivial
  | not f _ => exact h
  | binary f g φ hφ ihf ihg =>
    rw [hφ.numberable_iff] at h ⊢
    exact ⟨ihf h.1 fun x hx => hf x (hφ.free_iff.mpr (.inl hx)),
      ihg h.2 fun x hx => hf x (hφ.free_iff.mpr (.inr hx))⟩
  | modal a f φ hφ ih =>
    rw [hφ.numberable_iff] at h ⊢
    exact ih h fun x hx => hf x (hφ.free_iff.mpr hx)
  | binder x j f φ hφ _ =>
    rw [hφ.numberable_iff] at h ⊢
    -- a closed fixpoint has no free variable but its own inside
    refine h.of_free fun y _ hfree => .inl ?_
    by_contra hyx
    exact hf y (hφ.free_iff.mpr ⟨hyx, hfree⟩)
  | var x => exact absurd rfl (hf x)

end Formula

namespace Index

open Formula (scopeOf)

/-- The variables that belong to a block. -/
def usable (scopes : List Binding) (block : Nat) : Set Name :=
  {x | ∃ s, lookup scopes x = some s ∧ s.block = block}

variable {n : Layout} {scopes : List Binding} {block inner a m : Nat} {kind k : BlockKind}
  {φ : Formula} {x : Name}

theorem usable_enter (h : Opens n scopes block kind k inner) :
    usable (⟨x, inner, m⟩ :: scopes) inner = scopeOf (usable scopes block) kind k x := by
  ext y
  by_cases hy : y = x
  · subst hy
    exact iff_of_true ⟨⟨y, inner, m⟩, by simp [lookup], rfl⟩ (.inl rfl)
  have hlookup : lookup (⟨x, inner, m⟩ :: scopes) y = lookup scopes y := by
    simp [lookup, Ne.symm hy]
  simp only [usable, scopeOf, Set.mem_ofPred_eq, hlookup, hy, false_or]
  cases h with
  | same hk => simp [hk]
  | new hk _ hscopes _ =>
    simp only [hk, false_and, iff_false, not_exists, not_and]
    intro s hs hblock
    have hlt := hscopes s (List.mem_of_find?_eq_some hs)
    omega

/-- A formula that is laid out can be numbered. -/
theorem Laid.numberable (h : Laid n scopes block kind φ a) :
    φ.Numberable (usable scopes block) kind := by
  induction h with
  | leaf hφ _ => cases hφ <;> trivial
  | literal _ _ => exact ⟨_, rfl⟩
  | binary hφ _ _ _ ihf ihg => cases hφ <;> exact ⟨ihf, ihg⟩
  | modal hφ _ _ ih => cases hφ <;> exact ih
  | binder hφ hopens _ _ ih =>
    rw [usable_enter hopens] at ih
    cases hφ <;> exact ih
  | var hs hblock _ => exact ⟨_, hs, hblock⟩

theorem Numbering.Ready.usable_enter {n : Numbering} (h : n.Ready scopes block kind)
    (k : BlockKind) (x : Name) (m : Nat) :
    usable (⟨x, (n.enter block k).1, m⟩ :: scopes) (n.enter block k).1 =
      scopeOf (usable scopes block) kind k x := by
  obtain ⟨-, -, -, hopens⟩ := h.enter k
  exact Index.usable_enter hopens

/-- A visit succeeds on a formula that can be numbered. -/
theorem Numbering.Ready.exists_visit {n : Numbering} (hn : n.Ready scopes block kind)
    (h : φ.Numberable (usable scopes block) kind) : ∃ res, visit φ block n = .ok res := by
  induction φ using Formula.shapes generalizing scopes block kind n with
  | leaf φ hφ =>
    rw [visit_leaf hφ]
    exact ⟨_, rfl⟩
  | not f _ =>
    obtain ⟨p, rfl⟩ := h
    exact ⟨_, rfl⟩
  | binary f g φ hφ ihf ihg =>
    rw [hφ.numberable_iff] at h
    obtain ⟨⟨l, o⟩, hl⟩ := ihf hn h.1
    obtain ⟨⟨r, q⟩, hr⟩ := ihg ((visited_of_visit hn hl).ready hn) h.2
    rw [visit_binary hφ]
    exact ⟨_, binary_eq_ok.mpr ⟨l, o, hl, r, q, hr, rfl⟩⟩
  | modal a f φ hφ ih =>
    rw [hφ.numberable_iff] at h
    obtain ⟨⟨l, o⟩, hl⟩ := ih hn h
    rw [visit_unary hφ]
    exact ⟨_, unary_eq_ok.mpr ⟨l, o, hl, rfl⟩⟩
  | binder x k f φ hφ ih =>
    rw [hφ.numberable_iff, ← hn.usable_enter k x (n.subs.size + f.size)] at h
    obtain ⟨⟨l, o⟩, hl⟩ := ih (hn.inside k x (n.subs.size + f.size)) h
    rw [visit_fixpoint hφ]
    exact ⟨_, fixpoint_eq_ok.mpr ⟨l, o, hl, rfl⟩⟩
  | var x =>
    obtain ⟨b, hb, hblock⟩ := h
    have hscope := hn.sound.lookup_eq x
    rw [hb, Option.map_some] at hscope
    obtain ⟨s, hs, hsame⟩ := Option.map_eq_some_iff.mp hscope
    simp only [visit, reference, hs, hsame, hblock, if_true]
    exact ⟨_, rfl⟩

theorem usable_nil (block : Nat) : usable [] block = ∅ := by
  ext x
  simp [usable, lookup]

/-- A formula is numbered exactly if it can be numbered outside of every fixpoint. -/
theorem ofFormula_isOk_iff {f : Formula} :
    (∃ idx, ofFormula f = .ok idx) ↔ f.Numberable ∅ .plain := by
  constructor
  · rintro ⟨idx, hidx⟩
    obtain ⟨n, -, -, -, hlaid, -⟩ := laid_of_ofFormula hidx
    rw [← usable_nil 0]
    exact hlaid.numberable
  · intro h
    obtain ⟨n, hn⟩ := ready_start.exists_visit (usable_nil 0 ▸ h)
    simp only [ofFormula, hn, Fold.ok_bind]
    exact ⟨_, rfl⟩

end Index

end MuProc
