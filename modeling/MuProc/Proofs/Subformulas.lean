import MuProc.Proofs.Configurations
import MuProc.Proofs.Indices

/-!
# Subformulas where they stand

The meaning of the `j`-th subformula of a formula, form by form. A numbered formula is
in normal form, so its meaning is monotone in the sets its variables denote, and a
fixpoint is the meaning of its body where the variable denotes the fixpoint itself.
-/

namespace MuProc

namespace Formula

variable {S : Type} {L : ModalSystem S} {ρ ρ' : Name → Set S} {f g φ : Formula} {x act : Name}
  {k : BlockKind} {j : Nat}

/-- The set of states that satisfy the `j`-th subformula where it stands. -/
def meaningAt (L : ModalSystem S) (ρ : Name → Set S) (φ : Formula) (j : Nat) : Set S :=
  ((occurrences L ρ φ)[j]?).elim ∅ fun o => denote L o.2 o.1

theorem IsLeaf.occurrences_eq (h : IsLeaf φ) : occurrences L ρ φ = [(φ, ρ)] := by
  cases h <;> rfl

theorem IsBinary.occurrences_eq (h : IsBinary f g φ) :
    occurrences L ρ φ = occurrences L ρ f ++ occurrences L ρ g ++ [(φ, ρ)] := by
  cases h <;> rfl

theorem IsModal.occurrences_eq (h : IsModal act f φ) :
    occurrences L ρ φ = occurrences L ρ f ++ [(φ, ρ)] := by
  cases h <;> rfl

theorem IsBinder.occurrences_eq (h : IsBinder x f k φ) : occurrences L ρ φ =
    occurrences L (Function.update ρ x (denote L ρ φ)) f ++ [(φ, ρ)] := by
  cases h <;> rfl

theorem meaningAt_root (L : ModalSystem S) (ρ : Name → Set S) (φ : Formula) :
    meaningAt L ρ φ (φ.size - 1) = denote L ρ φ := by
  obtain ⟨l, hl⟩ : ∃ l, occurrences L ρ φ = l ++ [(φ, ρ)] := by
    cases φ with
    | tt => exact ⟨[], rfl⟩
    | ff => exact ⟨[], rfl⟩
    | atom p => exact ⟨[], rfl⟩
    | var x => exact ⟨[], rfl⟩
    | _ => exact ⟨_, rfl⟩
  have hlen := length_occurrences L ρ φ
  rw [hl, List.length_append, List.length_singleton] at hlen
  have hj : φ.size - 1 = l.length := by omega
  rw [meaningAt, hl, hj, List.getElem?_concat_length]
  rfl

theorem IsBinary.meaningAt_left (h : IsBinary f g φ) (hj : j < f.size) :
    meaningAt L ρ φ j = meaningAt L ρ f j := by
  rw [meaningAt, meaningAt, h.occurrences_eq, List.append_assoc,
    List.getElem?_append_left (by rwa [length_occurrences])]

theorem IsBinary.meaningAt_right (h : IsBinary f g φ) (hj : j < g.size) :
    meaningAt L ρ φ (f.size + j) = meaningAt L ρ g j := by
  rw [meaningAt, meaningAt, h.occurrences_eq, List.append_assoc,
    List.getElem?_append_right (by rw [length_occurrences]; omega), length_occurrences,
    Nat.add_sub_cancel_left, List.getElem?_append_left (by rwa [length_occurrences])]

theorem IsModal.meaningAt_operand (h : IsModal act f φ) (hj : j < f.size) :
    meaningAt L ρ φ j = meaningAt L ρ f j := by
  rw [meaningAt, meaningAt, h.occurrences_eq,
    List.getElem?_append_left (by rwa [length_occurrences])]

theorem IsBinder.meaningAt_body (h : IsBinder x f k φ) (hj : j < f.size) : meaningAt L ρ φ j =
    meaningAt L (Function.update ρ x (denote L ρ φ)) f j := by
  rw [meaningAt, meaningAt, h.occurrences_eq,
    List.getElem?_append_left (by rwa [length_occurrences])]

end Formula

namespace Index

open Formula (IsLeaf IsBinary IsModal IsBinder denote meaningAt meaningAt_root)

variable {S : Type} {L : ModalSystem S} {ρ ρ' : Name → Set S} {n : Layout}
  {scopes : List Binding} {block a : Nat} {kind : BlockKind} {φ : Formula}

theorem update_subset {Z Z' : Set S} {x : Name} (hρ : ∀ y, ρ y ⊆ ρ' y) (hZ : Z ⊆ Z')
    (y : Name) :
    Function.update ρ x Z y ⊆ Function.update ρ' x Z' y := by
  by_cases hy : y = x
  · subst hy
    rwa [Function.update_self, Function.update_self]
  · rw [Function.update_of_ne hy, Function.update_of_ne hy]
    exact hρ y

theorem Laid.denote_mono (h : Laid n scopes block kind φ a) (hρ : ∀ y, ρ y ⊆ ρ' y) :
    denote L ρ φ ⊆ denote L ρ' φ := by
  induction h generalizing ρ ρ' with
  | leaf hφ _ => cases hφ <;> exact Set.Subset.rfl
  | literal _ _ => exact Set.Subset.rfl
  | binary hφ _ _ _ ihf ihg =>
    cases hφ with
    | and => exact Set.inter_subset_inter (ihf hρ) (ihg hρ)
    | or => exact Set.union_subset_union (ihf hρ) (ihg hρ)
  | modal hφ _ _ ih =>
    cases hφ with
    | box => exact fun s hs b t hb ht => ih hρ (hs b t hb ht)
    | dia =>
      rintro s ⟨b, t, hb, ht, hmem⟩
      exact ⟨b, t, hb, ht, ih hρ hmem⟩
  | binder hφ _ _ _ ih =>
    cases hφ with
    | mu =>
      intro s hs Z hZ
      exact hs Z ((ih (update_subset hρ Set.Subset.rfl)).trans hZ)
    | nu =>
      rintro s ⟨Z, hZ, hs⟩
      exact ⟨Z, hZ.trans (ih (update_subset hρ Set.Subset.rfl)), hs⟩
  | var _ _ _ => exact hρ _

/-- A fixpoint is the meaning of its body where the variable denotes it. -/
theorem Laid.denote_binder {f : Formula} {x : Name} {k : BlockKind} (hφ : IsBinder x f k φ)
    (h : Laid n scopes block kind f a) (ρ : Name → Set S) :
    denote L ρ φ = denote L (Function.update ρ x (denote L ρ φ)) f := by
  have hmono {Z Z' : Set S} (hZ : Z ⊆ Z') :
      denote L (Function.update ρ x Z) f ⊆ denote L (Function.update ρ x Z') f :=
    h.denote_mono (update_subset (fun _ => Set.Subset.rfl) hZ)
  cases hφ with
  | mu =>
    have hpre : denote L (Function.update ρ x (denote L ρ (.mu x f))) f ⊆ denote L ρ (.mu x f) := by
      intro s hs Z hZ
      exact hZ (hmono (Set.sInter_subset_of_mem hZ) hs)
    exact Set.Subset.antisymm (fun s hs => hs _ (hmono hpre)) hpre
  | nu =>
    have hpost : denote L ρ (.nu x f) ⊆
        denote L (Function.update ρ x (denote L ρ (.nu x f))) f := by
      rintro s ⟨Z, hZ, hs⟩
      exact hmono (Set.subset_sUnion_of_mem hZ) (hZ hs)
    exact Set.Subset.antisymm hpost fun s hs => ⟨_, hmono hpost, hs⟩

/-- The subformulas stand in the order of their numbers. -/
theorem Laid.occurrence (h : Laid n scopes block kind φ a) (ρ : Name → Set S) {j : Nat}
    (hj : j < φ.size) :
    ∃ s, n.subs[a + j]? = some s ∧ ∃ ρ', (φ.occurrences L ρ)[j]? = some (s.node, ρ') := by
  have hlen (ρ : Name → Set S) (f : Formula) := Formula.length_occurrences L ρ f
  induction h generalizing ρ j with
  | @leaf scopes block kind φ a hφ hsub =>
    obtain rfl : j = 0 := by rw [hφ.size_eq] at hj; omega
    exact ⟨_, hsub, ρ, by rw [hφ.occurrences_eq]; rfl⟩
  | @literal scopes block kind p a hatom hsub =>
    simp only [Formula.size] at hj
    obtain rfl | rfl : j = 0 ∨ j = 1 := by omega
    · exact ⟨_, hatom, ρ, rfl⟩
    · exact ⟨_, hsub, ρ, rfl⟩
  | @binary scopes block kind f g φ a hφ hf hg hsub ihf ihg =>
    rw [hφ.size_eq] at hj
    rw [hφ.occurrences_eq, List.append_assoc]
    by_cases h1 : j < f.size
    · rw [List.getElem?_append_left (by rwa [hlen])]
      exact ihf ρ h1
    obtain ⟨j, rfl⟩ := Nat.exists_eq_add_of_le (Nat.not_lt.mp h1)
    rw [List.getElem?_append_right (by rw [hlen]; omega), hlen, Nat.add_sub_cancel_left,
      ← Nat.add_assoc]
    by_cases h2 : j < g.size
    · rw [List.getElem?_append_left (by rwa [hlen])]
      exact ihg ρ h2
    · obtain rfl : j = g.size := by omega
      refine ⟨_, hsub, ρ, ?_⟩
      rw [← hlen ρ g, List.getElem?_concat_length]
  | @modal scopes block kind act f φ a hφ hf hsub ih =>
    rw [hφ.size_eq] at hj
    rw [hφ.occurrences_eq]
    by_cases h1 : j < f.size
    · rw [List.getElem?_append_left (by rwa [hlen])]
      exact ih ρ h1
    · obtain rfl : j = f.size := by omega
      refine ⟨_, hsub, ρ, ?_⟩
      rw [← hlen ρ f, List.getElem?_concat_length]
  | @binder scopes block kind k x f φ inner a hφ hopens hf hsub ih =>
    rw [hφ.size_eq] at hj
    rw [hφ.occurrences_eq]
    by_cases h1 : j < f.size
    · rw [List.getElem?_append_left (by rwa [hlen])]
      exact ih _ h1
    · obtain rfl : j = f.size := by omega
      refine ⟨_, hsub, ρ, ?_⟩
      rw [← hlen (Function.update ρ x (denote L ρ φ)) f, List.getElem?_concat_length]
  | @var scopes block kind x a s hs hsb hsub =>
    obtain rfl : j = 0 := by simp only [Formula.size] at hj; omega
    exact ⟨_, hsub, ρ, rfl⟩

end Index

end MuProc
