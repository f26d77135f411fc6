import MuProc.Proofs.Acceptance
import MuProc.Proofs.NormalForm
import MuProc.Proofs.Verdicts

/-!
# Formulas and their negations

The normal forms of a formula and of its negation are dual to each other, form by form, so
one can be numbered if the other can. A box speaks about guaranteed steps only, so over a
modal system the two need not exclude each other; but every state satisfies at least one.
-/

namespace MuProc

/-- The kind of the blocks of the dual formula. -/
def BlockKind.dual : BlockKind → BlockKind
  | .plain => .plain
  | .greatest => .least
  | .least => .greatest

theorem BlockKind.dual_inj {k k' : BlockKind} : k.dual = k'.dual ↔ k = k' := by
  cases k <;> cases k' <;> decide

namespace Formula

variable {S : Type} {M : ModalSystem S} {ρ ρ' : Name → Set S} {f : Formula} {V : Set Name}
  {k k' : BlockKind} {dual dual' : Polarity} {neg : Bool} {x : Name}

theorem scopeOf_dual : scopeOf V k.dual k'.dual x = scopeOf V k k' x := by
  ext y
  simp only [scopeOf, BlockKind.dual_inj]

theorem numberable_scope_dual (j : BlockKind) :
    f.Numberable (scopeOf V k.dual j.dual x) j.dual ↔ f.Numberable (scopeOf V k j x) j.dual := by
  rw [scopeOf_dual]

theorem bind_dual (hV : ∀ y ∈ V, dual' y = !dual y) (neg : Bool) :
    ∀ y ∈ scopeOf V k k' x, dual'.bind x (!neg) y = !dual.bind x neg y := by
  rintro y (rfl | ⟨-, hy⟩)
  · simp [Polarity.bind]
  · simp only [Polarity.bind]
    split
    · rfl
    · exact hV y hy

/-- With all polarities turned round, what can be numbered stays the same. -/
theorem numberable_normalWith_not (hV : ∀ y ∈ V, dual' y = !dual y) :
    (normalWith dual' (!neg) f).Numberable V k.dual ↔ (normalWith dual neg f).Numberable V k := by
  induction f generalizing dual dual' neg V k with
  | tt => cases neg <;> exact Iff.rfl
  | ff => cases neg <;> exact Iff.rfl
  | atom p =>
    cases neg with
    | false => exact iff_of_true ⟨p, rfl⟩ trivial
    | true => exact iff_of_true trivial ⟨p, rfl⟩
  | not f ih => exact ih hV
  | and f g ihf ihg => cases neg <;> exact and_congr (ihf hV) (ihg hV)
  | or f g ihf ihg => cases neg <;> exact and_congr (ihf hV) (ihg hV)
  | box a f ih => cases neg <;> exact ih hV
  | dia a f ih => cases neg <;> exact ih hV
  | mu x f ih =>
    cases neg with
    | false => exact (numberable_scope_dual .least).trans (ih (bind_dual hV false))
    | true => exact (numberable_scope_dual .greatest).trans (ih (bind_dual hV true))
  | nu x f ih =>
    cases neg with
    | false => exact (numberable_scope_dual .greatest).trans (ih (bind_dual hV false))
    | true => exact (numberable_scope_dual .least).trans (ih (bind_dual hV true))
  | var x =>
    simp only [normalWith]
    by_cases hx : x ∈ V
    · -- the variable keeps or loses its negation in both
      rw [hV x hx]
      cases neg <;> cases dual x <;> simp [Numberable, hx]
    · have hno (b : Prop) [Decidable b] (k : BlockKind) :
          ¬ (if b then Formula.var x else .not (.var x)).Numberable V k := by
        split
        · exact hx
        · rintro ⟨p, hp⟩
          cases hp
      exact iff_of_false (hno _ _) (hno _ _)

/-! ### Meaning -/

/-- Every state is in one of two sets. -/
def Covers (A B : Set S) : Prop :=
  ∀ s, s ∈ A ∨ s ∈ B

variable {A A' B B' : Set S}

theorem Covers.symm (h : Covers A B) : Covers B A :=
  fun s => (h s).symm

theorem Covers.inter_union (h : Covers A A') (h' : Covers B B') :
    Covers (A ∩ B) (A' ∪ B') := by
  intro s
  rcases h s with hA | hA'
  · rcases h' s with hB | hB'
    · exact .inl ⟨hA, hB⟩
    · exact .inr (.inr hB')
  · exact .inr (.inl hA')

/-- Where a box fails, a guaranteed step leads out of the first set, and so the diamond
holds. -/
theorem Covers.box_dia (h : Covers A A') (a : Name) :
    Covers {s | ∀ b t, SpeaksOf a b → M.must s b t → t ∈ A}
      {s | ∃ b t, SpeaksOf a b ∧ (M.must s b t ∨ M.may s b t) ∧ t ∈ A'} := by
  intro s
  by_contra hneither
  obtain ⟨hbox, hdia⟩ := not_or.mp hneither
  refine hbox fun b t hb hstep => (h t).resolve_right fun ht => ?_
  exact hdia ⟨b, t, hb, .inl hstep, ht⟩

/-- The complement of a set that an operator maps into itself lies in its own image under
a dual operator. -/
theorem Covers.fixpoints {F F' : Set S → Set S}
    (h : ∀ Z Z', Covers Z Z' → Covers (F Z) (F' Z')) :
    Covers (⋂₀ {Z | F Z ⊆ Z}) (⋃₀ {Z | Z ⊆ F' Z}) := by
  intro s
  by_cases hs : s ∈ ⋂₀ {Z | F Z ⊆ Z}
  · exact .inl hs
  · simp only [Set.mem_sInter, Set.mem_ofPred_eq, not_forall] at hs
    obtain ⟨Z, hZ, hs⟩ := hs
    refine .inr ⟨Zᶜ, fun t ht => ?_, hs⟩
    have hcovers := h Z Zᶜ fun u => Classical.em (u ∈ Z)
    exact (hcovers t).resolve_left fun hmem => ht (hZ hmem)

theorem covers_update (h : ∀ y ∈ V, Covers (ρ y) (ρ' y)) {Z Z' : Set S} (hZ : Covers Z Z') :
    ∀ y ∈ scopeOf V k k' x, Covers (Function.update ρ x Z y) (Function.update ρ' x Z' y) := by
  intro y hy
  by_cases hyx : y = x
  · subst hyx
    rwa [Function.update_self, Function.update_self]
  · rw [Function.update_of_ne hyx, Function.update_of_ne hyx]
    rcases hy with rfl | ⟨-, hy⟩
    · exact absurd rfl hyx
    · exact h y hy

/-- Every state satisfies the normal form of a formula or that of its negation. -/
theorem covers_normalWith_not (hV : ∀ y ∈ V, dual' y = !dual y)
    (hnum : (normalWith dual neg f).Numberable V k) (hρ : ∀ y ∈ V, Covers (ρ y) (ρ' y)) :
    Covers (denote M ρ (normalWith dual neg f)) (denote M ρ' (normalWith dual' (!neg) f)) := by
  induction f generalizing dual dual' neg V k ρ ρ' with
  | tt =>
    cases neg with
    | false => exact fun s => .inl trivial
    | true => exact fun s => .inr trivial
  | ff =>
    cases neg with
    | false => exact fun s => .inr trivial
    | true => exact fun s => .inl trivial
  | atom p =>
    have hatom : Covers {s | M.holds s p} {s | M.holds s p}ᶜ := fun s => Classical.em _
    cases neg with
    | false => exact hatom
    | true => exact hatom.symm
  | not f ih => exact ih hV hnum hρ
  | and f g ihf ihg =>
    cases neg with
    | false => exact (ihf hV hnum.1 hρ).inter_union (ihg hV hnum.2 hρ)
    | true => exact ((ihf hV hnum.1 hρ).symm.inter_union (ihg hV hnum.2 hρ).symm).symm
  | or f g ihf ihg =>
    cases neg with
    | false => exact ((ihf hV hnum.1 hρ).symm.inter_union (ihg hV hnum.2 hρ).symm).symm
    | true => exact (ihf hV hnum.1 hρ).inter_union (ihg hV hnum.2 hρ)
  | box a f ih =>
    cases neg with
    | false => exact (ih hV hnum hρ).box_dia a
    | true => exact ((ih hV hnum hρ).symm.box_dia a).symm
  | dia a f ih =>
    cases neg with
    | false => exact ((ih hV hnum hρ).symm.box_dia a).symm
    | true => exact (ih hV hnum hρ).box_dia a
  | mu x f ih =>
    cases neg with
    | false =>
      refine Covers.fixpoints fun Z Z' hZ => ?_
      exact ih (bind_dual hV false) hnum (covers_update hρ hZ)
    | true =>
      refine (Covers.fixpoints fun Z Z' hZ => ?_).symm
      exact (ih (bind_dual hV true) hnum (covers_update hρ hZ.symm)).symm
  | nu x f ih =>
    cases neg with
    | false =>
      refine (Covers.fixpoints fun Z Z' hZ => ?_).symm
      exact (ih (bind_dual hV false) hnum (covers_update hρ hZ.symm)).symm
    | true =>
      refine Covers.fixpoints fun Z Z' hZ => ?_
      exact ih (bind_dual hV true) hnum (covers_update hρ hZ)
  | var x =>
    -- a variable that is numbered carries no negation, in either of the two
    have hx : neg = dual x ∧ x ∈ V := by
      simp only [normalWith] at hnum
      split at hnum
      · rename_i heq
        exact ⟨heq, hnum⟩
      · obtain ⟨p, hp⟩ := hnum
        cases hp
    have hx' : (!neg) = dual' x := by rw [hV x hx.2, hx.1]
    simp only [normalWith, if_pos hx.1, if_pos hx']
    exact hρ x hx.2

theorem numberable_normal_not (f : Formula) :
    (normal (.not f)).Numberable ∅ .plain ↔ f.normal.Numberable ∅ .plain := by
  show (normalWith _ (!false) f).Numberable ∅ BlockKind.plain.dual ↔ _
  exact numberable_normalWith_not (by simp)

theorem covers_normal_not (hnum : f.normal.Numberable ∅ .plain) :
    Covers (denote M ρ f.normal) (denote M ρ (normal (.not f))) := by
  show Covers _ (denote M ρ (normalWith _ (!false) f))
  exact covers_normalWith_not (by simp) hnum (by simp)

/-- Over a single transition relation the two normal forms are complements. -/
theorem denote_normal_not_eq (L : LabelledSystem S) :
    denote L.modal ρ (normal (.not f)) = (denote L.modal ρ f.normal)ᶜ := by
  have h (neg : Bool) := denote_normalWith L (fun _ => false) neg f ρ
  simp only [read_nothing] at h
  exact (h true).trans (congrArg compl (h false).symm)

end Formula

/-! ### Verdicts -/

theorem Graph.Moves.performs {sys : ProcessSystem} {g : Graph} (hg : g.Expanded sys)
    {c τ : List Nat} {s : Step} (h : g.Moves c s τ) : sys.Performs s := by
  induction h with
  | act hes he _ => exact hg.performs _ _ hes _ he
  | call _ _ _ _ _ ih => exact ih

/-- Where every action is guaranteed, the configurations have a single transition relation. -/
theorem Graph.Expanded.exists_modal {sys : ProcessSystem} {g : Graph} (hg : g.Expanded sys)
    (hmust : ∀ s, sys.Performs s → s.isCall = false → s.kind = .must) :
    ∃ L : LabelledSystem (List Nat), g.configurations = L.modal := by
  refine ⟨⟨g.configurations.holds, g.configurations.must⟩, ?_⟩
  have hmay : g.configurations.may = fun _ _ _ => False := by
    funext c a c'
    refine eq_false ?_
    rintro ⟨s, τ, hmove, hkind, -⟩
    exact hkind (hmust s (hmove.performs hg) hmove.isCall_eq_false)
  rw [LabelledSystem.modal, ← hmay]

/-- A formula can be numbered if its negation can, and then at least one of the two holds for a
process; exactly one does if every action that the process can reach is guaranteed. -/
theorem satisfies_not (sys : ProcessSystem) (f : Formula) (p : Name)
    (hsys : sys.validate = .ok ()) (hp : p ∈ sys.processes) :
    ((∃ idx, Index.ofFormula f.normal = .ok idx) ↔
      ∃ idx, Index.ofFormula (Formula.not f).normal = .ok idx) ∧
    ∀ idx idx', Index.ofFormula f.normal = .ok idx →
      Index.ofFormula (Formula.not f).normal = .ok idx' →
      ((∃ b, satisfies sys f p = .ok b) ↔ idx.size ≤ Space.maxDim) ∧
      ((∃ b, satisfies sys (.not f) p = .ok b) ↔ idx'.size ≤ Space.maxDim) ∧
      ∀ b b', satisfies sys f p = .ok b → satisfies sys (.not f) p = .ok b' →
        (b = true ∨ b' = true) ∧
        ((∀ q, sys.Reaches p q → ∀ r ∈ sys.rules q, ∀ s ∈ r, s.isCall = false → s.kind = .must) →
          b' = !b) := by
  refine ⟨?_, fun idx idx' hidx hidx' => ?_⟩
  · rw [Index.ofFormula_isOk_iff, Index.ofFormula_isOk_iff]
    exact (Formula.numberable_normal_not f).symm
  refine ⟨satisfies_isOk_iff hsys hp hidx, satisfies_isOk_iff hsys hp hidx', fun b b' hb hb' => ?_⟩
  have hiff := satisfies_iff hsys hp hidx hb fun _ => ∅
  have hiff' := satisfies_iff hsys hp hidx' hb' fun _ => ∅
  refine ⟨?_, fun hmust => ?_⟩
  · rw [hiff, hiff']
    exact Formula.covers_normal_not (Index.ofFormula_isOk_iff.mp ⟨idx, hidx⟩) _
  · have hexpanded := Graph.ofSystem_expanded (ProcessSystem.validate_startAt hsys hp)
    obtain ⟨L, hL⟩ := hexpanded.exists_modal fun s hs hact => by
      obtain ⟨q, hq, r, hr, hs⟩ := hs
      exact hmust q hq r hr s hs hact
    have hcompl : b' = true ↔ ¬ b = true := by
      rw [hiff, hiff', hL, Formula.denote_normal_not_eq]
      exact Iff.rfl
    rw [Bool.eq_iff_iff, hcompl]
    simp

/-- A process that repeats itself before it ends. If all its steps are guaranteed, exactly one
of a formula and its negation holds; with a step that is only possible, at least one does. -/
theorem satisfies_not_loop :
    (∃ b, satisfies (.ofDefinitions "P" [{ name := "P", rules := [
          [.act "a" .must, .run "P", .act "c" .must], [.act "b" .must]] }])
        (.mu "X" (.or (.atom "p") (.box "" (.var "X")))) "P" = .ok b ∧
      satisfies (.ofDefinitions "P" [{ name := "P", rules := [
          [.act "a" .must, .run "P", .act "c" .must], [.act "b" .must]] }])
        (.not (.mu "X" (.or (.atom "p") (.box "" (.var "X"))))) "P" = .ok (!b)) ∧
    ∃ b b', satisfies (.ofDefinitions "P" [{ name := "P", rules := [
          [.act "a" .must, .run "P", .act "c" .must], [.act "b" .may]] }])
        (.mu "X" (.or (.atom "p") (.box "" (.var "X")))) "P" = .ok b ∧
      satisfies (.ofDefinitions "P" [{ name := "P", rules := [
          [.act "a" .must, .run "P", .act "c" .must], [.act "b" .may]] }])
        (.not (.mu "X" (.or (.atom "p") (.box "" (.var "X"))))) "P" = .ok b' ∧
      (b = true ∨ b' = true) := by
  obtain ⟨idx, hidx⟩ : ∃ idx, Index.ofFormula (Formula.normal
      (.mu "X" (.or (.atom "p") (.box "" (.var "X"))))) = .ok idx := ⟨_, rfl⟩
  obtain ⟨idx', hidx'⟩ : ∃ idx, Index.ofFormula (Formula.normal
      (.not (.mu "X" (.or (.atom "p") (.box "" (.var "X")))))) = .ok idx := ⟨_, rfl⟩
  have hsize : idx.size ≤ Space.maxDim ∧ idx'.size ≤ Space.maxDim := by
    obtain rfl := Except.ok.inj hidx
    obtain rfl := Except.ok.inj hidx'
    decide
  constructor
  · have hsys : (ProcessSystem.ofDefinitions "P" [{ name := "P", rules := [
        [.act "a" .must, .run "P", .act "c" .must], [.act "b" .must]] }]).validate = .ok () := rfl
    obtain ⟨htotal, htotal', h⟩ := (satisfies_not _
      (.mu "X" (.or (.atom "p") (.box "" (.var "X")))) "P" hsys (by decide)).2 idx idx' hidx hidx'
    obtain ⟨b, hb⟩ := htotal.mpr hsize.1
    obtain ⟨b', hb'⟩ := htotal'.mpr hsize.2
    have hexactly := (h b b' hb hb').2 (by
      intro q hq
      have hacc := ProcessSystem.accepted_of_validate hsys
      obtain rfl : q = "P" := List.mem_singleton.mp (hacc.mem_of_reaches hacc.initial_mem hq)
      decide)
    exact ⟨b, hb, hexactly ▸ hb'⟩
  · obtain ⟨htotal, htotal', h⟩ := (satisfies_not (.ofDefinitions "P" [{ name := "P", rules := [
        [.act "a" .must, .run "P", .act "c" .must], [.act "b" .may]] }])
      (.mu "X" (.or (.atom "p") (.box "" (.var "X")))) "P" rfl (by decide)).2 idx idx' hidx hidx'
    obtain ⟨b, hb⟩ := htotal.mpr hsize.1
    obtain ⟨b', hb'⟩ := htotal'.mpr hsize.2
    exact ⟨b, b', hb, hb', (h b b' hb hb').1⟩

end MuProc
