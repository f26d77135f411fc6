import MuProc.Proofs.Settling
import MuProc.Proofs.Subformulas

/-!
# Values and meanings

Values of configurations that solve the equations of a numbered formula, each block to
its extreme, are true exactly where the subformulas hold. One direction is an induction
on the formula: any solution bounds the fixpoints of a block from the side of its kind.
For the other one, the meanings of a whole block are themselves a solution, so the
extreme one does not pass them.
-/

namespace MuProc

open Index (From Laid Opens Layout Binding Context lookup)
open Formula (IsLeaf IsBinary IsModal IsBinder denote meaningAt meaningAt_root)

/-! ### Directions of implication -/

namespace BlockKind

/-- The implication that a solution of equations of this kind gives: what holds in a least
fixpoint holds in the solution, and for a greatest fixpoint the other way round. -/
def Leads (k : BlockKind) (p q : Prop) : Prop :=
  match k with
  | .greatest => q → p
  | _ => p → q

variable {k : BlockKind} {p q p' q' : Prop}

theorem Leads.of_iff (h : p ↔ q) : k.Leads p q := by
  cases k with
  | greatest => exact h.mpr
  | _ => exact h.mp

theorem Leads.map {ι : Type} {x y : ι → Prop} {F : (ι → Prop) → Prop}
    (hF : ∀ x y : ι → Prop, (∀ j, x j → y j) → F x → F y) (h : ∀ j, k.Leads (x j) (y j)) :
    k.Leads (F x) (F y) := by
  cases k with
  | greatest => exact hF y x h
  | _ => exact hF x y h

theorem Leads.and (h : k.Leads p q) (h' : k.Leads p' q') : k.Leads (p ∧ p') (q ∧ q') := by
  cases k with
  | greatest => exact And.imp h h'
  | _ => exact And.imp h h'

theorem Leads.or (h : k.Leads p q) (h' : k.Leads p' q') : k.Leads (p ∨ p') (q ∨ q') := by
  cases k with
  | greatest => exact Or.imp h h'
  | _ => exact Or.imp h h'

theorem Leads.iff {a b : Bool} (h : k.Leads p (a = true)) (hab : k.Below a b)
    (hb : b = true ↔ p) : p ↔ a = true := by
  cases k with
  | greatest =>
    have hle := below_greatest.mp hab
    exact ⟨fun hp => Bool.le_iff_imp.mp hle (hb.mpr hp), h⟩
  | _ =>
    have hle := (below_of_ne (by decide)).mp hab
    exact ⟨h, fun ha => hb.mp (Bool.le_iff_imp.mp hle ha)⟩

end BlockKind

namespace Graph

variable {pg : Graph} {c : List Nat} {ρ : Name → Set (List Nat)} {act : Name} {f : Formula}

/-! ### Modalities over configurations -/

theorem Moves.isCall_eq_false {st : Step} {τ : List Nat} (h : pg.Moves c st τ) :
    st.isCall = false := by
  induction h with
  | act _ _ hact => exact hact
  | call _ _ _ _ _ ih => exact ih

theorem Moves.hasAction_iff {st : Step} {τ : List Nat} (h : pg.Moves c st τ) :
    st.hasAction act = true ↔ Formula.SpeaksOf act st.action := by
  simp [Step.hasAction, h.isCall_eq_false, Formula.SpeaksOf]

theorem mem_denote_box : c ∈ denote pg.configurations ρ (.box act f) ↔
    ∀ st τ, pg.Moves c st τ → st.hasAction act = true → st.kind = .must →
      pg.settle τ ∈ denote pg.configurations ρ f := by
  constructor
  · intro h st τ hmove hact hmust
    exact h st.action _ (hmove.hasAction_iff.mp hact) ⟨st, τ, hmove, hmust, rfl, rfl⟩
  · rintro h b t hb ⟨st, τ, hmove, hmust, rfl, rfl⟩
    exact h st τ hmove (hmove.hasAction_iff.mpr hb) hmust

theorem mem_denote_dia : c ∈ denote pg.configurations ρ (.dia act f) ↔
    ∃ st τ, pg.Moves c st τ ∧ st.hasAction act = true ∧
      pg.settle τ ∈ denote pg.configurations ρ f := by
  constructor
  · rintro ⟨b, t, hb, ⟨st, τ, hmove, -, rfl, rfl⟩ | ⟨st, τ, hmove, -, rfl, rfl⟩, hmem⟩
    · exact ⟨st, τ, hmove, hmove.hasAction_iff.mpr hb, hmem⟩
    · exact ⟨st, τ, hmove, hmove.hasAction_iff.mpr hb, hmem⟩
  · rintro ⟨st, τ, hmove, hact, hmem⟩
    refine ⟨st.action, _, hmove.hasAction_iff.mp hact, ?_, hmem⟩
    by_cases hmust : st.kind = .must
    · exact .inl ⟨st, τ, hmove, hmust, rfl, rfl⟩
    · exact .inr ⟨st, τ, hmove, hmust, rfl, rfl⟩

/-! ### Meanings solve the equations -/

/-- Values that settling keeps and that solve the equations of an index, each block to its
extreme: from the seed on, they do not pass any values that settling keeps, that agree
with them in the later blocks, and of which each in the block solves its equation or is
as far from the seed as can be. -/
structure Solution (pg : Graph) (idx : Index) (T : List Nat → Bits) : Prop where
  settle_settle : ∀ c, pg.settle (pg.settle c) = pg.settle c
  settle : ∀ c i, i < idx.size → T (pg.settle c) i = T c i
  equation : ∀ (i : Nat) s, idx.subs[i]? = some s → ∀ c, pg.settle c = c → pg.Equation T s c
  extremal : ∀ (b : Nat) B, idx.blocks[b]? = some B → ∀ P : List Nat → Bits,
    (∀ c i, From idx.subs (b + 1) i → P c i = T c i) →
    (∀ c (i : Nat) s, idx.subs[i]? = some s → s.block = b → P (pg.settle c) i = P c i) →
    (∀ (i : Nat) s, idx.subs[i]? = some s → s.block = b →
      (∀ c, pg.settle c = c → pg.Equation P s c) ∨ ∀ c, P c i = !B.kind.seed) →
    ∀ c i, From idx.subs b i → B.kind.Below (T c i) (P c i)

/-- The values from number `a` on are true where the subformulas of `φ` hold. -/
def Means (pg : Graph) (P : List Nat → Bits) (ρ : Name → Set (List Nat)) (φ : Formula) (a : Nat) :
    Prop :=
  ∀ j < φ.size, ∀ c, P c (a + j) = true ↔ pg.settle c ∈ meaningAt pg.configurations ρ φ j

section Means

variable {P : List Nat → Bits} {φ g : Formula} {a : Nat} {x : Name} {k : BlockKind}

theorem Means.root (h : pg.Means P ρ φ a) (c : List Nat) :
    P c (a + φ.size - 1) = true ↔ pg.settle c ∈ denote pg.configurations ρ φ := by
  have hpos := Formula.size_pos φ
  rw [← meaningAt_root, Nat.add_sub_assoc hpos]
  exact h (φ.size - 1) (by omega) c

theorem Means.left (h : pg.Means P ρ φ a) (hφ : IsBinary f g φ) : pg.Means P ρ f a := by
  intro j hj c
  rw [← hφ.meaningAt_left hj]
  exact h j (by rw [hφ.size_eq]; omega) c

theorem Means.right (h : pg.Means P ρ φ a) (hφ : IsBinary f g φ) :
    pg.Means P ρ g (a + f.size) := by
  intro j hj c
  rw [← hφ.meaningAt_right hj, Nat.add_assoc]
  exact h (f.size + j) (by rw [hφ.size_eq]; omega) c

theorem Means.operand (h : pg.Means P ρ φ a) (hφ : IsModal act f φ) : pg.Means P ρ f a := by
  intro j hj c
  rw [← hφ.meaningAt_operand hj]
  exact h j (by rw [hφ.size_eq]; omega) c

theorem Means.body (h : pg.Means P ρ φ a) (hφ : IsBinder x f k φ) :
    pg.Means P (Function.update ρ x (denote pg.configurations ρ φ)) f a := by
  intro j hj c
  rw [← hφ.meaningAt_body hj]
  exact h j (by rw [hφ.size_eq]; omega) c

end Means

variable {n : Layout} {scopes : List Binding} {block inner a : Nat} {kind k : BlockKind}
  {φ : Formula} {x : Name}

/-! The equation of the formula itself, form by form. -/

section Root

variable {P : List Nat → Bits} (hP : pg.Means P ρ φ a) (hc : pg.settle c = c)
include hP hc

theorem Means.equation_leaf (hφ : IsLeaf φ) :
    pg.Equation P { node := φ, var := a, block, kind } c := by
  have hroot := hP.root c
  rw [hc, hφ.size_eq, Nat.add_sub_cancel] at hroot
  cases hφ with
  | tt => exact hroot.mpr trivial
  | ff => exact Bool.eq_false_iff.mpr fun h => hroot.mp h
  | atom p => exact hroot

theorem Means.equation_binary {g : Formula} (hφ : IsBinary f g φ) :
    pg.Equation P {
      node := φ, var := a + f.size + g.size, block, kind,
      left := some (a + f.size - 1), right := some (a + f.size + g.size - 1) } c := by
  have hroot := hP.root c
  have hl := (hP.left hφ).root c
  have hr := (hP.right hφ).root c
  rw [hc, hφ.size_eq, show a + (f.size + g.size + 1) - 1 = a + f.size + g.size by omega] at hroot
  rw [hc] at hl hr
  cases hφ with
  | and =>
    have hand := (hl.and hr).symm.trans Bool.and_eq_true_iff.symm
    exact Bool.eq_iff_iff.mpr (hroot.trans hand)
  | or =>
    have hor := (hl.or hr).symm.trans Bool.or_eq_true_iff.symm
    exact Bool.eq_iff_iff.mpr (hroot.trans hor)

theorem Means.equation_modal (hφ : IsModal act f φ) :
    pg.Equation P {
      node := φ, var := a + f.size, block, kind, left := some (a + f.size - 1) } c := by
  have hroot := hP.root c
  rw [hc, hφ.size_eq, ← Nat.add_assoc, Nat.add_sub_cancel] at hroot
  have hl := (hP.operand hφ).root
  cases hφ with
  | box =>
    rw [mem_denote_box] at hroot
    simp only [← hl] at hroot
    exact hroot
  | dia =>
    rw [mem_denote_dia] at hroot
    simp only [← hl] at hroot
    exact hroot

theorem Means.equation_binder (hφ : IsBinder x f k φ) (hf : Laid n scopes inner kind f a) :
    pg.Equation P {
      node := φ, var := a + f.size, block, kind := k, left := some (a + f.size - 1) } c := by
  have hroot := hP.root c
  have hbody := (hP.body hφ).root c
  rw [hc, hφ.size_eq, ← Nat.add_assoc, Nat.add_sub_cancel, hf.denote_binder hφ] at hroot
  rw [hc] at hbody
  have hiff := hroot.trans hbody.symm
  cases hφ <;> exact Bool.eq_iff_iff.mpr hiff

end Root

/-- Values that are true where the subformulas hold solve the equations of the block. -/
theorem equation_of_means {P : List Nat → Bits} (h : Laid n scopes block kind φ a)
    (hctx : Context n scopes block kind) (hP : pg.Means P ρ φ a)
    (hρ : ∀ y s, lookup scopes y = some s → s.block = block →
      ∀ c, P c s.binder = true ↔ pg.settle c ∈ ρ y)
    {i : Nat} {s : Subformula} (hle : a ≤ i) (hlt : i < a + φ.size) (hs : n.subs[i]? = some s)
    (hsb : s.block = block) (hc : pg.settle c = c) : pg.Equation P s c := by
  induction h generalizing ρ with
  | @leaf scopes block kind φ a hφ hsub =>
    obtain rfl : i = a := by rw [hφ.size_eq] at hlt; omega
    obtain rfl := Option.some.inj (hs.symm.trans hsub)
    exact hP.equation_leaf hc hφ
  | @literal scopes block kind p a hatom hsub =>
    simp only [Formula.size] at hlt
    obtain rfl | rfl : i = a ∨ i = a + 1 := by omega
    · obtain rfl := Option.some.inj (hs.symm.trans hatom)
      have hvalue := hP 0 (by simp [Formula.size]) c
      rw [hc] at hvalue
      exact hvalue
    · obtain rfl := Option.some.inj (hs.symm.trans hsub)
      have hroot := hP.root c
      rw [hc] at hroot
      exact hroot
  | @binary scopes block kind f g φ a hφ hf hg hsub ihf ihg =>
    rw [hφ.size_eq] at hlt
    by_cases h1 : i < a + f.size
    · exact ihf hctx (hP.left hφ) hρ hle h1 hsb
    by_cases h2 : i < a + f.size + g.size
    · exact ihg hctx (hP.right hφ) hρ (by omega) h2 hsb
    · obtain rfl : i = a + f.size + g.size := by omega
      obtain rfl := Option.some.inj (hs.symm.trans hsub)
      exact hP.equation_binary hc hφ
  | @modal scopes block kind act f φ a hφ hf hsub ih =>
    rw [hφ.size_eq] at hlt
    by_cases h1 : i < a + f.size
    · exact ih hctx (hP.operand hφ) hρ hle h1 hsb
    · obtain rfl : i = a + f.size := by omega
      obtain rfl := Option.some.inj (hs.symm.trans hsub)
      exact hP.equation_modal hc hφ
  | @binder scopes block kind k x f φ inner a hφ hopens hf hsub ih =>
    have hbinder := hP.root
    simp only [hφ.size_eq, ← Nat.add_assoc, Nat.add_sub_cancel] at hlt hbinder
    have hctx' : Context n (⟨x, inner, a + f.size⟩ :: scopes) inner k :=
      hctx.enter hopens hsub rfl
    by_cases h1 : i < a + f.size
    · -- a node of this block is inside the fixpoint only if that has opened no other one
      obtain rfl : inner = block := by
        have hle' := hctx'.le_block hf hle h1 hs
        have := hopens.le
        omega
      refine ih hctx' (hP.body hφ) (fun y sc hsc hscb c' => ?_) hle h1 hsb
      obtain ⟨rfl, rfl⟩ | ⟨hy, hsc⟩ := Index.lookup_cons hsc
      · rw [Function.update_self]
        exact hbinder c'
      · rw [Function.update_of_ne hy]
        exact hρ y sc hsc hscb c'
    · obtain rfl : i = a + f.size := by omega
      obtain rfl := Option.some.inj (hs.symm.trans hsub)
      exact hP.equation_binder hc hφ hf
  | @var scopes block kind x a sc hsc hblock hsub =>
    obtain rfl : i = a := by simp only [Formula.size] at hlt; omega
    obtain rfl := Option.some.inj (hs.symm.trans hsub)
    exact Bool.eq_iff_iff.mpr ((hP.root c).trans (hρ x sc hsc hblock c).symm)

/-! ### Solutions bound meanings -/

/-- What the variables of a block denote is bounded by the values of their binders. -/
def Bounded (pg : Graph) (T : List Nat → Bits) (scopes : List Binding) (block : Nat)
    (kind : BlockKind) (ρ : Name → Set (List Nat)) : Prop :=
  ∀ y s, lookup scopes y = some s → s.block = block →
    ∀ c, pg.settle c = c → kind.Leads (c ∈ ρ y) (T c s.binder = true)

/-- The values at number `i` bound the set `M` if the variables are bounded, and are true
exactly in `M` if the number belongs to another block. -/
def Near (pg : Graph) (n : Layout) (T : List Nat → Bits) (scopes : List Binding) (block : Nat)
    (kind : BlockKind) (ρ : Name → Set (List Nat)) (i : Nat) (M : Set (List Nat)) : Prop :=
  ∀ c, pg.settle c = c →
    (pg.Bounded T scopes block kind ρ → kind.Leads (c ∈ M) (T c i = true)) ∧
    ∀ s, n.subs[i]? = some s → s.block ≠ block → (c ∈ M ↔ T c i = true)

/-- The values from number `a` on are near the subformulas of `φ`. -/
def Approximates (pg : Graph) (n : Layout) (T : List Nat → Bits) (scopes : List Binding)
    (block : Nat) (kind : BlockKind) (φ : Formula) (a : Nat) : Prop :=
  ∀ ρ, ∀ j < φ.size,
    pg.Near n T scopes block kind ρ (a + j) (meaningAt pg.configurations ρ φ j)

variable {T : List Nat → Bits} {i : Nat} {s : Subformula} {M : Set (List Nat)}

theorem near_of_block (hs : n.subs[i]? = some s) (hsb : s.block = block)
    (h : pg.Bounded T scopes block kind ρ →
      ∀ c, pg.settle c = c → kind.Leads (c ∈ M) (T c i = true)) :
    pg.Near n T scopes block kind ρ i M := by
  refine fun c hc => ⟨fun hρ => h hρ c hc, fun t ht hne => ?_⟩
  obtain rfl : s = t := Option.some.inj (hs.symm.trans ht)
  exact absurd hsb hne

theorem near_of_iff (h : ∀ c, pg.settle c = c → (c ∈ M ↔ T c i = true)) :
    pg.Near n T scopes block kind ρ i M :=
  fun c hc => ⟨fun _ => .of_iff (h c hc), fun _ _ _ => h c hc⟩

theorem Approximates.root (h : pg.Approximates n T scopes block kind φ a)
    (hρ : pg.Bounded T scopes block kind ρ) (hc : pg.settle c = c) :
    kind.Leads (c ∈ denote pg.configurations ρ φ) (T c (a + φ.size - 1) = true) := by
  have hpos := Formula.size_pos φ
  rw [← meaningAt_root, Nat.add_sub_assoc hpos]
  exact (h ρ (φ.size - 1) (by omega) c hc).1 hρ

section Solution

variable (hT : pg.Solution n.index T)
include hT

theorem approximates_leaf (hφ : IsLeaf φ)
    (hsub : n.subs[a]? = some { node := φ, var := a, block, kind }) :
    pg.Approximates n T scopes block kind φ a := by
  intro ρ j hj
  obtain rfl : j = 0 := by rw [hφ.size_eq] at hj; omega
  refine near_of_iff fun c hc => ?_
  have hE := hT.equation a _ hsub c hc
  have hroot := meaningAt_root pg.configurations ρ φ
  rw [hφ.size_eq] at hroot
  rw [hroot]
  cases hφ with
  | tt => exact iff_of_true trivial hE
  | ff => exact iff_of_false id (Bool.eq_false_iff.mp hE)
  | atom p => exact hE.symm

theorem approximates_literal {p : Name}
    (hatom : n.subs[a]? = some { node := .atom p, var := a, block, kind })
    (hsub : n.subs[a + 1]? =
      some { node := .not (.atom p), var := a + 1, block, kind, left := some a }) :
    pg.Approximates n T scopes block kind (.not (.atom p)) a := by
  intro ρ j hj
  simp only [Formula.size] at hj
  obtain rfl | rfl : j = 0 ∨ j = 1 := by omega
  · exact near_of_iff fun c hc => (hT.equation a _ hatom c hc).symm
  · exact near_of_iff fun c hc => (hT.equation (a + 1) _ hsub c hc).symm

theorem approximates_binary {g : Formula} (hφ : IsBinary f g φ)
    (hsub : n.subs[a + f.size + g.size]? = some {
      node := φ, var := a + f.size + g.size, block, kind,
      left := some (a + f.size - 1), right := some (a + f.size + g.size - 1) })
    (hf : pg.Approximates n T scopes block kind f a)
    (hg : pg.Approximates n T scopes block kind g (a + f.size)) :
    pg.Approximates n T scopes block kind φ a := by
  intro ρ j hj
  rw [hφ.size_eq] at hj
  by_cases h1 : j < f.size
  · rw [hφ.meaningAt_left h1]
    exact hf ρ j h1
  obtain ⟨j, rfl⟩ := Nat.exists_eq_add_of_le (Nat.not_lt.mp h1)
  rw [← Nat.add_assoc]
  by_cases h2 : j < g.size
  · rw [hφ.meaningAt_right h2]
    exact hg ρ j h2
  · obtain rfl : j = g.size := by omega
    have hroot := meaningAt_root pg.configurations ρ φ
    rw [hφ.size_eq, Nat.add_sub_cancel] at hroot
    rw [hroot]
    refine near_of_block hsub rfl fun hρ c hc => ?_
    have hE := hT.equation _ _ hsub c hc
    have hl := hf.root hρ hc
    have hr := hg.root hρ hc
    cases hφ with
    | and =>
      rw [show T c (a + f.size + g.size) = _ from hE, Bool.and_eq_true]
      exact hl.and hr
    | or =>
      rw [show T c (a + f.size + g.size) = _ from hE, Bool.or_eq_true]
      exact hl.or hr

theorem approximates_modal (hφ : IsModal act f φ)
    (hsub : n.subs[a + f.size]? = some {
      node := φ, var := a + f.size, block, kind, left := some (a + f.size - 1) })
    (hf : pg.Approximates n T scopes block kind f a) :
    pg.Approximates n T scopes block kind φ a := by
  intro ρ j hj
  rw [hφ.size_eq] at hj
  by_cases h1 : j < f.size
  · rw [hφ.meaningAt_operand h1]
    exact hf ρ j h1
  obtain rfl : j = f.size := by omega
  have hroot := meaningAt_root pg.configurations ρ φ
  rw [hφ.size_eq, Nat.add_sub_cancel] at hroot
  rw [hroot]
  refine near_of_block hsub rfl fun hρ c hc => ?_
  have hE := hT.equation _ _ hsub c hc
  -- the steps of a configuration lead to settled ones
  have hlt : a + f.size - 1 < n.index.size := by
    have := (Array.getElem?_eq_some_iff.mp hsub).1
    exact Nat.lt_of_le_of_lt (Nat.sub_le _ _) this
  have hl (τ : List Nat) : kind.Leads (pg.settle τ ∈ denote pg.configurations ρ f)
      (T τ (a + f.size - 1) = true) := by
    rw [← hT.settle τ _ hlt]
    exact hf.root hρ (hT.settle_settle τ)
  cases hφ with
  | box =>
    rw [mem_denote_box, show T c (a + f.size) = true ↔ _ from hE]
    exact .map (F := fun x => ∀ st τ, pg.Moves c st τ → st.hasAction act = true →
      st.kind = .must → x τ)
      (fun x y hxy hx st τ hmove hact hmust => hxy τ (hx st τ hmove hact hmust)) hl
  | dia =>
    rw [mem_denote_dia, show T c (a + f.size) = true ↔ _ from hE]
    exact .map (F := fun x => ∃ st τ, pg.Moves c st τ ∧ st.hasAction act = true ∧ x τ)
      (fun x y hxy ⟨st, τ, hmove, hact, hx⟩ => ⟨st, τ, hmove, hact, hxy τ hx⟩) hl

/-- A fixpoint in its own block. Its binder's values are a set that the body maps into
itself, or that lies in its own image. -/
theorem approximates_binder (hφ : IsBinder x f k φ)
    (hsub : n.subs[a + f.size]? = some {
      node := φ, var := a + f.size, block, kind := k, left := some (a + f.size - 1) })
    (hf : pg.Approximates n T (⟨x, block, a + f.size⟩ :: scopes) block k f a) :
    pg.Approximates n T scopes block k φ a := by
  have hbounded {ρ : Name → Set (List Nat)} {Z : Set (List Nat)}
      (hρ : pg.Bounded T scopes block k ρ)
      (hZ : ∀ c, pg.settle c = c → k.Leads (c ∈ Z) (T c (a + f.size) = true)) :
      pg.Bounded T (⟨x, block, a + f.size⟩ :: scopes) block k (Function.update ρ x Z) := by
    intro y s hs hsb c hc
    obtain ⟨rfl, rfl⟩ | ⟨hy, hs⟩ := Index.lookup_cons hs
    · rw [Function.update_self]
      exact hZ c hc
    · rw [Function.update_of_ne hy]
      exact hρ y s hs hsb c hc
  have hE (c : List Nat) (hc : pg.settle c = c) : T c (a + f.size) = T c (a + f.size - 1) := by
    have := hT.equation _ _ hsub c hc
    cases hφ <;> exact this
  have hfix {ρ : Name → Set (List Nat)} (hρ : pg.Bounded T scopes block k ρ) (c : List Nat)
      (hc : pg.settle c = c) :
      k.Leads (c ∈ denote pg.configurations ρ φ) (T c (a + f.size) = true) := by
    cases hφ with
    | mu =>
      intro hmem
      refine hmem {c | pg.settle c = c → T c (a + f.size) = true} (fun c' hbody hc' => ?_) hc
      rw [hE c' hc']
      refine hf.root (hbounded hρ ?_) hc' hbody
      exact fun _ hset h => h hset
    | nu =>
      intro hval
      refine ⟨{c | pg.settle c = c ∧ T c (a + f.size) = true}, fun c' hc' => ?_, hc, hval⟩
      refine hf.root (hbounded hρ fun _ hset h => ⟨hset, h⟩) hc'.1 ?_
      rw [← hE c' hc'.1]
      exact hc'.2
  intro ρ j hj
  rw [hφ.size_eq] at hj
  by_cases h1 : j < f.size
  · rw [hφ.meaningAt_body h1]
    intro c hc
    obtain ⟨hleads, hiff⟩ := hf (Function.update ρ x (denote pg.configurations ρ φ)) j h1 c hc
    exact ⟨fun hρ => hleads (hbounded hρ (hfix hρ)), hiff⟩
  · obtain rfl : j = f.size := by omega
    have hroot := meaningAt_root pg.configurations ρ φ
    rw [hφ.size_eq, Nat.add_sub_cancel] at hroot
    rw [hroot]
    exact near_of_block hsub rfl hfix

theorem approximates_var {sc : Binding} (hsc : lookup scopes x = some sc)
    (hblock : sc.block = block)
    (hsub : n.subs[a]? = some {
      node := .var x, var := a, block, kind, binder := some sc.binder }) :
    pg.Approximates n T scopes block kind (.var x) a := by
  intro ρ j hj
  obtain rfl : j = 0 := by simp only [Formula.size] at hj; omega
  refine near_of_block hsub rfl fun hρ c hc => ?_
  rw [show T c (a + 0) = _ from hT.equation a _ hsub c hc]
  exact hρ x sc hsc hblock c hc

end Solution

/-! ### Solutions are exact -/

open Classical in
/-- The meanings of the subformulas of `φ`, and otherwise the values `T`, except that
numbers of the same block get the value their equations never pass. -/
noncomputable def meanings (pg : Graph) (n : Layout) (T : List Nat → Bits) (block : Nat)
    (kind : BlockKind) (ρ : Name → Set (List Nat)) (φ : Formula) (a : Nat) : List Nat → Bits :=
  fun c i =>
    if a ≤ i ∧ i < a + φ.size then decide (pg.settle c ∈ meaningAt pg.configurations ρ φ (i - a))
    else if ∃ s, n.subs[i]? = some s ∧ s.block = block then !kind.seed
    else T c i

open Classical in
theorem means_meanings : pg.Means (pg.meanings n T block kind ρ φ a) ρ φ a := by
  intro j hj c
  rw [meanings, if_pos ⟨Nat.le_add_right a j, by omega⟩, Nat.add_sub_cancel_left,
    decide_eq_true_iff]

section Solution

variable (hT : pg.Solution n.index T)
include hT

/-- In a block that none of the variables around belong to, the values are true exactly
where the subformulas hold. -/
theorem exact_of_approximates (hctx : Context n scopes block kind)
    (h : Laid n scopes block kind φ a) (hfree : ∀ s ∈ scopes, s.block ≠ block)
    (happrox : pg.Approximates n T scopes block kind φ a) (ρ : Name → Set (List Nat)) {j : Nat}
    (hj : j < φ.size) (hc : pg.settle c = c) :
    c ∈ meaningAt pg.configurations ρ φ j ↔ T c (a + j) = true := by
  obtain ⟨parent, hhead⟩ := hctx.head
  have hno {y : Name} {s : Binding} (hs : lookup scopes y = some s) : s.block ≠ block :=
    hfree s (List.mem_of_find?_eq_some hs)
  have hmeans : pg.Means (pg.meanings n T block kind ρ φ a) ρ φ a := means_meanings
  have hlater (c : List Nat) (i : Nat) (hi : From n.subs (block + 1) i) :
      pg.meanings n T block kind ρ φ a c i = T c i := by
    obtain ⟨s, hs, hlt⟩ := hi
    by_cases hi : a ≤ i ∧ i < a + φ.size
    · obtain ⟨j, rfl⟩ := Nat.exists_eq_add_of_le hi.1
      have hj : j < φ.size := by omega
      have hiff := (happrox ρ j hj _ (hT.settle_settle c)).2 s hs (by omega)
      rw [hT.settle c _ (Array.getElem?_eq_some_iff.mp hs).1] at hiff
      exact Bool.eq_iff_iff.mpr ((hmeans j hj c).trans hiff)
    · rw [meanings, if_neg hi, if_neg]
      rintro ⟨t, ht, htb⟩
      obtain rfl : s = t := Option.some.inj (hs.symm.trans ht)
      omega
  have hsettle (c : List Nat) (i : Nat) (s : Subformula) (hs : n.subs[i]? = some s)
      (hsb : s.block = block) : pg.meanings n T block kind ρ φ a (pg.settle c) i =
        pg.meanings n T block kind ρ φ a c i := by
    by_cases hi : a ≤ i ∧ i < a + φ.size
    · rw [meanings, meanings, if_pos hi, if_pos hi, hT.settle_settle]
    · rw [meanings, meanings, if_neg hi, if_neg hi, if_pos ⟨s, hs, hsb⟩, if_pos ⟨s, hs, hsb⟩]
  have heq (i : Nat) (s : Subformula) (hs : n.subs[i]? = some s) (hsb : s.block = block) :
      (∀ c, pg.settle c = c → pg.Equation (pg.meanings n T block kind ρ φ a) s c) ∨
        ∀ c, pg.meanings n T block kind ρ φ a c i = !kind.seed := by
    by_cases hi : a ≤ i ∧ i < a + φ.size
    · refine .inl fun c hc => equation_of_means h hctx hmeans ?_ hi.1 hi.2 hs hsb hc
      exact fun y sc hsc hscb => absurd hscb (hno hsc)
    · exact .inr fun c => by rw [meanings, if_neg hi, if_pos ⟨s, hs, hsb⟩]
  have hbelow := hT.extremal block
    { number := block, kind, parent, vars := Index.members n.subs block }
    (Index.blocks_index.mpr ⟨_, hhead, rfl⟩) (pg.meanings n T block kind ρ φ a) hlater hsettle heq
  obtain ⟨s, hs⟩ := h.placed (Array.getElem?_eq_some_iff.mp hhead).1 hctx.scopes
    (Nat.le_add_right a j) (Nat.add_lt_add_left hj a)
  obtain ⟨hleads, hiff⟩ := happrox ρ j hj c hc
  by_cases hsb : s.block = block
  · refine (hleads fun y sc hsc hscb => absurd hscb (hno hsc)).iff
      (hbelow c (a + j) ⟨s, hs.sub, hs.le_block⟩) ?_
    rw [hmeans j hj c, hc]
  · exact hiff s hs.sub hsb

theorem approximates_of_laid (hctx : Context n scopes block kind)
    (h : Laid n scopes block kind φ a) : pg.Approximates n T scopes block kind φ a := by
  induction h with
  | leaf hφ hsub => exact approximates_leaf hT hφ hsub
  | literal hatom hsub => exact approximates_literal hT hatom hsub
  | binary hφ _ _ hsub ihf ihg => exact approximates_binary hT hφ hsub (ihf hctx) (ihg hctx)
  | modal hφ _ hsub ih => exact approximates_modal hT hφ hsub (ih hctx)
  | binder hφ hopens hf hsub ih =>
    have hbody := approximates_binder hT hφ hsub (ih (hctx.enter hopens hsub rfl))
    cases hopens with
    | same hk => exact hk ▸ hbody
    | new hk hlt hscopes hhead =>
      -- seen from its own block, the fixpoint is in a block that was just opened
      have hctx' : Context n _ _ _ := ⟨⟨_, hhead⟩, hctx.scopes⟩
      have hlaid := Laid.binder hφ (.same rfl) hf hsub
      refine fun ρ j hj => near_of_iff fun c hc => ?_
      exact exact_of_approximates hT hctx' hlaid (fun s hs => Nat.ne_of_lt (hscopes s hs)) hbody
        ρ hj hc
  | var hsc hblock hsub => exact approximates_var hT hsc hblock hsub

/-- The values of a solution are true exactly where the subformulas of a numbered formula
hold. -/
theorem means_of_laid (hhead : n.heads[0]? = some (.plain, none)) (h : Laid n [] 0 .plain φ 0)
    (hsize : φ.size ≤ n.subs.size) (ρ : Name → Set (List Nat)) : pg.Means T ρ φ 0 := by
  have hctx : Context n [] 0 .plain := ⟨⟨_, hhead⟩, by simp⟩
  intro j hj c
  rw [← hT.settle c (0 + j) (by rw [Nat.zero_add]; exact Nat.lt_of_lt_of_le hj hsize)]
  exact (exact_of_approximates hT hctx h (by simp) (approximates_of_laid hT hctx h) ρ hj
    (hT.settle_settle c)).symm

end Solution

end Graph

end MuProc
