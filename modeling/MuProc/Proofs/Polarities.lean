import MuProc.Formula.Normal
import Mathlib.Algebra.Group.Nat.Even
import Mathlib.Algebra.Ring.Parity
import Mathlib.Logic.Function.Iterate

/-!
# Polarities in normal forms

Normalizing twice is normalizing once with the polarities combined: a negation above a normal
form and one below the first pass have the same effect. In a normal form negations stand above
propositions and variables only, and a variable has kept one exactly if an odd number of
negations stood between it and its binder. Variables are followed from the formula to its normal
form by their place, that is the operands on the way to them; negations take no operand.
-/

namespace MuProc.Formula

/-! ### Two passes -/

theorem Polarity.bind_xor (d₁ d₂ : Polarity) (x : Name) (n₁ n₂ : Bool) :
    (fun y => (d₁.bind x n₁ y ^^ d₂.bind x n₂ y)) =
      Polarity.bind (fun y => (d₁ y ^^ d₂ y)) x (n₁ ^^ n₂) := by
  funext y
  by_cases hy : y = x
  · simp [bind, hy]
  · simp [bind, hy]

/-- Two passes one after the other have the combined polarities of both. -/
theorem normalWith_normalWith (d₁ d₂ : Polarity) (n₁ n₂ : Bool) (f : Formula) :
    normalWith d₂ n₂ (normalWith d₁ n₁ f) = normalWith (fun x => (d₁ x ^^ d₂ x)) (n₁ ^^ n₂) f := by
  induction f generalizing d₁ d₂ n₁ n₂ with
  | tt => cases n₁ <;> cases n₂ <;> rfl
  | ff => cases n₁ <;> cases n₂ <;> rfl
  | atom p => cases n₁ <;> cases n₂ <;> rfl
  | not f ih => simp only [normalWith, ih, Bool.not_xor]
  | and f g ihf ihg => cases n₁ <;> cases n₂ <;> simp [normalWith, ihf, ihg]
  | or f g ihf ihg => cases n₁ <;> cases n₂ <;> simp [normalWith, ihf, ihg]
  | box a f ih => cases n₁ <;> cases n₂ <;> simp [normalWith, ih]
  | dia a f ih => cases n₁ <;> cases n₂ <;> simp [normalWith, ih]
  | mu x f ih =>
    cases n₁ <;> cases n₂ <;> simp [normalWith, ih, Polarity.bind_xor]
  | nu x f ih =>
    cases n₁ <;> cases n₂ <;> simp [normalWith, ih, Polarity.bind_xor]
  | var x =>
    -- the first pass leaves a negation that the second one counts
    cases hd₁ : d₁ x <;> cases hd₂ : d₂ x <;> cases n₁ <;> cases n₂ <;>
      simp [normalWith, hd₁, hd₂]

theorem normalWith_iterate_not (dual : Polarity) (neg : Bool) (f : Formula) (k : Nat) :
    normalWith dual neg (not^[k] f) = normalWith dual (neg ^^ decide (Odd k)) f := by
  induction k generalizing neg with
  | zero => simp
  | succ k ih =>
    rw [Function.iterate_succ_apply', normalWith, ih]
    by_cases hk : Odd k <;> simp [Nat.odd_add_one, hk]

/-! ### Where negations stand -/

theorem not_mem_nodes_normalWith {dual : Polarity} {neg : Bool} {f g : Formula}
    (h : .not g ∈ (normalWith dual neg f).nodes) : (∃ p, g = .atom p) ∨ ∃ x, g = .var x := by
  induction f generalizing dual neg with
  | tt => cases neg <;> simp [normalWith, nodes] at h
  | ff => cases neg <;> simp [normalWith, nodes] at h
  | atom p =>
    cases neg with
    | false => simp [normalWith, nodes] at h
    | true => exact .inl ⟨p, by simpa [normalWith, nodes] using h⟩
  | not f ih => exact ih h
  | and f₁ f₂ ih₁ ih₂ =>
    have hop : .not g ∈ (normalWith dual neg f₁).nodes ∨
        .not g ∈ (normalWith dual neg f₂).nodes := by
      cases neg <;> simpa [normalWith, nodes] using h
    exact hop.elim ih₁ ih₂
  | or f₁ f₂ ih₁ ih₂ =>
    have hop : .not g ∈ (normalWith dual neg f₁).nodes ∨
        .not g ∈ (normalWith dual neg f₂).nodes := by
      cases neg <;> simpa [normalWith, nodes] using h
    exact hop.elim ih₁ ih₂
  | box a f ih => cases neg <;> exact ih (by simpa [normalWith, nodes] using h)
  | dia a f ih => cases neg <;> exact ih (by simpa [normalWith, nodes] using h)
  | mu x f ih => cases neg <;> exact ih (by simpa [normalWith, nodes] using h)
  | nu x f ih => cases neg <;> exact ih (by simpa [normalWith, nodes] using h)
  | var x =>
    by_cases hx : neg = dual x
    · simp [normalWith, hx, nodes] at h
    · exact .inr ⟨x, by simpa [normalWith, hx, nodes] using h⟩

/-! ### Variables -/

/-- The operand that is taken at a node. -/
inductive Turn where
  | left
  | right
  | only
deriving DecidableEq, Repr

/-- A variable where it stands in a formula. -/
structure Use where
  /-- The operands on the way to it, the last one first; negations do not count. -/
  place : List Turn
  name : Name
  /-- The negations between it and the fixpoint that binds it, or the root if it is free. -/
  negations : Nat
  /-- Whether a negation stands directly above it. -/
  negated : Bool
deriving DecidableEq, Repr

/-- The variables of a formula from left to right. The formula stands at the given place, below
a negation or not, and `passed` negations lie between it and the binder of each variable. -/
def usesFrom : (place : List Turn) → (passed : Name → Nat) → (below : Bool) → Formula →
    List Use
  | place, passed, _, .not f => f.usesFrom place (fun x => passed x + 1) true
  | place, passed, _, .and f g | place, passed, _, .or f g =>
    f.usesFrom (.left :: place) passed false ++ g.usesFrom (.right :: place) passed false
  | place, passed, _, .box _ f | place, passed, _, .dia _ f =>
    f.usesFrom (.only :: place) passed false
  | place, passed, _, .mu x f | place, passed, _, .nu x f =>
    f.usesFrom (.only :: place) (Function.update passed x 0) false
  | place, passed, below, .var x => [⟨place, x, passed x, below⟩]
  | _, _, _, _ => []

def uses (f : Formula) : List Use :=
  f.usesFrom [] (fun _ => 0) false

/-- A variable with its negations cancelled in pairs: one is left above it, or none. -/
def Use.reduced (o : Use) : Use :=
  { o with negations := o.negations % 2, negated := Odd o.negations }

theorem usesFrom_normalWith {dual : Polarity} {neg : Bool} {passed : Name → Nat}
    (f : Formula) (h : ∀ x, Odd (passed x) ↔ neg ≠ dual x) (place : List Turn) (below : Bool) :
    (normalWith dual neg f).usesFrom place (fun _ => 0) false =
      (f.usesFrom place passed below).map Use.reduced := by
  -- inside a fixpoint its variable has passed no negation and has the polarity of the fixpoint
  have hbind {dual : Polarity} {neg : Bool} {passed : Name → Nat} (x : Name)
      (h : ∀ x, Odd (passed x) ↔ neg ≠ dual x) (y : Name) :
      Odd (Function.update passed x 0 y) ↔ neg ≠ dual.bind x neg y := by
    by_cases hy : y = x
    · simp [hy, Polarity.bind]
    · simpa [hy, Polarity.bind] using h y
  have hzero (x : Name) : Function.update (fun _ : Name => 0) x 0 = fun _ => 0 :=
    Function.update_eq_self x _
  induction f generalizing dual neg passed place below with
  | tt => cases neg <;> rfl
  | ff => cases neg <;> rfl
  | atom p => cases neg <;> rfl
  | not f ih =>
    refine ih (fun x => ?_) place true
    rw [Nat.odd_add_one, h x]
    cases neg <;> simp
  | and f g ihf ihg =>
    cases neg <;> simp [normalWith, usesFrom, ihf h _ false, ihg h _ false]
  | or f g ihf ihg =>
    cases neg <;> simp [normalWith, usesFrom, ihf h _ false, ihg h _ false]
  | box a f ih => cases neg <;> simp [normalWith, usesFrom, ih h _ false]
  | dia a f ih => cases neg <;> simp [normalWith, usesFrom, ih h _ false]
  | mu x f ih =>
    have hbody := ih (hbind x h) (.only :: place) false
    cases neg <;> simpa [normalWith, usesFrom, hzero] using hbody
  | nu x f ih =>
    have hbody := ih (hbind x h) (.only :: place) false
    cases neg <;> simpa [normalWith, usesFrom, hzero] using hbody
  | var x =>
    by_cases hx : neg = dual x
    · have heven : ¬ Odd (passed x) := by simp [h x, hx]
      have hmod : passed x % 2 = 0 := Nat.even_iff.mp (Nat.not_odd_iff_even.mp heven)
      simp [normalWith, hx, usesFrom, Use.reduced, heven, hmod]
    · have hodd : Odd (passed x) := (h x).mpr hx
      have hmod : passed x % 2 = 1 := Nat.odd_iff.mp hodd
      simp [normalWith, hx, usesFrom, Use.reduced, hodd, hmod]

/-- Normal forms of negations compose like the numbers of negations; so the normal form is
idempotent, and normalizing the negation twice gives it too. Negations stand in it above
propositions and variables only. Its variables are those of the formula at the same places, and
one of them is negated exactly if an odd number of negations lies between it and its binder. -/
theorem normal_polarity (f : Formula) :
    (∀ a b, normal (not^[b] (normal (not^[a] f))) = normal (not^[a + b] f)) ∧
    (f.normal.normal = f.normal ∧ normal (.not (normal (.not f))) = f.normal) ∧
    (∀ g, .not g ∈ f.normal.nodes → (∃ p, g = .atom p) ∨ ∃ x, g = .var x) ∧
    f.normal.uses = f.uses.map Use.reduced := by
  have hcompose (a b : Nat) : normal (not^[b] (normal (not^[a] f))) = normal (not^[a + b] f) := by
    simp only [normal, normalWith_iterate_not, normalWith_normalWith, Bool.xor_self, Bool.false_xor]
    have hparity : (decide (Odd a) ^^ decide (Odd b)) = decide (Odd (a + b)) := by
      by_cases ha : Odd a <;> by_cases hb : Odd b <;>
        simp [Nat.odd_add, ← Nat.not_odd_iff_even, ha, hb]
    rw [hparity]
  refine ⟨hcompose, ⟨hcompose 0 0, hcompose 1 1⟩, fun g hg => not_mem_nodes_normalWith hg, ?_⟩
  exact usesFrom_normalWith f (by simp) [] false

-- the inner fixpoint hides the outer one, whose polarity differs
example : uses (.not (.mu "X" (.or (.not (.var "X")) (.nu "X" (.not (.not (.var "X"))))))) =
    [⟨[.left, .only], "X", 1, true⟩, ⟨[.only, .right, .only], "X", 2, true⟩] := by
  decide

end MuProc.Formula
