import MuProc.Formula.Normal
import MuProc.Proofs.Alternation

/-!
# Formulas of branching time

Formulas in which fixpoints are written through the path operators only. Negations may stand
anywhere among the operators, and so may operands with fixpoints of either kind. The normal
form of such a formula can always be numbered: the variable of an operator is used in the body
of its own fixpoint alone, never below an operand, and with the polarity of that fixpoint.
-/

namespace MuProc

/-- A formula of branching time. It writes neither fixpoints nor variables. -/
inductive PathFormula where
  | tt
  | ff
  | atom (p : Name)
  | not (c : PathFormula)
  | and (c d : PathFormula)
  | or (c d : PathFormula)
  | implies (c d : PathFormula)
  | box (a : Name) (c : PathFormula)
  | dia (a : Name) (c : PathFormula)
  | ax (c : PathFormula)
  | ex (c : PathFormula)
  | af (c : PathFormula)
  | ef (c : PathFormula)
  | ag (c : PathFormula)
  | eg (c : PathFormula)
  | au (c d : PathFormula)
  | eu (c d : PathFormula)
  | aw (c d : PathFormula)
  | ew (c d : PathFormula)
deriving DecidableEq, Repr

def PathFormula.formula : PathFormula → Formula
  | .tt => .tt
  | .ff => .ff
  | .atom p => .atom p
  | .not c => .not c.formula
  | .and c d => .and c.formula d.formula
  | .or c d => .or c.formula d.formula
  | .implies c d => .implies c.formula d.formula
  | .box a c => .box a c.formula
  | .dia a c => .dia a c.formula
  | .ax c => .ax c.formula
  | .ex c => .ex c.formula
  | .af c => .af c.formula
  | .ef c => .ef c.formula
  | .ag c => .ag c.formula
  | .eg c => .eg c.formula
  | .au c d => .au c.formula d.formula
  | .eu c d => .eu c.formula d.formula
  | .aw c d => .aw c.formula d.formula
  | .ew c d => .ew c.formula d.formula

namespace Formula

/-! ### Formulas whose normal forms fit anywhere -/

/-- The normal form can be numbered with either polarity and in every block, as long as the
variables `X` can be used there and have the polarity of the formula. -/
def Portable (X : Set Name) (f : Formula) : Prop :=
  ∀ dual neg V k, (∀ x ∈ X, dual x = neg ∧ x ∈ V) → (normalWith dual neg f).Numberable V k

variable {X Y : Set Name} {f g : Formula} {x : Name}

theorem Portable.mono (h : f.Portable X) (hXY : X ⊆ Y) : f.Portable Y := by
  intro dual neg V k hY
  exact h dual neg V k fun x hx => hY x (hXY hx)

theorem portable_tt : Portable X .tt := by
  intro dual neg V k _
  cases neg <;> trivial

theorem portable_ff : Portable X .ff := by
  intro dual neg V k _
  cases neg <;> trivial

theorem portable_atom (p : Name) : Portable X (.atom p) := by
  intro dual neg V k _
  cases neg with
  | false => trivial
  | true => exact ⟨p, rfl⟩

theorem portable_var (hx : x ∈ X) : Portable X (.var x) := by
  intro dual neg V k hX
  obtain ⟨hpol, hmem⟩ := hX x hx
  rw [normalWith, if_pos hpol.symm]
  exact hmem

/-- A negation turns the polarity round, so below it no variable can be relied on. -/
theorem Portable.not (h : f.Portable ∅) : Portable ∅ (.not f) := by
  intro dual neg V k _
  exact h dual (!neg) V k (by simp)

theorem Portable.and (hf : f.Portable X) (hg : g.Portable X) : Portable X (.and f g) := by
  intro dual neg V k hX
  cases neg <;> exact ⟨hf dual _ V k hX, hg dual _ V k hX⟩

theorem Portable.or (hf : f.Portable X) (hg : g.Portable X) : Portable X (.or f g) := by
  intro dual neg V k hX
  cases neg <;> exact ⟨hf dual _ V k hX, hg dual _ V k hX⟩

theorem Portable.box (h : f.Portable X) (a : Name) : Portable X (.box a f) := by
  intro dual neg V k hX
  cases neg <;> exact h dual _ V k hX

theorem Portable.dia (h : f.Portable X) (a : Name) : Portable X (.dia a f) := by
  intro dual neg V k hX
  cases neg <;> exact h dual _ V k hX

/-! A fixpoint may open a block of its own kind, whichever that becomes under the polarity. Its
variable belongs to that block; the variables from outside may not. -/

theorem bind_self (dual : Polarity) (neg : Bool) (V : Set Name) (k k' : BlockKind) :
    ∀ y ∈ ({x} : Set Name), dual.bind x neg y = neg ∧ y ∈ scopeOf V k k' x := by
  intro y hy
  obtain rfl := Set.mem_singleton_iff.mp hy
  exact ⟨if_pos rfl, .inl rfl⟩

theorem Portable.mu (h : f.Portable {x}) : Portable X (.mu x f) := by
  intro dual neg V k _
  cases neg <;> exact h _ _ _ _ (bind_self dual _ V k _)

theorem Portable.nu (h : f.Portable {x}) : Portable X (.nu x f) := by
  intro dual neg V k _
  cases neg <;> exact h _ _ _ _ (bind_self dual _ V k _)

/-! ### The operators -/

theorem portable_progress (hx : x ∈ X) : (progress x).Portable X :=
  ((portable_var hx).box "").and (portable_tt.dia "")

theorem portable_continues (hx : x ∈ X) : (continues x).Portable X :=
  ((portable_var hx).dia "").or (portable_ff.box "")

theorem portable_formula (c : PathFormula) : c.formula.Portable ∅ := by
  have hself (x : Name) : x ∈ ({x} : Set Name) := Set.mem_singleton x
  have hbody {f : Formula} (h : f.Portable ∅) (x : Name) : f.Portable {x} :=
    h.mono (Set.empty_subset _)
  induction c with
  | tt => exact portable_tt
  | ff => exact portable_ff
  | atom p => exact portable_atom p
  | not c ih => exact ih.not
  | and c d ihc ihd => exact ihc.and ihd
  | or c d ihc ihd => exact ihc.or ihd
  | implies c d ihc ihd => exact ihc.not.or ihd
  | box a c ih => exact ih.box a
  | dia a c ih => exact ih.dia a
  | ax c ih => exact ih.box ""
  | ex c ih => exact ih.dia ""
  | af c ih => exact ((hbody ih _).or (portable_progress (hself _))).mu
  | ef c ih => exact ((hbody ih _).or ((portable_var (hself _)).dia "")).mu
  | ag c ih => exact ((hbody ih _).and ((portable_var (hself _)).box "")).nu
  | eg c ih => exact ((hbody ih _).and (portable_continues (hself _))).nu
  | au c d ihc ihd =>
    exact ((hbody ihd _).or ((hbody ihc _).and (portable_progress (hself _)))).mu
  | eu c d ihc ihd =>
    exact ((hbody ihd _).or ((hbody ihc _).and ((portable_var (hself _)).dia ""))).mu
  | aw c d ihc ihd =>
    exact ((hbody ihd _).or ((hbody ihc _).and ((portable_var (hself _)).box ""))).nu
  | ew c d ihc ihd =>
    exact ((hbody ihd _).or ((hbody ihc _).and (portable_continues (hself _)))).nu

end Formula

/-- The normal form of a formula of branching time is numbered: its variables are bound, it
negates propositions only and its fixpoints do not alternate. -/
theorem PathFormula.normal_numbered (c : PathFormula) :
    (∃ idx, Index.ofFormula c.formula.normal = .ok idx ∧ idx.size = c.formula.normal.size) ∧
    c.formula.normal.Bound ∧ c.formula.normal.PositiveNormal ∧
    c.formula.normal.AlternationFree := by
  have hnum : c.formula.normal.Numberable ∅ .plain :=
    Formula.portable_formula c _ _ _ _ (by simp)
  obtain ⟨idx, hidx⟩ := Index.ofFormula_isOk_iff.mpr hnum
  exact ⟨⟨idx, hidx, Index.size_of_ofFormula hidx⟩, Formula.numberable_iff_conditions.mp hnum⟩

end MuProc
