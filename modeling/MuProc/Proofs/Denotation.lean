import MuProc.Formula.Basic
import MuProc.Text.ByteString
import Mathlib.Data.Set.Lattice

/-!
# The meaning of formulas

A formula denotes a set of states of a modal transition system, whose steps are
guaranteed or only possible. A box speaks about the guaranteed steps, a diamond
about all of them. A least fixpoint is the intersection of the sets that its body
maps into themselves, a greatest fixpoint the union of the sets that lie in their
own image; neither needs the body to be monotone.
-/

namespace MuProc

/-- States with propositions, and steps that are guaranteed (`must`) or only
possible (`may`). -/
structure ModalSystem (S : Type) where
  holds : S → Name → Prop
  must : S → Name → S → Prop
  may : S → Name → S → Prop

/-- A labelled transition system with a single transition relation. -/
structure LabelledSystem (S : Type) where
  holds : S → Name → Prop
  step : S → Name → S → Prop

/-- A labelled system as a modal one: every step is guaranteed. -/
def LabelledSystem.modal {S : Type} (L : LabelledSystem S) : ModalSystem S where
  holds := L.holds
  must := L.step
  may _ _ _ := False

@[simp] theorem LabelledSystem.modal_must {S : Type} (L : LabelledSystem S) :
    L.modal.must = L.step := rfl

@[simp] theorem LabelledSystem.modal_may {S : Type} (L : LabelledSystem S) (s : S) (a : Name)
    (t : S) : ¬ L.modal.may s a t := id

namespace Formula

variable {S : Type}

/-- Whether a modality with label `a` speaks about action `b`. -/
def SpeaksOf (a b : Name) : Prop :=
  a = "" ∨ a = b

/-- The set of states that satisfy a formula, where the free variables denote the
sets that `ρ` gives them. -/
def denote (L : ModalSystem S) : (ρ : Name → Set S) → Formula → Set S
  | _, .tt => Set.univ
  | _, .ff => ∅
  | _, .atom p => {s | L.holds s p}
  | ρ, .not f => (denote L ρ f)ᶜ
  | ρ, .and f g => denote L ρ f ∩ denote L ρ g
  | ρ, .or f g => denote L ρ f ∪ denote L ρ g
  | ρ, .box a f => {s | ∀ b t, SpeaksOf a b → L.must s b t → t ∈ denote L ρ f}
  | ρ, .dia a f => {s | ∃ b t, SpeaksOf a b ∧ (L.must s b t ∨ L.may s b t) ∧ t ∈ denote L ρ f}
  | ρ, .mu x f => ⋂₀ {Z | denote L (Function.update ρ x Z) f ⊆ Z}
  | ρ, .nu x f => ⋃₀ {Z | Z ⊆ denote L (Function.update ρ x Z) f}
  | ρ, .var x => ρ x

end Formula

end MuProc
