import MuProc.Process.Graph
import MuProc.Proofs.Denotation

/-!
# Configurations of a state graph

A configuration is a state on top of the states to return to. Calls make the stack
grow without bound, so a state graph stands for an infinite transition system. This
module says what the configurations of a graph do, without regard to how formulas
are checked, and what the subformulas of a formula mean where they stand.
-/

namespace MuProc

namespace Graph

/-- For a rule position whose only step is a call: the entry of the callee, and the
state in which the caller goes on. -/
def onlyCall? (g : Graph) (v : Nat) : Option (Nat × Nat) :=
  match g.states[v]?, g.out[v]? with
  | some s, some [e] =>
    if s.place = .position ∧ e.step.isCall then (g.entry? e.step.call).map (·, e.target) else none
  | _, _ => none

/-- The configuration that a stack stands for: exits are popped, and a position whose
only step is a call is unfolded into the callee. A number that is no state stands for
a terminated process. -/
def settle (g : Graph) : List Nat → List Nat
  | [] => []
  | v :: σ =>
    match g.states[v]? with
    | none => []
    | some s =>
      if s.place = .exit then settle g σ
      else
        match g.onlyCall? v with
        | some (u, t) => u :: t :: σ
        | none => v :: σ

/-- The steps of a stack. An action leads to its target; a call offers the steps of the
callee on top of where the caller goes on. -/
inductive Moves (g : Graph) : List Nat → Step → List Nat → Prop
  | act {v σ es e} (hes : g.out[v]? = some es) (he : e ∈ es) (hact : e.step.isCall = false) :
      Moves g (v :: σ) e.step (e.target :: σ)
  | call {v σ es e u s τ} (hes : g.out[v]? = some es) (he : e ∈ es)
      (hcall : e.step.isCall = true) (hu : g.entry? e.step.call = some u)
      (hs : Moves g (u :: e.target :: σ) s τ) : Moves g (v :: σ) s τ

/-- The configurations of a graph as a modal transition system. The state on top gives the
propositions; steps lead to settled configurations. -/
def configurations (g : Graph) : ModalSystem (List Nat) where
  holds c p := ∃ v σ s, c = v :: σ ∧ g.states[v]? = some s ∧ s.hasProp p = true
  must c a c' := ∃ s τ, g.Moves c s τ ∧ s.kind = .must ∧ s.action = a ∧ c' = g.settle τ
  may c a c' := ∃ s τ, g.Moves c s τ ∧ s.kind ≠ .must ∧ s.action = a ∧ c' = g.settle τ

end Graph

namespace Formula

variable {S : Type}

/-- The subformulas of a formula in the order of their numbers, each with the sets that
its variables denote where it stands: a bound variable denotes its fixpoint. -/
def occurrences (L : ModalSystem S) : (ρ : Name → Set S) → Formula →
    List (Formula × (Name → Set S))
  | ρ, .not f => occurrences L ρ f ++ [(.not f, ρ)]
  | ρ, .and f g => occurrences L ρ f ++ occurrences L ρ g ++ [(.and f g, ρ)]
  | ρ, .or f g => occurrences L ρ f ++ occurrences L ρ g ++ [(.or f g, ρ)]
  | ρ, .box a f => occurrences L ρ f ++ [(.box a f, ρ)]
  | ρ, .dia a f => occurrences L ρ f ++ [(.dia a f, ρ)]
  | ρ, .mu x f => occurrences L (Function.update ρ x (denote L ρ (.mu x f))) f ++ [(.mu x f, ρ)]
  | ρ, .nu x f => occurrences L (Function.update ρ x (denote L ρ (.nu x f))) f ++ [(.nu x f, ρ)]
  | ρ, f => [(f, ρ)]

theorem length_occurrences (L : ModalSystem S) (ρ : Name → Set S) (f : Formula) :
    (occurrences L ρ f).length = f.size := by
  induction f generalizing ρ <;> simp_all [occurrences, size, Nat.add_assoc]

end Formula

end MuProc
