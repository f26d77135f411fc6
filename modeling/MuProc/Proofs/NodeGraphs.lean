import MuProc.Transformer.Package
import Mathlib.Order.Basic
import Mathlib.Tactic.Common

/-!
# Ordered and reduced diagrams

Nodes that ask for variables in the order of their levels, none of them superfluous and
none repeated. In such a graph two nodes with the same values are the same node, and in
two graphs nodes with the same values ask for the same variable first.
-/

namespace MuProc

def Vertex.next {ν : Type} (v : Vertex ν) (b : Bool) : ν :=
  if b then v.high else v.low

/-- The diagrams of functions of `n` variables, with nodes in common. The last three
fields fix the values of all nodes. -/
structure NodeGraph (ν : Type) (zero one : ν) (n : Nat) where
  IsNode : ν → Prop
  vertex? : ν → Option (Vertex ν)
  value : ν → (Nat → Bool) → Bool
  isNode_zero : IsNode zero
  isNode_one : IsNode one
  vertex?_zero : vertex? zero = none
  vertex?_one : vertex? one = none
  /-- The constants are the only nodes that ask for nothing. -/
  eq_of_vertex?_eq_none : ∀ {f}, IsNode f → vertex? f = none → f = zero ∨ f = one
  isNode_next : ∀ {f v}, IsNode f → vertex? f = some v → ∀ b, IsNode (v.next b)
  /-- Diagrams are ordered. -/
  level_lt : ∀ {f v}, IsNode f → vertex? f = some v → v.level < n
  level_next : ∀ {f v}, IsNode f → vertex? f = some v →
    ∀ b w, vertex? (v.next b) = some w → v.level < w.level
  /-- Diagrams are reduced, and equal nodes are shared. -/
  high_ne_low : ∀ {f v}, IsNode f → vertex? f = some v → v.high ≠ v.low
  eq_of_vertex?_eq : ∀ {f g v}, IsNode f → IsNode g → vertex? f = some v → vertex? g = some v →
    f = g
  value_zero : ∀ x, value zero x = false
  value_one : ∀ x, value one x = true
  value_vertex : ∀ {f v}, IsNode f → vertex? f = some v →
    ∀ x, value f x = value (v.next (x v.level)) x

namespace NodeGraph

section Graph

variable {ν : Type} {zero one : ν} {n : Nat} (G : NodeGraph ν zero one n) {f g : ν}
  {v w : Vertex ν} {x y : Nat → Bool} {l : Nat}

/-- The first variable that a node asks for, if there is one, lies above level `l`. -/
def Above (l : Nat) (f : ν) : Prop :=
  ∀ v, G.vertex? f = some v → l < v.level

/-- How many levels are left from a node on. -/
def rank (f : ν) : Nat :=
  (G.vertex? f).elim 0 (n - ·.level)

theorem rank_next (hf : G.IsNode f) (hv : G.vertex? f = some v) (b : Bool) :
    G.rank (v.next b) < G.rank f := by
  have hlt := G.level_lt hf hv
  simp only [rank, hv, Option.elim_some]
  cases hw : G.vertex? (v.next b) with
  | none =>
    simp only [Option.elim_none]
    omega
  | some w =>
    have := G.level_next hf hv b w hw
    simp only [Option.elim_some]
    omega

theorem rank_le (f : ν) : G.rank f ≤ n := by
  unfold rank
  cases G.vertex? f with
  | none => exact Nat.zero_le n
  | some v => exact Nat.sub_le n v.level

/-- The value depends on the variables from the first one on only. -/
theorem value_congr (hf : G.IsNode f)
    (hxy : ∀ v m, G.vertex? f = some v → v.level ≤ m → m < n → x m = y m) :
    G.value f x = G.value f y := by
  induction hr : G.rank f using Nat.strongRecOn generalizing f with
  | ind r ih =>
    subst hr
    cases hv : G.vertex? f with
    | none =>
      rcases G.eq_of_vertex?_eq_none hf hv with rfl | rfl
      · rw [G.value_zero, G.value_zero]
      · rw [G.value_one, G.value_one]
    | some v =>
      have hx : x v.level = y v.level := hxy v v.level hv (Nat.le_refl _) (G.level_lt hf hv)
      rw [G.value_vertex hf hv, G.value_vertex hf hv, hx]
      refine ih _ (G.rank_next hf hv _) (G.isNode_next hf hv _) (fun w m hw hm hn => ?_) rfl
      have := G.level_next hf hv _ w hw
      exact hxy v m hv (by omega) hn

theorem value_update (hf : G.IsNode f) (ha : G.Above l f) (x : Nat → Bool) (b : Bool) :
    G.value f (Function.update x l b) = G.value f x := by
  refine G.value_congr hf fun v m hv hm _ => Function.update_of_ne ?_ b x
  have := ha v hv
  omega

theorem value_next (hf : G.IsNode f) (hv : G.vertex? f = some v) (x : Nat → Bool) (b : Bool) :
    G.value (v.next b) x = G.value f (Function.update x v.level b) := by
  rw [G.value_vertex hf hv, Function.update_self]
  exact (G.value_update (G.isNode_next hf hv b) (G.level_next hf hv b) x b).symm

end Graph

/-! ### Nodes with the same values -/

section Pair

variable {ν μ : Type} {zero one : ν} {zero' one' : μ} {n m : Nat}
  {G : NodeGraph ν zero one n} {H : NodeGraph μ zero' one' m} {f : ν} {g : μ}

/-- A node has the values of both its sides if it has those of a node that asks for
nothing up to its level. -/
theorem value_high_eq_low {v : Vertex ν} (hf : G.IsNode f) (hg : H.IsNode g)
    (hv : G.vertex? f = some v) (ha : H.Above v.level g)
    (h : ∀ x, G.value f x = H.value g x) (x : Nat → Bool) :
    G.value v.high x = G.value v.low x := by
  have hnext (b : Bool) : G.value (v.next b) x = H.value g x := by
    rw [G.value_next hf hv, h, H.value_update hg ha]
  exact (hnext true).trans (hnext false).symm

/-- Two nodes ask for the same variable first, and go on with nodes of the same values. -/
structure Alike (G : NodeGraph ν zero one n) (H : NodeGraph μ zero' one' m) (v : Vertex ν)
    (w : Vertex μ) : Prop where
  level_eq : v.level = w.level
  value_eq : ∀ b x, G.value (v.next b) x = H.value (w.next b) x

/-- If the sides of nodes differ in their values, then nodes with the same values are
constants or alike. -/
theorem alike_of_ne (hf : G.IsNode f) (hg : H.IsNode g) (h : ∀ x, G.value f x = H.value g x)
    (hne : ∀ v, G.vertex? f = some v → ¬ ∀ x, G.value v.high x = G.value v.low x)
    (hne' : ∀ w, H.vertex? g = some w → ¬ ∀ x, H.value w.high x = H.value w.low x) :
    G.vertex? f = none ∧ H.vertex? g = none ∨
      ∃ v w, G.vertex? f = some v ∧ H.vertex? g = some w ∧ Alike G H v w := by
  have hsymm (x : Nat → Bool) := (h x).symm
  cases hv : G.vertex? f with
  | none =>
    cases hw : H.vertex? g with
    | none => exact .inl ⟨rfl, rfl⟩
    | some w =>
      have ha : G.Above w.level f := fun v hv' => by simp [hv] at hv'
      exact absurd (value_high_eq_low hg hf hw ha hsymm) (hne' w hw)
  | some v =>
    cases hw : H.vertex? g with
    | none =>
      have ha : H.Above v.level g := fun w hw' => by simp [hw] at hw'
      exact absurd (value_high_eq_low hf hg hv ha h) (hne v hv)
    | some w =>
      rcases Nat.lt_trichotomy v.level w.level with hlt | heq | hlt
      · have ha : H.Above v.level g := fun w' hw' => by simp_all
        exact absurd (value_high_eq_low hf hg hv ha h) (hne v hv)
      · refine .inr ⟨v, w, rfl, rfl, heq, fun b x => ?_⟩
        rw [G.value_next hf hv, H.value_next hg hw, h, heq]
      · have ha : G.Above w.level f := fun v' hv' => by simp_all
        exact absurd (value_high_eq_low hg hf hw ha hsymm) (hne' w hw)

end Pair

section Canonicity

variable {ν μ : Type} {zero one : ν} {zero' one' : μ} {n m : Nat}
  (G : NodeGraph ν zero one n) (H : NodeGraph μ zero' one' m)

/-- Nodes with the same values are the same. -/
theorem eq_of_value_eq {f g : ν} (hf : G.IsNode f) (hg : G.IsNode g)
    (h : ∀ x, G.value f x = G.value g x) : f = g := by
  -- the sides of either node have a smaller rank than the larger of the two
  induction hr : max (G.rank f) (G.rank g) using Nat.strongRecOn generalizing f g with
  | ind r ih =>
    have hsides {e : ν} (he : G.IsNode e) (hle : G.rank e ≤ r) (v : Vertex ν)
        (hv : G.vertex? e = some v) : ¬ ∀ x, G.value v.high x = G.value v.low x := by
      intro hx
      have h1 : G.rank v.high < G.rank e := G.rank_next he hv true
      have h2 : G.rank v.low < G.rank e := G.rank_next he hv false
      exact G.high_ne_low he hv (ih _ (by omega) (G.isNode_next he hv true)
        (G.isNode_next he hv false) hx rfl)
    rcases alike_of_ne hf hg h (hsides hf (by omega)) (hsides hg (by omega)) with
      ⟨hv, hw⟩ | ⟨v, w, hv, hw, ha⟩
    · have hx := h fun _ => false
      rcases G.eq_of_vertex?_eq_none hf hv with rfl | rfl <;>
        rcases G.eq_of_vertex?_eq_none hg hw with rfl | rfl <;>
        simp_all [G.value_zero, G.value_one]
    · have hnext (b : Bool) : v.next b = w.next b := by
        have h1 := G.rank_next hf hv b
        have h2 := G.rank_next hg hw b
        exact ih _ (by omega) (G.isNode_next hf hv b) (G.isNode_next hg hw b) (ha.value_eq b) rfl
      have hvw : v = w := by
        have hhigh := hnext true
        have hlow := hnext false
        have hlevel := ha.level_eq
        cases v
        cases w
        simp_all [Vertex.next]
      exact G.eq_of_vertex?_eq hf hg hv (hvw ▸ hw)

theorem not_value_high_eq_low {f : ν} {v : Vertex ν} (hf : G.IsNode f)
    (hv : G.vertex? f = some v) : ¬ ∀ x, G.value v.high x = G.value v.low x :=
  fun hx => G.high_ne_low hf hv
    (G.eq_of_value_eq (G.isNode_next hf hv true) (G.isNode_next hf hv false) hx)

/-- Nodes of two graphs with the same values are constants or alike. -/
theorem alike {f : ν} {g : μ} (hf : G.IsNode f) (hg : H.IsNode g)
    (h : ∀ x, G.value f x = H.value g x) :
    G.vertex? f = none ∧ H.vertex? g = none ∨
      ∃ v w, G.vertex? f = some v ∧ H.vertex? g = some w ∧ Alike G H v w :=
  alike_of_ne hf hg h (fun _ => G.not_value_high_eq_low hf) fun _ => H.not_value_high_eq_low hg

end Canonicity

/-! ### Packages -/

section Reach

variable {ν : Type} {zero one : ν} {n : Nat} (G : NodeGraph ν zero one n)

/-- The nodes of the diagram that starts at `f`. -/
inductive Reaches (f : ν) : ν → Prop
  | start : Reaches f f
  | next {g : ν} {v : Vertex ν} (h : Reaches f g) (hv : G.vertex? g = some v) (b : Bool) :
      Reaches f (v.next b)

variable {G} in
theorem Reaches.isNode {f g : ν} (hf : G.IsNode f) (h : G.Reaches f g) : G.IsNode g := by
  induction h with
  | start => exact hf
  | next _ hv b ih => exact G.isNode_next ih hv b

/-- A node that stands for a function. -/
structure Denotes (f : ν) (φ : (Nat → Bool) → Bool) : Prop where
  isNode : G.IsNode f
  value_eq : ∀ x, G.value f x = φ x

end Reach

end NodeGraph

/-- What is expected of a package: all its nodes for functions of `n` variables are in one
graph, its operations compute what they say, and it lists the nodes of a diagram as they
are. -/
class NodeTable (ν : Type) [Package ν] (n : Nat) extends
    NodeGraph ν Package.zero Package.one n where
  var_denotes : ∀ {l}, l < n → toNodeGraph.Denotes (Package.var l) (· l)
  nvar_denotes : ∀ {l}, l < n → toNodeGraph.Denotes (Package.nvar l) (!· l)
  not_denotes : ∀ {f φ}, toNodeGraph.Denotes f φ → toNodeGraph.Denotes (Package.not f) (!φ ·)
  and_denotes : ∀ {f g φ ψ}, toNodeGraph.Denotes f φ → toNodeGraph.Denotes g ψ →
    toNodeGraph.Denotes (Package.and f g) fun x => φ x && ψ x
  or_denotes : ∀ {f g φ ψ}, toNodeGraph.Denotes f φ → toNodeGraph.Denotes g ψ →
    toNodeGraph.Denotes (Package.or f g) fun x => φ x || ψ x
  ite_denotes : ∀ {c f g χ φ ψ}, toNodeGraph.Denotes c χ → toNodeGraph.Denotes f φ →
    toNodeGraph.Denotes g ψ →
    toNodeGraph.Denotes (Package.ite c f g) fun x => if χ x then φ x else ψ x
  exist_denotes : ∀ {f φ l}, toNodeGraph.Denotes f φ → l < n →
    toNodeGraph.Denotes (Package.exist f l)
      fun x => φ (Function.update x l true) || φ (Function.update x l false)
  mem_nodes : ∀ {f g v}, IsNode f → toNodeGraph.Reaches f g → vertex? g = some v →
    (g, v) ∈ Package.nodes f
  eq_of_mem_nodes : ∀ {f g v w}, IsNode f → (g, v) ∈ Package.nodes f → vertex? g = some w → v = w

end MuProc
