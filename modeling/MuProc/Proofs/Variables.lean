import MuProc.Formula.Ctl
import MuProc.Proofs.ByteStrings
import MuProc.Proofs.Denotation
import Mathlib.Data.List.Nodup
import Mathlib.Data.List.Perm.Subperm
import Std.Data.String.ToNat

/-!
# Free and fresh variables

The meaning of a formula depends on its free variables only, so binding a variable that
a formula does not mention changes nothing in it. The variable that an operator picks is
such a one: as many candidates are tried as there are names in the operands, and one more.
-/

namespace MuProc.Formula

/-- The variable `x` occurs outside of the fixpoints that bind it. -/
def Free (x : Name) : Formula → Prop
  | .not f | .box _ f | .dia _ f => f.Free x
  | .and f g | .or f g => f.Free x ∨ g.Free x
  | .mu y f | .nu y f => x ≠ y ∧ f.Free x
  | .var y => x = y
  | _ => False

/-- A formula without free variables. -/
def Closed (f : Formula) : Prop :=
  ∀ x, ¬ f.Free x

variable {S : Type} {L : ModalSystem S} {ρ ρ' : Name → Set S} {f : Formula} {x : Name}

/-! ### Meaning and free variables -/

theorem denote_congr (h : ∀ x, f.Free x → ρ x = ρ' x) : denote L ρ f = denote L ρ' f := by
  -- inside a binder of `x` the valuations have to agree on the other variables only
  have hupdate {ρ ρ' : Name → Set S} {f : Formula} {x : Name}
      (h : ∀ y, y ≠ x ∧ f.Free y → ρ y = ρ' y) (Z : Set S) (y : Name) (hy : f.Free y) :
      Function.update ρ x Z y = Function.update ρ' x Z y := by
    by_cases hyx : y = x
    · subst hyx
      rw [Function.update_self, Function.update_self]
    · rw [Function.update_of_ne hyx, Function.update_of_ne hyx]
      exact h y ⟨hyx, hy⟩
  induction f generalizing ρ ρ' with
  | tt => rfl
  | ff => rfl
  | atom p => rfl
  | not f ih => simp only [denote, ih h]
  | and f g ihf ihg =>
    have hf := ihf fun x hx => h x (.inl hx)
    have hg := ihg fun x hx => h x (.inr hx)
    simp only [denote, hf, hg]
  | or f g ihf ihg =>
    have hf := ihf fun x hx => h x (.inl hx)
    have hg := ihg fun x hx => h x (.inr hx)
    simp only [denote, hf, hg]
  | box a f ih => simp only [denote, ih h]
  | dia a f ih => simp only [denote, ih h]
  | mu x f ih =>
    have hbody (Z : Set S) := ih (hupdate h Z)
    simp only [denote, hbody]
  | nu x f ih =>
    have hbody (Z : Set S) := ih (hupdate h Z)
    simp only [denote, hbody]
  | var x => exact h x rfl

theorem denote_update (h : ¬ f.Free x) (Z : Set S) :
    denote L (Function.update ρ x Z) f = denote L ρ f := by
  apply denote_congr
  intro y hy
  have hne : y ≠ x := by
    intro heq
    subst heq
    exact h hy
  exact Function.update_of_ne hne Z ρ

theorem Closed.denote_eq (h : f.Closed) (ρ ρ' : Name → Set S) : denote L ρ f = denote L ρ' f := by
  apply denote_congr
  intro x hx
  exact absurd hx (h x)

/-! ### Names -/

theorem mem_namesBefore {others : List Name} (h : f.Free x ∨ x ∈ others) :
    x ∈ f.namesBefore others := by
  induction f generalizing others with
  | tt => exact h.resolve_left id
  | ff => exact h.resolve_left id
  | atom p => exact h.resolve_left id
  | not f ih => exact ih h
  | and f g ihf ihg =>
    apply ihf
    rcases h with (hf | hg) | hx
    · exact .inl hf
    · exact .inr (ihg (.inl hg))
    · exact .inr (ihg (.inr hx))
  | or f g ihf ihg =>
    apply ihf
    rcases h with (hf | hg) | hx
    · exact .inl hf
    · exact .inr (ihg (.inl hg))
    · exact .inr (ihg (.inr hx))
  | box a f ih => exact ih h
  | dia a f ih => exact ih h
  | mu y f ih => exact List.mem_cons_of_mem _ (ih (h.imp_left And.right))
  | nu y f ih => exact List.mem_cons_of_mem _ (ih (h.imp_left And.right))
  | var y => exact List.mem_cons.mpr h

theorem mem_names_of_free {operands : List Formula} (hf : f ∈ operands) (hx : f.Free x) :
    x ∈ names operands := by
  induction operands with
  | nil => cases hf
  | cons g rest ih =>
    show x ∈ g.namesBefore (names rest)
    rcases List.mem_cons.mp hf with rfl | hf
    · exact mem_namesBefore (.inl hx)
    · exact mem_namesBefore (.inr (ih hf))

/-! ### Fresh variables -/

theorem candidate_injective : Function.Injective candidate := by
  intro i j h
  simp only [candidate, Nat.toString_eq_repr, ← ByteString.ofText_append,
    ByteString.ofText_inj] at h
  exact Nat.repr_injective ((String.append_right_inj "Z").mp h)

/-- Among one candidate more than there are names, one is not a name. -/
theorem exists_unused (used : List Name) : ∃ i ≤ used.length, candidate i ∉ used := by
  by_contra hall
  push Not at hall
  have hnodup : ((List.range (used.length + 1)).map candidate).Nodup :=
    List.nodup_range.map candidate_injective
  have hsub : (List.range (used.length + 1)).map candidate ⊆ used := by
    intro y hy
    obtain ⟨i, hi, rfl⟩ := List.mem_map.mp hy
    have hlt := List.mem_range.mp hi
    exact hall i (by omega)
  have hle := (hnodup.subperm hsub).length_le
  simp only [List.length_map, List.length_range] at hle
  omega

theorem firstUnused_not_mem {used : List Name} {fuel i : Nat}
    (h : ∃ j ≤ fuel, candidate (i + j) ∉ used) : firstUnused (.ofList used) fuel i ∉ used := by
  induction fuel generalizing i with
  | zero =>
    obtain ⟨j, hj, hnew⟩ := h
    obtain rfl : j = 0 := by omega
    exact hnew
  | succ fuel ih =>
    simp only [firstUnused, Std.HashSet.contains_ofList, List.contains_iff_mem]
    split
    · rename_i hused
      apply ih
      obtain ⟨j, hj, hnew⟩ := h
      cases j with
      | zero => exact absurd hused hnew
      | succ j => exact ⟨j, by omega, by rwa [Nat.add_assoc, Nat.add_comm 1 j]⟩
    · assumption

/-- A fresh variable is free in no operand. -/
theorem fresh_not_free {operands : List Formula} (hf : f ∈ operands) :
    ¬ f.Free (fresh operands) := by
  intro hfree
  obtain ⟨i, hi, hnew⟩ := exists_unused (names operands)
  have hnot : fresh operands ∉ names operands :=
    firstUnused_not_mem ⟨i, hi, by rwa [Nat.zero_add]⟩
  exact hnot (mem_names_of_free hf hfree)

end MuProc.Formula
