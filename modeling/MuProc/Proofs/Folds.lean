import Mathlib.Data.List.Forall2
import Mathlib.Tactic.Common

/-!
# Invariants of folds

The loops of the program are folds, some of which can fail. Each lemma carries an
invariant through a fold; the invariant may speak about the number of elements that
have been passed. For a fold that can fail every step has to succeed, and then the
whole fold does.
-/

namespace MuProc.Fold

variable {α β ε : Type} {P : Nat → β → Prop} {l : List α} {b : β}

theorem foldl_inv {f : β → α → β} (h0 : P 0 b)
    (hs : ∀ m a b, l[m]? = some a → P m b → P (m + 1) (f b a)) : P l.length (l.foldl f b) := by
  induction l generalizing b P with
  | nil => exact h0
  | cons a l ih =>
    have h1 := hs 0 a b rfl h0
    have hrest (m : Nat) (c : α) (b : β) (hc : l[m]? = some c) (hP : P (m + 1) b) :=
      hs (m + 1) c b (by simpa using hc) hP
    exact ih h1 hrest

theorem foldlM_some {f : β → α → Option β} (h0 : P 0 b)
    (hs : ∀ m a b, l[m]? = some a → P m b → ∃ b', f b a = some b' ∧ P (m + 1) b') :
    ∃ b', l.foldlM f b = some b' ∧ P l.length b' := by
  induction l generalizing b P with
  | nil => exact ⟨b, rfl, h0⟩
  | cons a l ih =>
    obtain ⟨b₁, hb, h1⟩ := hs 0 a b rfl h0
    have hrest (m : Nat) (c : α) (b : β) (hc : l[m]? = some c) (hP : P (m + 1) b) :=
      hs (m + 1) c b (by simpa using hc) hP
    obtain ⟨b₂, hb₂, h2⟩ := ih h1 hrest
    exact ⟨b₂, by simp [List.foldlM_cons, hb, hb₂], h2⟩

theorem foldlM_inv_of_some {f : β → α → Option β} {b' : β} (h0 : P 0 b)
    (hs : ∀ m a b b', l[m]? = some a → P m b → f b a = some b' → P (m + 1) b')
    (h : l.foldlM f b = some b') : P l.length b' := by
  induction l generalizing b P with
  | nil =>
    obtain rfl := Option.some.inj h
    exact h0
  | cons a l ih =>
    rw [List.foldlM_cons] at h
    obtain ⟨b₁, hb, h⟩ := Option.bind_eq_some_iff.mp h
    exact ih (hs 0 a b b₁ rfl h0 hb)
      (fun m c b b' hc hP => hs (m + 1) c b b' (by simpa using hc) hP) h

/-- Folds that succeed with the same result, whatever the parameter of their steps. -/
theorem foldlM_ok_forall {ι : Type} {f : ι → β → α → Except ε β} (h0 : P 0 b)
    (hs : ∀ m a b, l[m]? = some a → P m b → ∃ b', (∀ k, f k b a = .ok b') ∧ P (m + 1) b') :
    ∃ b', (∀ k, l.foldlM (f k) b = .ok b') ∧ P l.length b' := by
  induction l generalizing b P with
  | nil => exact ⟨b, fun _ => rfl, h0⟩
  | cons a l ih =>
    obtain ⟨b₁, hb, h1⟩ := hs 0 a b rfl h0
    have hrest (m : Nat) (c : α) (b : β) (hc : l[m]? = some c) (hP : P (m + 1) b) :=
      hs (m + 1) c b (by simpa using hc) hP
    obtain ⟨b₂, hb₂, h2⟩ := ih h1 hrest
    refine ⟨b₂, fun k => ?_, h2⟩
    rw [List.foldlM_cons, hb]
    exact hb₂ k

theorem foldlM_ok {f : β → α → Except ε β} (h0 : P 0 b)
    (hs : ∀ m a b, l[m]? = some a → P m b → ∃ b', f b a = .ok b' ∧ P (m + 1) b') :
    ∃ b', l.foldlM f b = .ok b' ∧ P l.length b' := by
  obtain ⟨b', hb, h⟩ := foldlM_ok_forall (f := fun (_ : Unit) => f) h0 fun m a b ha hP => by
    obtain ⟨b', hb, h⟩ := hs m a b ha hP
    exact ⟨b', fun _ => hb, h⟩
  exact ⟨b', hb (), h⟩

theorem foldlM_inv_of_ok {f : β → α → Except ε β} {b' : β} (h0 : P 0 b)
    (hs : ∀ m a b b', l[m]? = some a → P m b → f b a = .ok b' → P (m + 1) b')
    (h : l.foldlM f b = .ok b') : P l.length b' := by
  induction l generalizing b P with
  | nil =>
    obtain rfl := Except.ok.inj h
    exact h0
  | cons a l ih =>
    rw [List.foldlM_cons] at h
    cases hb : f b a with
    | error e =>
      rw [hb] at h
      cases h
    | ok b₁ =>
      rw [hb] at h
      exact ih (hs 0 a b b₁ rfl h0 hb)
        (fun m c b b' hc hP => hs (m + 1) c b b' (by simpa using hc) hP) h

theorem foldlM_flatMap {γ : Type} {f : β → γ → Except ε β} {g : α → List γ} :
    (l.flatMap g).foldlM f b = l.foldlM (fun b a => (g a).foldlM f b) b := by
  induction l generalizing b with
  | nil => rfl
  | cons a l ih => simp only [List.flatMap_cons, List.foldlM_append, List.foldlM_cons, ih]

/-- Folds over lists whose elements the step does not tell apart. -/
theorem foldlM_congr {R : α → α → Prop} {l' : List α} {f : β → α → Except ε β}
    (h : List.Forall₂ R l l') (hf : ∀ a a', R a a' → ∀ b, f b a' = f b a) :
    l'.foldlM f b = l.foldlM f b := by
  induction h generalizing b with
  | nil => rfl
  | @cons a a' l l' hR _ ih => simp only [List.foldlM_cons, hf a a' hR, ih]

theorem mapM_eq_some_iff {γ : Type} {f : α → Option γ} {cs : List γ} :
    l.mapM f = some cs ↔ List.Forall₂ (fun a c => f a = some c) l cs := by
  induction l generalizing cs with
  | nil => simp [eq_comm]
  | cons a l ih =>
    rw [List.mapM_cons, List.forall₂_cons_left_iff]
    simp only [Option.bind_eq_bind, Option.bind_eq_some_iff, Option.pure_def, Option.some.injEq, ih]
    constructor
    · rintro ⟨c, hc, cs, hcs, rfl⟩
      exact ⟨c, cs, hc, hcs, rfl⟩
    · rintro ⟨c, cs, hc, hcs, rfl⟩
      exact ⟨c, hc, cs, hcs, rfl⟩

theorem mapM_some {γ : Type} {f : α → Option γ} {R : α → γ → Prop}
    (h : ∀ a ∈ l, ∃ c, f a = some c ∧ R a c) : ∃ cs, l.mapM f = some cs ∧ List.Forall₂ R l cs := by
  induction l with
  | nil => exact ⟨[], rfl, .nil⟩
  | cons a l ih =>
    obtain ⟨c, hc, hR⟩ := h a (List.mem_cons_self ..)
    obtain ⟨cs, hcs, hRs⟩ := ih fun b hb => h b (List.mem_cons_of_mem _ hb)
    exact ⟨c :: cs, by simp [List.mapM_cons, hc, hcs], .cons hR hRs⟩

theorem mapM_ok {γ : Type} {f : α → Except ε γ} {R : α → γ → Prop}
    (h : ∀ a ∈ l, ∃ c, f a = .ok c ∧ R a c) : ∃ cs, l.mapM f = .ok cs ∧ List.Forall₂ R l cs := by
  induction l with
  | nil => exact ⟨[], rfl, .nil⟩
  | cons a l ih =>
    obtain ⟨c, hc, hR⟩ := h a (List.mem_cons_self ..)
    obtain ⟨cs, hcs, hRs⟩ := ih fun b hb => h b (List.mem_cons_of_mem _ hb)
    refine ⟨c :: cs, ?_, .cons hR hRs⟩
    rw [List.mapM_cons, hc, hcs]
    rfl

@[simp] theorem ok_bind {γ : Type} (a : α) (f : α → Except ε γ) : (Except.ok a >>= f) = f a :=
  rfl

@[simp] theorem pure_eq_ok (a : α) : (pure a : Except ε α) = .ok a :=
  rfl

theorem bind_eq_ok {γ : Type} {x : Except ε α} {f : α → Except ε γ} {c : γ} :
    (x >>= f) = .ok c ↔ ∃ a, x = .ok a ∧ f a = .ok c := by
  cases x with
  | error e => simp [bind, Except.bind]
  | ok a => simp [bind, Except.bind]

theorem forall₂_of_mapM {γ : Type} {f : α → Except ε γ} {cs : List γ} (h : l.mapM f = .ok cs) :
    List.Forall₂ (fun a c => f a = .ok c) l cs := by
  induction l generalizing cs with
  | nil =>
    obtain rfl := Except.ok.inj h
    exact .nil
  | cons a l ih =>
    rw [List.mapM_cons] at h
    obtain ⟨c, hc, h⟩ := bind_eq_ok.mp h
    obtain ⟨cs', hcs, h⟩ := bind_eq_ok.mp h
    obtain rfl := Except.ok.inj h
    exact .cons hc (ih hcs)

theorem bind_eq_error {γ : Type} {x : Except ε α} {f : α → Except ε γ} {e : ε} :
    (x >>= f) = .error e ↔ x = .error e ∨ ∃ a, x = .ok a ∧ f a = .error e := by
  cases x with
  | error e => simp [bind, Except.bind]
  | ok a => simp [bind, Except.bind]

end MuProc.Fold
