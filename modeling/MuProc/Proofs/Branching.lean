import MuProc.Proofs.Variables
import Mathlib.Data.Nat.Find

/-!
# Branching-time operators and paths

A maximal path is infinite, or it ends in a state without successors. Each operator holds
at a state exactly if some path, or every path, from there meets its condition. Two of the
fixpoints are compared with paths: for "some path until" a path is cut down step by step,
and for "some path weakly until" one is built by choosing a step again and again. The
other operators are their complements or special cases.
-/

namespace MuProc

namespace LabelledSystem

variable {S : Type}

/-- Some step leads from `s` to `t`. -/
def Next (L : LabelledSystem S) (s t : S) : Prop :=
  ∃ a, L.step s a t

/-- What may follow a position of a maximal path: a successor if there is one. -/
def Follows (L : LabelledSystem S) : Option S → Option S → Prop
  | some s, some t => L.Next s t
  | some s, none => ∀ t, ¬ L.Next s t
  | none, next => next = none

/-- A maximal path from `s`. There are no states behind the end of a finite path. -/
structure MaximalPath (L : LabelledSystem S) (s : S) (π : Nat → Option S) : Prop where
  start : π 0 = some s
  next : ∀ n, L.Follows (π n) (π (n + 1))

/-- A path in front of which a state is put. -/
def prepend (s : S) (π : Nat → Option S) : Nat → Option S
  | 0 => some s
  | n + 1 => π n

variable {L : LabelledSystem S} {s t : S} {π : Nat → Option S}

theorem eq_none_of_follows (h : ∀ n, L.Follows (π n) (π (n + 1))) (h0 : π 0 = none) (n : Nat) :
    π n = none := by
  induction n with
  | zero => exact h0
  | succ n ih =>
    have hn := h n
    rw [ih] at hn
    exact hn

theorem MaximalPath.prepend (h : L.MaximalPath t π) (hst : L.Next s t) :
    L.MaximalPath s (prepend s π) := by
  refine ⟨rfl, fun n => ?_⟩
  cases n with
  | zero =>
    show L.Follows (some s) (π 0)
    rw [h.start]
    exact hst
  | succ n => exact h.next n

/-- A path goes on with a path from a successor, unless there is none. -/
theorem MaximalPath.cases (h : L.MaximalPath s π) :
    ∃ π', π = LabelledSystem.prepend s π' ∧
      ((∃ t, L.Next s t ∧ L.MaximalPath t π') ∨ (∀ t, ¬ L.Next s t) ∧ ∀ n, π' n = none) := by
  refine ⟨fun n => π (n + 1), ?_, ?_⟩
  · funext n
    cases n with
    | zero => exact h.start
    | succ n => rfl
  have hnext (n : Nat) : L.Follows (π (n + 1)) (π (n + 1 + 1)) := h.next (n + 1)
  have hfirst := h.next 0
  rw [h.start] at hfirst
  cases htail : π (0 + 1) with
  | none =>
    rw [htail] at hfirst
    exact .inr ⟨hfirst, eq_none_of_follows hnext htail⟩
  | some t =>
    rw [htail] at hfirst
    exact .inl ⟨t, hfirst, htail, hnext⟩

/-- The path on which every state is followed by the one that is chosen for it. -/
def run (choice : S → Option S) (s : S) : Nat → Option S
  | 0 => some s
  | n + 1 => (run choice s n).bind choice

theorem maximalPath_run {choice : S → Option S} (h : ∀ s, L.Follows (some s) (choice s)) (s : S) :
    L.MaximalPath s (run choice s) := by
  refine ⟨rfl, fun n => ?_⟩
  show L.Follows (run choice s n) ((run choice s n).bind choice)
  cases run choice s n with
  | none => rfl
  | some u => exact h u

theorem exists_follows (L : LabelledSystem S) (s : S) : ∃ next, L.Follows (some s) next := by
  by_cases h : ∃ t, L.Next s t
  · obtain ⟨t, ht⟩ := h
    exact ⟨some t, ht⟩
  · push Not at h
    exact ⟨none, h⟩

theorem exists_maximalPath (L : LabelledSystem S) (s : S) : ∃ π, L.MaximalPath s π := by
  choose choice h using L.exists_follows
  exact ⟨run choice s, maximalPath_run h s⟩

/-! ### Conditions on paths -/

/-- Some position lies in `Q`. -/
def Eventually (Q : Set S) (π : Nat → Option S) : Prop :=
  ∃ n s, π n = some s ∧ s ∈ Q

/-- Every position lies in `P`. -/
def Always (P : Set S) (π : Nat → Option S) : Prop :=
  ∀ n s, π n = some s → s ∈ P

/-- Some position lies in `Q`, and every earlier one in `P`. -/
def Until (P Q : Set S) (π : Nat → Option S) : Prop :=
  ∃ n s, π n = some s ∧ s ∈ Q ∧ ∀ m < n, ∀ u, π m = some u → u ∈ P

def WeakUntil (P Q : Set S) (π : Nat → Option S) : Prop :=
  Until P Q π ∨ Always P π

variable {P Q : Set S}

theorem until_univ : Until Set.univ Q π ↔ Eventually Q π := by
  simp [Until, Eventually]

theorem weakUntil_empty : WeakUntil P ∅ π ↔ Always P π := by
  simp [WeakUntil, Until]

theorem always_prepend : Always P (prepend s π) ↔ s ∈ P ∧ Always P π := by
  constructor
  · intro h
    exact ⟨h 0 s rfl, fun n t ht => h (n + 1) t ht⟩
  · rintro ⟨hs, h⟩ n t ht
    cases n with
    | zero => exact Option.some.inj ht ▸ hs
    | succ n => exact h n t ht

theorem until_prepend : Until P Q (prepend s π) ↔ s ∈ Q ∨ s ∈ P ∧ Until P Q π := by
  constructor
  · rintro ⟨n, t, ht, hQ, hP⟩
    cases n with
    | zero => exact .inl (Option.some.inj ht ▸ hQ)
    | succ n =>
      refine .inr ⟨hP 0 (Nat.succ_pos n) s rfl, n, t, ht, hQ, fun m hm u hu => ?_⟩
      exact hP (m + 1) (Nat.succ_lt_succ hm) u hu
  · rintro (hQ | ⟨hs, n, t, ht, hQ, hP⟩)
    · exact ⟨0, s, rfl, hQ, fun m hm => absurd hm (Nat.not_lt_zero m)⟩
    · refine ⟨n + 1, t, ht, hQ, fun m hm u hu => ?_⟩
      cases m with
      | zero => exact Option.some.inj hu ▸ hs
      | succ m => exact hP m (Nat.lt_of_succ_lt_succ hm) u hu

theorem weakUntil_prepend : WeakUntil P Q (prepend s π) ↔ s ∈ Q ∨ s ∈ P ∧ WeakUntil P Q π := by
  unfold WeakUntil
  rw [until_prepend, always_prepend]
  tauto

theorem Eventually.first (h : Eventually Q π) : Until Qᶜ Q π := by
  classical
  obtain ⟨s, hs, hmem⟩ := Nat.find_spec h
  refine ⟨Nat.find h, s, hs, hmem, fun m hm u hu hQ => ?_⟩
  exact Nat.find_min h hm ⟨u, hu, hQ⟩

/-- A path violates "until" if it never reaches `Q`, or leaves `P` before it does. -/
theorem not_until : ¬ Until P Q π ↔ WeakUntil Qᶜ (Pᶜ ∩ Qᶜ) π := by
  constructor
  · intro h
    by_cases hQ : Eventually Q π
    · obtain ⟨n, s, hs, hmem, hbefore⟩ := hQ.first
      by_contra hweak
      refine h ⟨n, s, hs, hmem, fun m hm u hu => ?_⟩
      by_contra hP
      have hearlier (k : Nat) (hk : k < m) := hbefore k (Nat.lt_trans hk hm)
      exact hweak (.inl ⟨m, u, hu, ⟨hP, hbefore m hm u hu⟩, hearlier⟩)
    · exact .inr fun n s hs hmem => hQ ⟨n, s, hs, hmem⟩
  · rintro (⟨n, s, hs, ⟨hP, hQ⟩, hbefore⟩ | h) ⟨m, t, ht, htQ, htP⟩
    · rcases Nat.lt_trichotomy m n with hlt | rfl | hlt
      · exact hbefore m hlt t ht htQ
      · exact hQ (Option.some.inj (hs.symm.trans ht) ▸ htQ)
      · exact hP (htP n hlt s hs)
    · exact h m t ht htQ

theorem not_weakUntil : ¬ WeakUntil P Q π ↔ Until Qᶜ (Pᶜ ∩ Qᶜ) π := by
  constructor
  · intro h
    have hleaves : Eventually Pᶜ π := by
      by_contra hnever
      refine h (.inr fun n s hs => ?_)
      by_contra hP
      exact hnever ⟨n, s, hs, hP⟩
    rcases not_until.mp fun hU => h (.inl hU) with hU | hQ
    · exact hU
    · obtain ⟨n, s, hs, hP⟩ := hleaves
      exact ⟨n, s, hs, ⟨hP, hQ n s hs⟩, fun m _ => hQ m⟩
  · intro h hweak
    rcases hweak with hU | hP
    · exact not_until.mpr (.inl h) hU
    · obtain ⟨n, s, hs, hmem, -⟩ := h
      exact hmem.1 (hP n s hs)

/-! ### Paths and fixpoints -/

/-- The states from which some step leads into a set. -/
def pre (L : LabelledSystem S) (Z : Set S) : Set S :=
  {s | ∃ t, L.Next s t ∧ t ∈ Z}

/-- The states without successors. -/
def dead (L : LabelledSystem S) : Set S :=
  {s | ∀ t, ¬ L.Next s t}

theorem mem_until_iff :
    s ∈ ⋂₀ {Z | Q ∪ P ∩ L.pre Z ⊆ Z} ↔ ∃ π, L.MaximalPath s π ∧ Until P Q π := by
  constructor
  · intro h
    refine h {s | ∃ π, L.MaximalPath s π ∧ Until P Q π} ?_
    rintro s (hQ | ⟨hP, t, hst, π, hπ, hU⟩)
    · obtain ⟨π, hπ⟩ := L.exists_maximalPath s
      exact ⟨π, hπ, 0, s, hπ.start, hQ, fun m hm => absurd hm (Nat.not_lt_zero m)⟩
    · exact ⟨prepend s π, hπ.prepend hst, until_prepend.mpr (.inr ⟨hP, hU⟩)⟩
  · rintro ⟨π, hπ, n, t, ht, hQ, hP⟩ Z hZ
    -- by induction on the position in `Q`: the state before it is in `Z` as well
    induction n generalizing s π with
    | zero => exact hZ (.inl (Option.some.inj (hπ.start.symm.trans ht) ▸ hQ))
    | succ n ih =>
      obtain ⟨π', rfl, ⟨u, hsu, hπ'⟩ | ⟨-, hend⟩⟩ := hπ.cases
      · have hu : u ∈ Z := by
          refine ih π' hπ' ht fun m hm w hw => ?_
          exact hP (m + 1) (Nat.succ_lt_succ hm) w hw
        exact hZ (.inr ⟨hP 0 (Nat.succ_pos n) s rfl, u, hsu, hu⟩)
      · cases (hend n).symm.trans ht

theorem mem_weakUntil_iff :
    s ∈ ⋃₀ {Z | Z ⊆ Q ∪ P ∩ (L.pre Z ∪ L.dead)} ↔
      ∃ π, L.MaximalPath s π ∧ WeakUntil P Q π := by
  constructor
  · rintro ⟨Z, hZ, hs⟩
    -- outside of `Q`, a state of `Z` is followed by a state of `Z`
    have hchoice (u : S) : ∃ next, L.Follows (some u) next ∧
        (u ∈ Z → u ∉ Q → ∀ t, next = some t → t ∈ Z) := by
      by_cases hu : u ∈ Z ∧ u ∉ Q
      · obtain ⟨-, ⟨t, hut, ht⟩ | hdead⟩ := (hZ hu.1).resolve_left hu.2
        · exact ⟨some t, hut, fun _ _ t' ht' => Option.some.inj ht' ▸ ht⟩
        · exact ⟨none, hdead, fun _ _ t ht => by cases ht⟩
      · obtain ⟨next, hnext⟩ := L.exists_follows u
        exact ⟨next, hnext, fun hZ hQ => absurd ⟨hZ, hQ⟩ hu⟩
    choose choice hfollows hstays using hchoice
    have hπ := maximalPath_run hfollows s
    refine ⟨run choice s, hπ, ?_⟩
    by_contra hweak
    have hQ (n : Nat) (hP : ∀ m < n, ∀ u, run choice s m = some u → u ∈ P) (u : S)
        (hu : run choice s n = some u) : u ∉ Q :=
      fun hmem => hweak (.inl ⟨n, u, hu, hmem, hP⟩)
    have hinv (n : Nat) : (∀ m < n, ∀ u, run choice s m = some u → u ∈ P) ∧
        ∀ u, run choice s n = some u → u ∈ Z := by
      induction n with
      | zero =>
        exact ⟨fun m hm => absurd hm (Nat.not_lt_zero m), fun u hu => Option.some.inj hu ▸ hs⟩
      | succ n ih =>
        obtain ⟨hP, hmem⟩ := ih
        refine ⟨fun m hm u hu => ?_, fun t ht => ?_⟩
        · rcases Nat.lt_succ_iff_lt_or_eq.mp hm with hlt | rfl
          · exact hP m hlt u hu
          · exact ((hZ (hmem u hu)).resolve_left (hQ m hP u hu)).1
        · obtain ⟨u, hu, hnext⟩ := Option.bind_eq_some_iff.mp ht
          exact hstays u (hmem u hu) (hQ n hP u hu) t hnext
    exact hweak (.inr fun n u hu => (hinv (n + 1)).1 n (Nat.lt_succ_self n) u hu)
  · rintro ⟨π, hπ, hweak⟩
    refine ⟨{s | ∃ π, L.MaximalPath s π ∧ WeakUntil P Q π}, ?_, π, hπ, hweak⟩
    rintro s ⟨π, hπ, hweak⟩
    obtain ⟨π', rfl, hrest⟩ := hπ.cases
    rcases weakUntil_prepend.mp hweak with hQ | ⟨hP, hweak'⟩
    · exact .inl hQ
    · refine .inr ⟨hP, ?_⟩
      rcases hrest with ⟨t, hst, hπ'⟩ | ⟨hdead, -⟩
      · exact .inl ⟨t, hst, π', hπ', hweak'⟩
      · exact .inr hdead

/-- The complement of a least fixpoint is the greatest one of the dual operator. -/
theorem compl_sInter_closed (F : Set S → Set S) :
    (⋂₀ {Z | F Z ⊆ Z})ᶜ = ⋃₀ {Z | Z ⊆ (F Zᶜ)ᶜ} := by
  ext s
  simp only [Set.mem_compl_iff, Set.mem_sInter, Set.mem_sUnion, Set.mem_ofPred_eq, not_forall]
  constructor
  · rintro ⟨Z, hZ, hs⟩
    exact ⟨Zᶜ, by rwa [compl_compl, Set.compl_subset_compl], hs⟩
  · rintro ⟨Z, hZ, hs⟩
    exact ⟨Zᶜ, Set.subset_compl_comm.mp hZ, not_not_intro hs⟩

theorem mem_forall_until_iff :
    s ∈ ⋂₀ {Z | Q ∪ P ∩ ((L.pre Zᶜ)ᶜ ∩ L.deadᶜ) ⊆ Z} ↔
      ∀ π, L.MaximalPath s π → Until P Q π := by
  have hdual (Z : Set S) : (Q ∪ P ∩ ((L.pre Zᶜᶜ)ᶜ ∩ L.deadᶜ))ᶜ =
      Pᶜ ∩ Qᶜ ∪ Qᶜ ∩ (L.pre Z ∪ L.dead) := by
    rw [compl_compl, ← Set.compl_union, Set.compl_union, Set.compl_inter, compl_compl,
      Set.inter_comm Pᶜ, ← Set.inter_union_distrib_left]
  rw [← not_iff_not, ← Set.mem_compl_iff, compl_sInter_closed]
  simp only [hdual, mem_weakUntil_iff, ← not_until, not_forall, exists_prop]

theorem mem_forall_weakUntil_iff :
    s ∈ ⋃₀ {Z | Z ⊆ Q ∪ P ∩ (L.pre Zᶜ)ᶜ} ↔ ∀ π, L.MaximalPath s π → WeakUntil P Q π := by
  have hdual (Z : Set S) : (Pᶜ ∩ Qᶜ ∪ Qᶜ ∩ L.pre Zᶜ)ᶜ = Q ∪ P ∩ (L.pre Zᶜ)ᶜ := by
    rw [Set.inter_comm Pᶜ, ← Set.inter_union_distrib_left, Set.compl_inter, compl_compl,
      Set.compl_union, compl_compl]
  simp only [← hdual]
  rw [← compl_sInter_closed fun Z => Pᶜ ∩ Qᶜ ∪ Qᶜ ∩ L.pre Z, Set.mem_compl_iff, mem_until_iff]
  simp only [← not_weakUntil, not_exists, not_and, not_not]

end LabelledSystem

namespace Formula

open LabelledSystem (Eventually Always Until WeakUntil mem_until_iff mem_weakUntil_iff
  mem_forall_until_iff mem_forall_weakUntil_iff until_univ weakUntil_empty)

variable {S : Type} {L : LabelledSystem S} {ρ : Name → Set S} {x : Name}

/-! ### The operators -/

/-! A modality without an action speaks about every step. -/

theorem dia_any_eq (Z : Set S) :
    {s | ∃ b t, SpeaksOf "" b ∧ (L.modal.must s b t ∨ L.modal.may s b t) ∧ t ∈ Z} = L.pre Z := by
  ext s
  constructor
  · rintro ⟨b, t, -, hstep | hmay, ht⟩
    · exact ⟨t, ⟨b, hstep⟩, ht⟩
    · exact absurd hmay (L.modal_may s b t)
  · rintro ⟨t, ⟨b, hstep⟩, ht⟩
    exact ⟨b, t, .inl rfl, .inl hstep, ht⟩

theorem box_any_eq (Z : Set S) :
    {s | ∀ b t, SpeaksOf "" b → L.modal.must s b t → t ∈ Z} = (L.pre Zᶜ)ᶜ := by
  ext s
  constructor
  · rintro h ⟨t, ⟨b, hstep⟩, ht⟩
    exact ht (h b t (.inl rfl) hstep)
  · intro h b t _ hstep
    by_contra ht
    exact h ⟨t, ⟨b, hstep⟩, ht⟩

theorem denote_progress (Z : Set S) :
    denote L.modal (Function.update ρ x Z) (progress x) = (L.pre Zᶜ)ᶜ ∩ L.deadᶜ := by
  have hsome : L.pre Set.univ = L.deadᶜ := by
    ext s
    simp [LabelledSystem.pre, LabelledSystem.dead]
  simp only [progress, denote, dia_any_eq, box_any_eq, Function.update_self, hsome]

theorem denote_continues (Z : Set S) :
    denote L.modal (Function.update ρ x Z) (continues x) = L.pre Z ∪ L.dead := by
  have hnone : (L.pre ∅ᶜ)ᶜ = L.dead := by
    ext s
    simp [LabelledSystem.pre, LabelledSystem.dead]
  simp only [continues, denote, dia_any_eq, box_any_eq, Function.update_self, hnone]

/-- The branching-time operators mean what they say about maximal paths. Their operands,
open or closed, are meant in the same valuation. -/
theorem denote_branching (L : LabelledSystem S) (ρ : Name → Set S) (f p q : Formula) (s : S) :
    (s ∈ denote L.modal ρ (ef f) ↔
      ∃ π, L.MaximalPath s π ∧ Eventually (denote L.modal ρ f) π) ∧
    (s ∈ denote L.modal ρ (eg f) ↔
      ∃ π, L.MaximalPath s π ∧ Always (denote L.modal ρ f) π) ∧
    (s ∈ denote L.modal ρ (eu p q) ↔
      ∃ π, L.MaximalPath s π ∧ Until (denote L.modal ρ p) (denote L.modal ρ q) π) ∧
    (s ∈ denote L.modal ρ (ew p q) ↔
      ∃ π, L.MaximalPath s π ∧ WeakUntil (denote L.modal ρ p) (denote L.modal ρ q) π) ∧
    (s ∈ denote L.modal ρ (af f) ↔
      ∀ π, L.MaximalPath s π → Eventually (denote L.modal ρ f) π) ∧
    (s ∈ denote L.modal ρ (ag f) ↔
      ∀ π, L.MaximalPath s π → Always (denote L.modal ρ f) π) ∧
    (s ∈ denote L.modal ρ (au p q) ↔
      ∀ π, L.MaximalPath s π → Until (denote L.modal ρ p) (denote L.modal ρ q) π) ∧
    (s ∈ denote L.modal ρ (aw p q) ↔
      ∀ π, L.MaximalPath s π → WeakUntil (denote L.modal ρ p) (denote L.modal ρ q) π) := by
  have hf (Z : Set S) : denote L.modal (Function.update ρ (fresh [f]) Z) f = denote L.modal ρ f :=
    denote_update (fresh_not_free (by simp)) Z
  have hp (Z : Set S) :
      denote L.modal (Function.update ρ (fresh [p, q]) Z) p = denote L.modal ρ p :=
    denote_update (fresh_not_free (by simp)) Z
  have hq (Z : Set S) :
      denote L.modal (Function.update ρ (fresh [p, q]) Z) q = denote L.modal ρ q :=
    denote_update (fresh_not_free (by simp)) Z
  refine ⟨?_, ?_, ?_, ?_, ?_, ?_, ?_, ?_⟩
  · simp only [ef, denote, hf, dia_any_eq, Function.update_self, ← until_univ,
      ← mem_until_iff, Set.univ_inter]
  · simp only [eg, denote, hf, denote_continues, ← weakUntil_empty, ← mem_weakUntil_iff,
      Set.empty_union]
  · simp only [eu, denote, hp, hq, dia_any_eq, Function.update_self, ← mem_until_iff]
  · simp only [ew, denote, hp, hq, denote_continues, ← mem_weakUntil_iff]
  · simp only [af, denote, hf, denote_progress, ← until_univ, ← mem_forall_until_iff,
      Set.univ_inter]
  · simp only [ag, denote, hf, box_any_eq, Function.update_self, ← weakUntil_empty,
      ← mem_forall_weakUntil_iff, Set.empty_union]
  · simp only [au, denote, hp, hq, denote_progress, ← mem_forall_until_iff]
  · simp only [aw, denote, hp, hq, box_any_eq, Function.update_self,
      ← mem_forall_weakUntil_iff]

end Formula

end MuProc
