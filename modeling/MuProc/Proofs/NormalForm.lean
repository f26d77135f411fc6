import MuProc.Formula.Normal
import MuProc.Proofs.Denotation

/-!
# The normal form keeps the meaning

Over a single transition relation the normal form of a formula denotes the same
set of states, and the normal form of its negation the complement. The induction
carries the polarities along: a variable that stands for the complement of what
its binder meant is read in a valuation in which its set is complemented.
-/

namespace MuProc.Formula

variable {S : Type}

/-- A set, or its complement if `neg` is set. -/
def polar (neg : Bool) (Z : Set S) : Set S :=
  if neg then Zᶜ else Z

@[simp] theorem polar_false (Z : Set S) : polar false Z = Z := rfl

@[simp] theorem polar_true (Z : Set S) : polar true Z = Zᶜ := rfl

theorem polar_polar (neg : Bool) (Z : Set S) : polar neg (polar neg Z) = Z := by
  cases neg with
  | false => rfl
  | true => exact compl_compl Z

theorem polar_not (neg : Bool) (Z : Set S) : polar (!neg) Z = polar neg Zᶜ := by
  cases neg with
  | false => rfl
  | true => exact (compl_compl Z).symm

/-- A valuation in which the variables of `dual` are complemented. -/
def Polarity.read (dual : Polarity) (ρ : Name → Set S) : Name → Set S :=
  fun x => polar (dual x) (ρ x)

/-- Binding a variable with the polarity of its binder and then reading is reading
and then binding it to the set of that polarity. -/
theorem Polarity.read_bind (dual : Polarity) (ρ : Name → Set S) (x : Name) (neg : Bool)
    (Z : Set S) :
    Function.update (dual.read ρ) x Z =
      (dual.bind x neg).read (Function.update ρ x (polar neg Z)) := by
  funext y
  by_cases h : y = x
  · subst h
    simp [read, bind, polar_polar]
  · simp [read, bind, h]

theorem denote_normalWith (L : LabelledSystem S) (dual : Polarity) (neg : Bool) (f : Formula)
    (ρ : Name → Set S) :
    denote L.modal (dual.read ρ) (normalWith dual neg f) = polar neg (denote L.modal ρ f) := by
  induction f generalizing dual neg ρ with
  | tt => cases neg <;> simp [normalWith, denote]
  | ff => cases neg <;> simp [normalWith, denote]
  | atom p => cases neg <;> simp [normalWith, denote]
  | not f ih => simp only [normalWith, ih, denote, polar_not]
  | and f g ihf ihg =>
    cases neg with
    | false => simp [normalWith, denote, ihf, ihg]
    | true => simp [normalWith, denote, ihf, ihg, Set.compl_inter]
  | or f g ihf ihg =>
    cases neg with
    | false => simp [normalWith, denote, ihf, ihg]
    | true => simp [normalWith, denote, ihf, ihg, Set.compl_union]
  | box a f ih =>
    cases neg with
    | false => simp [normalWith, denote, ih]
    | true =>
      ext s
      simp [normalWith, denote, ih]
  | dia a f ih =>
    cases neg with
    | false => simp [normalWith, denote, ih]
    | true =>
      ext s
      simp only [normalWith, if_true, denote, ih, polar_true, LabelledSystem.modal_must,
        LabelledSystem.modal_may, or_false, Set.mem_ofPred_eq, Set.mem_compl_iff, not_exists,
        not_and]
  | mu x f ih =>
    cases neg with
    | false => simp [normalWith, denote, Polarity.read_bind dual ρ x false, ih]
    | true =>
      -- complementing a set turns the sets inside their image into the sets their body maps
      -- into themselves
      ext s
      simp only [normalWith, if_true, denote, Polarity.read_bind dual ρ x true, ih, polar_true,
        Set.mem_sUnion, Set.mem_ofPred_eq, Set.mem_compl_iff, Set.mem_sInter]
      constructor
      · rintro ⟨Z, hZ, hs⟩ hall
        exact hall Zᶜ (Set.subset_compl_comm.mp hZ) hs
      · intro h
        push Not at h
        obtain ⟨Z, hZ, hs⟩ := h
        exact ⟨Zᶜ, by rwa [compl_compl, Set.compl_subset_compl], hs⟩
  | nu x f ih =>
    cases neg with
    | false => simp [normalWith, denote, Polarity.read_bind dual ρ x false, ih]
    | true =>
      ext s
      simp only [normalWith, if_true, denote, Polarity.read_bind dual ρ x true, ih, polar_true,
        Set.mem_sUnion, Set.mem_ofPred_eq, Set.mem_compl_iff, Set.mem_sInter]
      constructor
      · rintro hall ⟨Z, hZ, hs⟩
        exact hall Zᶜ (by rwa [compl_compl, Set.compl_subset_compl]) hs
      · intro h Z hZ
        by_contra hs
        exact h ⟨Zᶜ, Set.compl_subset_comm.mp hZ, hs⟩
  | var x =>
    cases hd : dual x <;> cases neg <;> simp [normalWith, denote, Polarity.read, hd]

theorem read_nothing (ρ : Name → Set S) : Polarity.read (fun _ => false) ρ = ρ := by
  funext x
  rfl

/-- The normal form of a formula, open or closed, denotes the same states as the
formula, and the normal form of its negation the other states. -/
theorem denote_normal (L : LabelledSystem S) (ρ : Name → Set S) (f : Formula) :
    denote L.modal ρ f.normal = denote L.modal ρ f ∧
      denote L.modal ρ (normal (.not f)) = (denote L.modal ρ f)ᶜ := by
  have h (neg : Bool) := denote_normalWith L (fun _ => false) neg f ρ
  simp only [read_nothing] at h
  exact ⟨h false, h true⟩

end MuProc.Formula
