import MuProc.Proofs.Acceptance

/-!
# Alternating fixpoints

A formula can be numbered exactly if it is closed, negates propositions only and has no
alternating fixpoints. The three conditions speak about where the nodes of the formula
stand: below which fixpoints, from the inside out. A variable belongs to the nearest
fixpoint of its name, and no fixpoint of another kind may lie between the two. Blocks do
not occur in the conditions; they are how the numbering finds out. If a formula is refused,
the error names a node that breaks one of them.
-/

namespace MuProc

/-- A fixpoint above a node: the variable that it binds, and its kind. -/
structure Binder where
  name : Name
  kind : BlockKind
deriving DecidableEq, Repr

namespace Binder

/-- The innermost fixpoint that binds `x`. The binders are listed from the inside out. -/
def nearest (x : Name) (bs : List Binder) : Option Binder :=
  bs.find? (·.name = x)

/-- The fixpoints strictly inside the innermost one that binds `x`. -/
def between (x : Name) (bs : List Binder) : List Binder :=
  bs.takeWhile (·.name ≠ x)

end Binder

open Binder (nearest between)

namespace Formula

/-- The node `g` stands in `f` below the fixpoints `bs`, the innermost of them first. -/
inductive Stands (f : Formula) : Formula → List Binder → Prop
  | root : Stands f f []
  | negation {g bs} (h : Stands f (.not g) bs) : Stands f g bs
  | left {g₁ g₂ φ bs} (h : Stands f φ bs) (hφ : IsBinary g₁ g₂ φ) : Stands f g₁ bs
  | right {g₁ g₂ φ bs} (h : Stands f φ bs) (hφ : IsBinary g₁ g₂ φ) : Stands f g₂ bs
  | modal {a g φ bs} (h : Stands f φ bs) (hφ : IsModal a g φ) : Stands f g bs
  | binder {x k g φ bs} (h : Stands f φ bs) (hφ : IsBinder x g k φ) : Stands f g (⟨x, k⟩ :: bs)

/-- Every variable stands below a fixpoint of its name. -/
def Bound (f : Formula) : Prop :=
  ∀ x bs, f.Stands (.var x) bs → ∃ b ∈ bs, b.name = x

/-- Every negation stands directly above a proposition. -/
def PositiveNormal (f : Formula) : Prop :=
  ∀ g bs, f.Stands (.not g) bs → ∃ p, g = .atom p

/-- Between a variable and the nearest fixpoint of its name all fixpoints are of the same kind
as that one. -/
def AlternationFree (f : Formula) : Prop :=
  ∀ x bs, f.Stands (.var x) bs → ∀ b, nearest x bs = some b → ∀ c ∈ between x bs, c.kind = b.kind

/-! ### The variables in scope -/

def innermost : List Binder → BlockKind
  | [] => .plain
  | b :: _ => b.kind

/-- The variables that can be used below fixpoints. -/
def inScope : List Binder → Set Name
  | [] => ∅
  | b :: bs => scopeOf (inScope bs) (innermost bs) b.kind b.name

variable {f g : Formula} {bs : List Binder} {b : Binder} {x : Name}

theorem nearest_eq_none_iff : nearest x bs = none ↔ ∀ b ∈ bs, b.name ≠ x := by
  simp [nearest, List.find?_eq_none]

theorem innermost_eq (hb : nearest x bs = some b) (hbetween : ∀ c ∈ between x bs, c.kind = b.kind) :
    innermost bs = b.kind := by
  cases bs with
  | nil => cases hb
  | cons c bs =>
    by_cases hc : c.name = x
    · simp only [nearest, List.find?_cons, hc, decide_true] at hb
      exact congrArg Binder.kind (Option.some.inj hb)
    · exact hbetween c (by simp [between, hc])

theorem mem_inScope_iff : x ∈ inScope bs ↔
    ∃ b, nearest x bs = some b ∧ ∀ c ∈ between x bs, c.kind = b.kind := by
  induction bs with
  | nil => simp [inScope, nearest]
  | cons c bs ih =>
    by_cases hc : c.name = x
    · refine iff_of_true (.inl hc.symm) ⟨c, ?_, ?_⟩
      · simp [nearest, hc]
      · simp [between, hc]
    -- a fixpoint of another name hides `x` unless it goes on with the kind below which it stands
    have hnearest : nearest x (c :: bs) = nearest x bs := by simp [nearest, hc]
    have hbetween : between x (c :: bs) = c :: between x bs := by simp [between, hc]
    rw [hnearest, hbetween]
    constructor
    · rintro (rfl | ⟨hkind, hx⟩)
      · exact absurd rfl hc
      · obtain ⟨b, hb, hall⟩ := ih.mp hx
        refine ⟨b, hb, List.forall_mem_cons.mpr ⟨?_, hall⟩⟩
        rw [← hkind, innermost_eq hb hall]
    · rintro ⟨b, hb, hall⟩
      obtain ⟨hkind, hall⟩ := List.forall_mem_cons.mp hall
      exact .inr ⟨(innermost_eq hb hall).trans hkind.symm, ih.mpr ⟨b, hb, hall⟩⟩

/-! ### Formulas that can be numbered -/

theorem Stands.numberable (h : f.Stands g bs) (hf : f.Numberable ∅ .plain) :
    g.Numberable (inScope bs) (innermost bs) := by
  induction h with
  | root => exact hf
  | negation _ ih =>
    obtain ⟨p, rfl⟩ := ih
    trivial
  | left _ hφ ih => exact (hφ.numberable_iff.mp ih).1
  | right _ hφ ih => exact (hφ.numberable_iff.mp ih).2
  | modal _ hφ ih => exact hφ.numberable_iff.mp ih
  | binder _ hφ ih => exact hφ.numberable_iff.mp ih

theorem Stands.numberable_of_conditions (h : f.Stands g bs) (hbound : f.Bound)
    (hnormal : f.PositiveNormal) (halt : f.AlternationFree) :
    g.Numberable (inScope bs) (innermost bs) := by
  -- on the node and not on where it stands: the conditions are about the whole formula
  induction g using Formula.shapes generalizing bs with
  | leaf φ hφ => cases hφ <;> trivial
  | not g _ => exact hnormal g bs h
  | binary g₁ g₂ φ hφ ih₁ ih₂ =>
    exact hφ.numberable_iff.mpr ⟨ih₁ (h.left hφ), ih₂ (h.right hφ)⟩
  | modal a g φ hφ ih => exact hφ.numberable_iff.mpr (ih (h.modal hφ))
  | binder x k g φ hφ ih => exact hφ.numberable_iff.mpr (ih (h.binder hφ))
  | var x =>
    obtain ⟨c, hc, hname⟩ := hbound x bs h
    cases hb : nearest x bs with
    | none => exact absurd hname (nearest_eq_none_iff.mp hb c hc)
    | some b => exact mem_inScope_iff.mpr ⟨b, hb, halt x bs h b hb⟩

theorem numberable_iff_conditions :
    f.Numberable ∅ .plain ↔ f.Bound ∧ f.PositiveNormal ∧ f.AlternationFree := by
  constructor
  · intro hf
    have hvar {x : Name} {bs : List Binder} (h : f.Stands (.var x) bs) :=
      mem_inScope_iff.mp (h.numberable hf)
    refine ⟨fun x bs h => ?_, fun g bs h => h.numberable hf, fun x bs h b hb => ?_⟩
    · obtain ⟨b, hb, -⟩ := hvar h
      exact ⟨b, List.mem_of_find?_eq_some hb, by simpa using List.find?_some hb⟩
    · obtain ⟨b', hb', hall⟩ := hvar h
      obtain rfl : b = b' := Option.some.inj (hb.symm.trans hb')
      exact hall
  · rintro ⟨hbound, hnormal, halt⟩
    exact Stands.root.numberable_of_conditions hbound hnormal halt

end Formula

/-! ### Errors -/

/-- A cause fits a node that stands below the given fixpoints. -/
inductive Malformed.Fits (bs : List Binder) : Malformed → Formula → Prop
  | unbound {x} (hx : nearest x bs = none) : Fits bs (.unbound x) (.var x)
  | unboundNegated {x} (hx : nearest x bs = none) : Fits bs (.unbound x) (.not (.var x))
  | negated {x b} (hb : nearest x bs = some b) : Fits bs (.negated x) (.not (.var x))
  | notNormal {g} (hatom : ∀ p, g ≠ .atom p) (hvar : ∀ x, g ≠ .var x) : Fits bs .notNormal (.not g)
  | alternating {x b c} (hb : nearest x bs = some b) (hc : c ∈ between x bs)
      (hkind : c.kind ≠ b.kind) : Fits bs (.alternating x) (.var x)

/-- The node of an error stands in the formula, and its cause fits there. -/
def StructuralError.Blames (e : StructuralError) (f : Formula) : Prop :=
  ∃ bs, f.Stands e.node bs ∧ e.cause.Fits bs e.node

namespace Index

open Formula (IsBinary IsModal IsBinder inScope innermost mem_inScope_iff nearest_eq_none_iff)

/-- A node of `f` is about to be visited: the scopes are those of the fixpoints above it. -/
structure Tracks (f : Formula) (scopes : List Binding) (block : Nat) (kind : BlockKind)
    (n : Numbering) (g : Formula) (bs : List Binder) : Prop where
  stands : f.Stands g bs
  ready : n.Ready scopes block kind
  names : scopes.map (·.name) = bs.map (·.name)
  usable : usable scopes block = inScope bs
  kind_eq : kind = innermost bs

variable {f g g' : Formula} {scopes : List Binding} {block : Nat} {kind k : BlockKind}
  {n : Numbering} {bs : List Binder} {x : Name} {e : StructuralError}

theorem Tracks.operand (h : Tracks f scopes block kind n g bs) (hstands : f.Stands g' bs) :
    Tracks f scopes block kind n g' bs :=
  { h with stands := hstands }

theorem Tracks.enter (h : Tracks f scopes block kind n g bs)
    (hstands : f.Stands g' (⟨x, k⟩ :: bs)) (m : Nat) :
    Tracks f (⟨x, (n.enter block k).1, m⟩ :: scopes) (n.enter block k).1 k
      ((n.enter block k).2.declare x (n.enter block k).1) g' (⟨x, k⟩ :: bs) where
  stands := hstands
  ready := h.ready.inside k x m
  names := by simp [h.names]
  usable := by rw [h.ready.usable_enter, h.usable, h.kind_eq, inScope]
  kind_eq := rfl

theorem Tracks.lookup_eq_none_iff (h : Tracks f scopes block kind n g bs) :
    n.lookup x = none ↔ nearest x bs = none := by
  have hwalk : n.lookup x = none ↔ lookup scopes x = none := by
    rw [← Option.map_eq_none_iff (f := (·.block)), h.ready.sound.lookup_eq,
      Option.map_eq_none_iff]
  have hscopes : lookup scopes x = none ↔ x ∉ scopes.map (·.name) := by
    simp [lookup, List.find?_eq_none]
  have hbinders : nearest x bs = none ↔ x ∉ bs.map (·.name) := by
    simp [nearest_eq_none_iff]
  rw [hwalk, hscopes, hbinders, h.names]

theorem Tracks.blames_var (h : Tracks f scopes block kind n (.var x) bs)
    (he : visit (.var x) block n = .error e) : e.Blames f := by
  simp only [visit, reference] at he
  split at he
  · rename_i hnone
    obtain rfl := Except.error.inj he
    exact ⟨bs, h.stands, .unbound (h.lookup_eq_none_iff.mp hnone)⟩
  · rename_i s hs
    split at he
    · cases he
    · rename_i hblock
      obtain rfl := Except.error.inj he
      have hnot : x ∉ inScope bs := by
        rw [← h.usable]
        rintro ⟨b, hb, hsame⟩
        have hscope := h.ready.sound.lookup_eq x
        rw [hs, hb, Option.map_some, Option.map_some] at hscope
        exact hblock ((Option.some.inj hscope).trans hsame)
      cases hb : nearest x bs with
      | none =>
        rw [h.lookup_eq_none_iff.mpr hb] at hs
        cases hs
      | some b =>
        rw [mem_inScope_iff] at hnot
        push Not at hnot
        obtain ⟨c, hc, hkind⟩ := hnot b hb
        exact ⟨bs, h.stands, .alternating hb hc hkind⟩

theorem Tracks.blames_not (h : Tracks f scopes block kind n (.not g) bs)
    (he : visit (.not g) block n = .error e) : e.Blames f := by
  cases g with
  | atom p => cases he
  | var x =>
    simp only [visit, negation] at he
    split at he
    · rename_i hnone
      obtain rfl := Except.error.inj he
      exact ⟨bs, h.stands, .unboundNegated (h.lookup_eq_none_iff.mp hnone)⟩
    · rename_i s hs
      obtain rfl := Except.error.inj he
      cases hb : nearest x bs with
      | none =>
        rw [h.lookup_eq_none_iff.mpr hb] at hs
        cases hs
      | some b => exact ⟨bs, h.stands, .negated hb⟩
  | _ =>
    obtain rfl := Except.error.inj he
    exact ⟨bs, h.stands, .notNormal (by simp) (by simp)⟩

/-- Whatever error a visit ends with fits a node of the formula. -/
theorem Tracks.blames (h : Tracks f scopes block kind n g bs)
    (he : visit g block n = .error e) : e.Blames f := by
  induction g using Formula.shapes generalizing scopes block kind n bs with
  | leaf φ hφ =>
    rw [visit_leaf hφ] at he
    cases he
  | not g _ => exact h.blames_not he
  | binary g₁ g₂ φ hφ ih₁ ih₂ =>
    rw [visit_binary hφ, binary_eq_error] at he
    rcases he with he | ⟨l, o, hl, he⟩
    · exact ih₁ (h.operand (h.stands.left hφ)) he
    · -- the first operand may have opened blocks, but those above it are as they were
      have hready := (visited_of_visit h.ready hl).ready h.ready
      exact ih₂ { h with stands := h.stands.right hφ, ready := hready } he
  | modal a g φ hφ ih =>
    rw [visit_unary hφ, unary_eq_error] at he
    exact ih (h.operand (h.stands.modal hφ)) he
  | binder x k g φ hφ ih =>
    rw [visit_fixpoint hφ, fixpoint_eq_error] at he
    exact ih (h.enter (h.stands.binder hφ) (n.subs.size + g.size)) he
  | var x => exact h.blames_var he

theorem blames_of_ofFormula (h : ofFormula f = .error e) : e.Blames f := by
  have hstart : Tracks f [] 0 .plain .start f [] := ⟨.root, ready_start, rfl, usable_nil 0, rfl⟩
  rcases Fold.bind_eq_error.mp h with he | ⟨m, -, he⟩
  · exact hstart.blames he
  · cases he

/-- A formula is numbered exactly if its variables are bound, its negations stand above
propositions and its fixpoints do not alternate; in every other case there is an error, which
names a node where this fails. -/
theorem ofFormula_accepts (f : Formula) :
    ((∃ idx, ofFormula f = .ok idx) ↔ f.Bound ∧ f.PositiveNormal ∧ f.AlternationFree) ∧
    ((∃ e, ofFormula f = .error e ∧ e.Blames f) ↔
      ¬ (f.Bound ∧ f.PositiveNormal ∧ f.AlternationFree)) := by
  have haccepts : (∃ idx, ofFormula f = .ok idx) ↔
      f.Bound ∧ f.PositiveNormal ∧ f.AlternationFree := by
    rw [ofFormula_isOk_iff, Formula.numberable_iff_conditions]
  refine ⟨haccepts, ?_⟩
  rw [← haccepts]
  cases h : ofFormula f with
  | error e => simpa using blames_of_ofFormula h
  | ok idx => simp

-- a fixpoint that opens its kind anew does not see the variables of the outer one
example : ofFormula (.mu "X" (.nu "Y" (.mu "Z" (.and (.var "Z") (.var "X"))))) =
    .error ⟨.var "X", .alternating "X"⟩ := by
  rfl

end Index

end MuProc
