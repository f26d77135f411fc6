import MuProc.Formula.Index

/-!
# Layouts

The nodes of a formula take consecutive numbers, the children before their parent.
`Laid` says which node has which number, block and references, form by form. The shape
of an index follows by induction on the layout.
-/

namespace MuProc

namespace Formula

/-- A form without operands. -/
inductive IsLeaf : Formula → Prop
  | tt : IsLeaf .tt
  | ff : IsLeaf .ff
  | atom (p : Name) : IsLeaf (.atom p)

/-- A conjunction or disjunction of `f` and `g`. -/
inductive IsBinary (f g : Formula) : Formula → Prop
  | and : IsBinary f g (.and f g)
  | or : IsBinary f g (.or f g)

/-- A box or diamond above `f`. -/
inductive IsModal (a : Name) (f : Formula) : Formula → Prop
  | box : IsModal a f (.box a f)
  | dia : IsModal a f (.dia a f)

/-- A fixpoint of the given kind above `f`. -/
inductive IsBinder (x : Name) (f : Formula) : BlockKind → Formula → Prop
  | mu : IsBinder x f .least (.mu x f)
  | nu : IsBinder x f .greatest (.nu x f)

variable {f g φ : Formula} {a x : Name} {k : BlockKind}

theorem size_pos (f : Formula) : 0 < f.size := by
  cases f <;> simp [size]

theorem IsLeaf.size_eq (h : IsLeaf φ) : φ.size = 1 := by
  cases h <;> rfl

theorem IsBinary.size_eq (h : IsBinary f g φ) : φ.size = f.size + g.size + 1 := by
  cases h <;> rfl

theorem IsModal.size_eq (h : IsModal a f φ) : φ.size = f.size + 1 := by
  cases h <;> rfl

theorem IsBinder.size_eq (h : IsBinder x f k φ) : φ.size = f.size + 1 := by
  cases h <;> rfl

/-- Formulas by their shape: forms that are treated alike have one case. -/
@[elab_as_elim]
theorem shapes {motive : Formula → Prop} (leaf : ∀ φ, IsLeaf φ → motive φ)
    (not : ∀ f, motive f → motive (.not f))
    (binary : ∀ f g φ, IsBinary f g φ → motive f → motive g → motive φ)
    (modal : ∀ a f φ, IsModal a f φ → motive f → motive φ)
    (binder : ∀ x k f φ, IsBinder x f k φ → motive f → motive φ)
    (var : ∀ x, motive (.var x)) (φ : Formula) : motive φ := by
  induction φ with
  | tt => exact leaf _ .tt
  | ff => exact leaf _ .ff
  | atom p => exact leaf _ (.atom p)
  | not f ih => exact not f ih
  | and f g ihf ihg => exact binary f g _ .and ihf ihg
  | or f g ihf ihg => exact binary f g _ .or ihf ihg
  | box a f ih => exact modal a f _ .box ih
  | dia a f ih => exact modal a f _ .dia ih
  | mu x f ih => exact binder x .least f _ .mu ih
  | nu x f ih => exact binder x .greatest f _ .nu ih
  | var x => exact var x

end Formula

namespace Index

open Formula (IsLeaf IsBinary IsModal IsBinder size_pos)

/-- A fixpoint above a node: its variable, its block and its number. -/
structure Binding where
  name : Name
  block : Nat
  binder : Nat

def lookup (scopes : List Binding) (x : Name) : Option Binding :=
  scopes.find? (·.name = x)

/-- The nodes of a formula, and the kind and the parent of each block. -/
structure Layout where
  subs : Array Subformula
  heads : Array (BlockKind × Option Nat)

/-- The numbers of the nodes of one block, in ascending order. -/
def members (subs : Array Subformula) (block : Nat) : List Nat :=
  (subs.toList.filter (·.block = block)).map (·.var)

/-- The index that a layout determines: each block lists its nodes, and the root is the last
node. -/
def Layout.index (n : Layout) : Index where
  subs := n.subs
  blocks := n.heads.mapIdx fun b head =>
    { number := b, kind := head.1, parent := head.2, vars := members n.subs b }
  root := n.subs.size - 1

/-- The block of a fixpoint of kind `k` inside `block`: the same one, or a new one with
a larger number than every block around it. -/
inductive Opens (n : Layout) (scopes : List Binding) (block : Nat) (kind k : BlockKind) :
    Nat → Prop
  | same : kind = k → Opens n scopes block kind k block
  | new {inner : Nat} : kind ≠ k → block < inner → (∀ s ∈ scopes, s.block < inner) →
      n.heads[inner]? = some (k, some block) → Opens n scopes block kind k inner

/-- The nodes of a formula have the numbers from `a` on. -/
inductive Laid (n : Layout) : List Binding → Nat → BlockKind → Formula → Nat → Prop
  | leaf {scopes block kind φ a} (hφ : IsLeaf φ)
      (hsub : n.subs[a]? = some { node := φ, var := a, block, kind }) :
      Laid n scopes block kind φ a
  | literal {scopes block kind p a}
      (hatom : n.subs[a]? = some { node := .atom p, var := a, block, kind })
      (hsub : n.subs[a + 1]? =
        some { node := .not (.atom p), var := a + 1, block, kind, left := some a }) :
      Laid n scopes block kind (.not (.atom p)) a
  | binary {scopes block kind f g φ a} (hφ : IsBinary f g φ)
      (hf : Laid n scopes block kind f a) (hg : Laid n scopes block kind g (a + f.size))
      (hsub : n.subs[a + f.size + g.size]? = some {
        node := φ, var := a + f.size + g.size, block, kind,
        left := some (a + f.size - 1), right := some (a + f.size + g.size - 1) }) :
      Laid n scopes block kind φ a
  | modal {scopes block kind act f φ a} (hφ : IsModal act f φ)
      (hf : Laid n scopes block kind f a)
      (hsub : n.subs[a + f.size]? = some {
        node := φ, var := a + f.size, block, kind, left := some (a + f.size - 1) }) :
      Laid n scopes block kind φ a
  | binder {scopes block kind k x f φ inner a} (hφ : IsBinder x f k φ)
      (hopens : Opens n scopes block kind k inner)
      (hf : Laid n (⟨x, inner, a + f.size⟩ :: scopes) inner k f a)
      (hsub : n.subs[a + f.size]? = some {
        node := φ, var := a + f.size, block := inner, kind := k, left := some (a + f.size - 1) }) :
      Laid n scopes block kind φ a
  | var {scopes block kind x a} {s : Binding} (hs : lookup scopes x = some s)
      (hblock : s.block = block)
      (hsub : n.subs[a]? = some {
        node := .var x, var := a, block, kind, binder := some s.binder }) :
      Laid n scopes block kind (.var x) a

/-! ### Larger layouts -/

/-- The nodes and blocks of the first layout are the first ones of the second. -/
structure Grows (n m : Layout) : Prop where
  subs : ∀ (i : Nat) s, n.subs[i]? = some s → m.subs[i]? = some s
  heads : ∀ (b : Nat) h, n.heads[b]? = some h → m.heads[b]? = some h

variable {n m : Layout} {scopes : List Binding} {block a : Nat} {kind : BlockKind} {φ : Formula}

theorem Grows.refl (n : Layout) : Grows n n :=
  ⟨fun _ _ h => h, fun _ _ h => h⟩

theorem Grows.trans {o : Layout} (h : Grows n m) (h' : Grows m o) : Grows n o :=
  ⟨fun i s hs => h'.subs i s (h.subs i s hs), fun b k hk => h'.heads b k (h.heads b k hk)⟩

theorem getElem?_push_of_some {α : Type} {xs : Array α} {i : Nat} {x y : α}
    (h : xs[i]? = some x) : (xs.push y)[i]? = some x := by
  have hi := (Array.getElem?_eq_some_iff.mp h).1
  rw [Array.getElem?_push, if_neg (by omega), h]

def Layout.push (n : Layout) (s : Subformula) : Layout :=
  { n with subs := n.subs.push s }

theorem grows_push (n : Layout) (s : Subformula) : Grows n (n.push s) :=
  ⟨fun _ _ => getElem?_push_of_some, fun _ _ h => h⟩

theorem subs_push (n : Layout) (s : Subformula) :
    (n.push s).subs[n.subs.size]? = some s := by
  simp [Layout.push]

theorem Opens.grow {k : BlockKind} {inner : Nat} (h : Opens n scopes block kind k inner)
    (hg : Grows n m) : Opens m scopes block kind k inner := by
  cases h with
  | same heq => exact .same heq
  | new hne hlt hscopes hhead => exact .new hne hlt hscopes (hg.heads _ _ hhead)

theorem Laid.grow (h : Laid n scopes block kind φ a) (hg : Grows n m) :
    Laid m scopes block kind φ a := by
  induction h with
  | leaf hφ hsub => exact .leaf hφ (hg.subs _ _ hsub)
  | literal hatom hsub => exact .literal (hg.subs _ _ hatom) (hg.subs _ _ hsub)
  | binary hφ _ _ hsub ihf ihg => exact .binary hφ ihf ihg (hg.subs _ _ hsub)
  | modal hφ _ hsub ih => exact .modal hφ ih (hg.subs _ _ hsub)
  | binder hφ hopens _ hsub ih => exact .binder hφ (hopens.grow hg) ih (hg.subs _ _ hsub)
  | var hs hblock hsub => exact .var hs hblock (hg.subs _ _ hsub)

/-! ### Nested blocks -/

/-- Every block but the first has a parent with a smaller number and another kind. -/
def Layout.Nested (n : Layout) : Prop :=
  ∀ b k parent, b ≠ 0 → n.heads[b]? = some (k, parent) →
    ∃ p, parent = some p ∧ p < b ∧ ∃ k' q, n.heads[p]? = some (k', q) ∧ k' ≠ k

end Index

end MuProc
