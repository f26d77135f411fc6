import MuProc.Proofs.Acceptance
import MuProc.Proofs.Subformulas

/-!
# Nodes, operands and blocks of an index

The nodes of a numbered formula stand in post-order, each refers to its operands by their
numbers, and a variable refers to the nearest fixpoint of its name. Blocks divide the nodes;
an operand lies in the block of its node unless it is a fixpoint that opens a block inside of
it. Where a node stands is said by `Sits`, which counts nodes and knows nothing of scopes and
blocks.
-/

namespace MuProc

namespace Formula

/-- Every node of a formula, each behind its operands and left before right. -/
def postOrder : Formula → List Formula
  | .not f => f.postOrder ++ [.not f]
  | .and f g => f.postOrder ++ g.postOrder ++ [.and f g]
  | .or f g => f.postOrder ++ g.postOrder ++ [.or f g]
  | .box a f => f.postOrder ++ [.box a f]
  | .dia a f => f.postOrder ++ [.dia a f]
  | .mu x f => f.postOrder ++ [.mu x f]
  | .nu x f => f.postOrder ++ [.nu x f]
  | f => [f]

/-- The node `g` stands in `f`. In post-order its nodes have the numbers from `a` on, so `g` itself
has the last of them. Above it stand fixpoints, which are listed from the inside out, each with
its variable and its number. -/
inductive Sits (f : Formula) : (g : Formula) → (a : Nat) → (above : List (Name × Nat)) → Prop
  | root : Sits f f 0 []
  | negation {g a above} (h : Sits f (.not g) a above) : Sits f g a above
  | left {g₁ g₂ φ a above} (h : Sits f φ a above) (hφ : IsBinary g₁ g₂ φ) : Sits f g₁ a above
  | right {g₁ g₂ φ a above} (h : Sits f φ a above) (hφ : IsBinary g₁ g₂ φ) :
      Sits f g₂ (a + g₁.size) above
  | modal {act g φ a above} (h : Sits f φ a above) (hφ : IsModal act g φ) : Sits f g a above
  | binder {x k g φ a above} (h : Sits f φ a above) (hφ : IsBinder x g k φ) :
      Sits f g a ((x, a + g.size) :: above)

/-- The numbers of the operands of a node whose nodes have the numbers from `a` on. -/
def operandNumbers (a : Nat) : Formula → Option Nat × Option Nat
  | .not f | .box _ f | .dia _ f | .mu _ f | .nu _ f => (some (a + f.size - 1), none)
  | .and f g | .or f g => (some (a + f.size - 1), some (a + f.size + g.size - 1))
  | _ => (none, none)

/-- The number of the nearest fixpoint that binds a variable; other nodes have none. -/
def binderNumber (above : List (Name × Nat)) : Formula → Option Nat
  | .var x => above.lookup x
  | _ => none

variable {f φ : Formula} {a i : Nat} {above : List (Name × Nat)}

theorem map_fst_occurrences {S : Type} (L : ModalSystem S) (ρ : Name → Set S) (f : Formula) :
    (occurrences L ρ f).map Prod.fst = f.postOrder := by
  induction f generalizing ρ <;> simp_all [occurrences, postOrder]

/-- Every number belongs to a node. -/
theorem Sits.exists_sits (h : f.Sits φ a above) (hle : a ≤ i) (hlt : i < a + φ.size) :
    ∃ g b above', f.Sits g b above' ∧ i + 1 = b + g.size := by
  induction φ using Formula.shapes generalizing a above with
  | leaf φ hφ => exact ⟨φ, a, above, h, by rw [hφ.size_eq] at *; omega⟩
  | var x => exact ⟨.var x, a, above, h, by simp only [size] at *; omega⟩
  -- the node itself has the last number; a smaller one lies in an operand
  | not g ih =>
    by_cases hi : i < a + g.size
    · exact ih h.negation hle hi
    · exact ⟨.not g, a, above, h, by simp only [size] at *; omega⟩
  | binary g₁ g₂ φ hφ ih₁ ih₂ =>
    by_cases h₁ : i < a + g₁.size
    · exact ih₁ (h.left hφ) hle h₁
    by_cases h₂ : i < a + g₁.size + g₂.size
    · exact ih₂ (h.right hφ) (by omega) h₂
    · exact ⟨φ, a, above, h, by rw [hφ.size_eq] at *; omega⟩
  | modal act g φ hφ ih =>
    by_cases hi : i < a + g.size
    · exact ih (h.modal hφ) hle hi
    · exact ⟨φ, a, above, h, by rw [hφ.size_eq] at *; omega⟩
  | binder x k g φ hφ ih =>
    by_cases hi : i < a + g.size
    · exact ih (h.binder hφ) hle hi
    · exact ⟨φ, a, above, h, by rw [hφ.size_eq] at *; omega⟩

end Formula

namespace Index

open Formula (IsLeaf IsBinary IsModal IsBinder Sits operandNumbers binderNumber size_pos)

variable {n : Layout} {scopes : List Binding} {block a : Nat} {kind k : BlockKind}
  {f g φ : Formula} {x : Name} {above : List (Name × Nat)}

/-! ### Operands of a layout -/

theorem Laid.of_not (h : Laid n scopes block kind (.not g) a) : Laid n scopes block kind g a := by
  cases h with
  | literal hatom _ => exact .leaf (.atom _) hatom
  | leaf hφ _ => cases hφ
  | binary hφ _ _ _ => cases hφ
  | modal hφ _ _ => cases hφ
  | binder hφ _ _ _ => cases hφ

theorem Laid.of_binary {g₁ g₂ : Formula} (h : Laid n scopes block kind φ a)
    (hφ : IsBinary g₁ g₂ φ) :
    Laid n scopes block kind g₁ a ∧ Laid n scopes block kind g₂ (a + g₁.size) := by
  cases hφ <;> cases h with
  | leaf hφ _ => cases hφ
  | binary hφ h₁ h₂ _ =>
    cases hφ
    exact ⟨h₁, h₂⟩
  | modal hφ _ _ => cases hφ
  | binder hφ _ _ _ => cases hφ

theorem Laid.of_modal {act : Name} (h : Laid n scopes block kind φ a) (hφ : IsModal act g φ) :
    Laid n scopes block kind g a := by
  cases hφ <;> cases h with
  | leaf hφ _ => cases hφ
  | binary hφ _ _ _ => cases hφ
  | modal hφ h _ =>
    cases hφ
    exact h
  | binder hφ _ _ _ => cases hφ

theorem Laid.of_binder (h : Laid n scopes block kind φ a) (hφ : IsBinder x g k φ) :
    ∃ inner, Laid n (⟨x, inner, a + g.size⟩ :: scopes) inner k g a ∧
      ∃ s, n.subs[a + g.size]? = some s ∧ s.block = inner := by
  cases hφ <;> cases h with
  | leaf hφ _ => cases hφ
  | binary hφ _ _ _ => cases hφ
  | modal hφ _ _ => cases hφ
  | binder hφ _ h hsub =>
    cases hφ
    exact ⟨_, h, _, hsub, rfl⟩

/-! ### Nodes where they stand -/

/-- A node is laid out below scopes that belong to the fixpoints above it, and these have larger
numbers and lie in the blocks of their scopes. -/
structure Located (n : Layout) (g : Formula) (a : Nat) (above : List (Name × Nat))
    (scopes : List Binding) (block : Nat) (kind : BlockKind) : Prop where
  laid : Laid n scopes block kind g a
  above_eq : above = scopes.map fun s => (s.name, s.binder)
  le_binder : ∀ s ∈ scopes, a + g.size ≤ s.binder
  binder_block : ∀ s ∈ scopes, ∃ t, n.subs[s.binder]? = some t ∧ t.block = s.block

theorem Located.operand {g' : Formula} {b : Nat} (h : Located n g a above scopes block kind)
    (hlaid : Laid n scopes block kind g' b) (hle : b + g'.size ≤ a + g.size) :
    Located n g' b above scopes block kind :=
  ⟨hlaid, h.above_eq, fun s hs => Nat.le_trans hle (h.le_binder s hs), h.binder_block⟩

/-- What stands in a laid out formula is laid out. -/
theorem Laid.located (h : Laid n [] 0 .plain f 0) (hs : f.Sits g a above) :
    ∃ scopes block kind, Located n g a above scopes block kind := by
  induction hs with
  | root => exact ⟨[], 0, .plain, h, rfl, by simp, by simp⟩
  | negation _ ih =>
    obtain ⟨scopes, block, kind, hloc⟩ := ih
    exact ⟨scopes, block, kind, hloc.operand hloc.laid.of_not (by simp only [Formula.size]; omega)⟩
  | left _ hφ ih =>
    obtain ⟨scopes, block, kind, hloc⟩ := ih
    exact ⟨scopes, block, kind, hloc.operand (hloc.laid.of_binary hφ).1
      (by rw [hφ.size_eq]; omega)⟩
  | right _ hφ ih =>
    obtain ⟨scopes, block, kind, hloc⟩ := ih
    exact ⟨scopes, block, kind, hloc.operand (hloc.laid.of_binary hφ).2
      (by rw [hφ.size_eq]; omega)⟩
  | modal _ hφ ih =>
    obtain ⟨scopes, block, kind, hloc⟩ := ih
    exact ⟨scopes, block, kind, hloc.operand (hloc.laid.of_modal hφ) (by rw [hφ.size_eq]; omega)⟩
  | @binder x k g φ a above _ hφ ih =>
    obtain ⟨scopes, block, kind, hloc⟩ := ih
    obtain ⟨inner, hlaid, s, hsub, hblock⟩ := hloc.laid.of_binder hφ
    refine ⟨⟨x, inner, a + g.size⟩ :: scopes, inner, k, hlaid, by simp [hloc.above_eq], ?_, ?_⟩
    · refine List.forall_mem_cons.mpr ⟨Nat.le_refl _, fun t ht => ?_⟩
      have hle := hloc.le_binder t ht
      rw [hφ.size_eq] at hle
      omega
    · exact List.forall_mem_cons.mpr ⟨⟨s, hsub, hblock⟩, hloc.binder_block⟩

theorem lookup_binder (scopes : List Binding) (x : Name) :
    (scopes.map fun s => (s.name, s.binder)).lookup x = (lookup scopes x).map (·.binder) := by
  induction scopes with
  | nil => rfl
  | cons s scopes ih =>
    by_cases hx : s.name = x
    · simp [lookup, hx]
    · have hne : (x == s.name) = false := beq_false_of_ne (Ne.symm hx)
      simpa [lookup, List.lookup_cons, hx, hne] using ih

/-- The operand is in the block of its node, or it is a fixpoint that opened a block there. -/
def Inside (n : Layout) (b : Nat) (t : Subformula) : Prop :=
  t.block = b ∨ (∃ x g k, IsBinder x g k t.node) ∧
    ∃ k, n.heads[t.block]? = some (k, some b)

theorem Laid.inside (h : Laid n scopes block kind φ a) :
    ∃ t, n.subs[a + φ.size - 1]? = some t ∧ Inside n block t := by
  cases h with
  | leaf hφ hsub => exact ⟨_, by simpa [hφ.size_eq] using hsub, .inl rfl⟩
  | literal hatom hsub => exact ⟨_, by simpa [Formula.size] using hsub, .inl rfl⟩
  | binary hφ _ _ hsub => exact ⟨_, by simpa [hφ.size_eq, ← Nat.add_assoc] using hsub, .inl rfl⟩
  | modal hφ _ hsub => exact ⟨_, by simpa [hφ.size_eq, ← Nat.add_assoc] using hsub, .inl rfl⟩
  | binder hφ hopens _ hsub =>
    refine ⟨_, by simpa [hφ.size_eq, ← Nat.add_assoc] using hsub, ?_⟩
    cases hopens with
    | same _ => exact .inl rfl
    | new _ _ _ hhead => exact .inr ⟨⟨_, _, _, hφ⟩, _, hhead⟩
  | var _ _ hsub => exact ⟨_, by simpa [Formula.size] using hsub, .inl rfl⟩

/-- The node of a layout has its number, refers to its operands, and to its binder if it is a
variable. -/
theorem Laid.node (h : Laid n scopes block kind g a) :
    ∃ s, n.subs[a + g.size - 1]? = some s ∧ s.node = g ∧ s.var = a + g.size - 1 ∧
      (s.left, s.right) = operandNumbers a g ∧
      s.binder = binderNumber (scopes.map fun s => (s.name, s.binder)) g ∧
      ∀ j, s.left = some j ∨ s.right = some j → ∃ t, n.subs[j]? = some t ∧ Inside n s.block t := by
  cases h with
  | leaf hφ hsub =>
    refine ⟨_, by simpa [hφ.size_eq] using hsub, rfl, by simp [hφ.size_eq], ?_⟩
    cases hφ <;> exact ⟨rfl, rfl, by simp⟩
  | literal hatom hsub =>
    refine ⟨_, by simpa [Formula.size] using hsub, rfl, by simp [Formula.size],
      by simp [operandNumbers, Formula.size], rfl, fun j hj => ?_⟩
    obtain rfl : a = j := by simpa using hj
    exact ⟨_, hatom, .inl rfl⟩
  | binary hφ hf hg hsub =>
    refine ⟨_, by simpa [hφ.size_eq, ← Nat.add_assoc] using hsub, rfl,
      by simp [hφ.size_eq, ← Nat.add_assoc], by cases hφ <;> rfl, by cases hφ <;> rfl, ?_⟩
    rintro j (hj | hj) <;> obtain rfl := Option.some.inj hj
    · exact hf.inside
    · exact hg.inside
  | modal hφ hf hsub =>
    refine ⟨_, by simpa [hφ.size_eq, ← Nat.add_assoc] using hsub, rfl,
      by simp [hφ.size_eq, ← Nat.add_assoc], by cases hφ <;> rfl, by cases hφ <;> rfl, ?_⟩
    rintro j (hj | hj)
    · obtain rfl := Option.some.inj hj
      exact hf.inside
    · cases hj
  | binder hφ _ hf hsub =>
    refine ⟨_, by simpa [hφ.size_eq, ← Nat.add_assoc] using hsub, rfl,
      by simp [hφ.size_eq, ← Nat.add_assoc], by cases hφ <;> rfl, by cases hφ <;> rfl, ?_⟩
    rintro j (hj | hj)
    · obtain rfl := Option.some.inj hj
      exact hf.inside
    · cases hj
  | var hs _ hsub =>
    refine ⟨_, by simpa [Formula.size] using hsub, rfl, by simp [Formula.size], rfl, ?_, by simp⟩
    rw [binderNumber, lookup_binder, hs]
    rfl

/-! ### The index of a formula -/

/-- The nodes of an index are those of a formula, in post-order, with the right references. -/
structure Numbers (f : Formula) (idx : Index) : Prop where
  size_eq : idx.size = f.size
  root_eq : idx.root = idx.size - 1
  root_node : ∃ s, idx.subs[idx.root]? = some s ∧ s.node = f
  nodes_eq : idx.subs.toList.map (·.node) = f.postOrder
  sits : ∀ i < idx.size, ∃ g a above, f.Sits g a above ∧ i + 1 = a + g.size
  node : ∀ g a above, f.Sits g a above → ∃ s, idx.subs[a + g.size - 1]? = some s ∧ s.node = g ∧
    s.var = a + g.size - 1 ∧ (s.left, s.right) = operandNumbers a g ∧
    s.binder = binderNumber above g
  operand_lt : ∀ (i : Nat) s, idx.subs[i]? = some s →
    ∀ j, s.left = some j ∨ s.right = some j → j < s.var
  binder : ∀ (i : Nat) s x, idx.subs[i]? = some s → s.node = .var x →
    ∃ (b : Nat) (t : Subformula), s.binder = some b ∧ s.var < b ∧ idx.subs[b]? = some t ∧
      t.block = s.block

/-- The blocks of an index divide its nodes, and lie in one another. -/
structure Grouped (idx : Index) : Prop where
  ascending : ∀ B ∈ idx.blocks, B.vars.Pairwise (· < ·)
  disjoint : idx.blocks.toList.Pairwise fun B C => B.vars.Disjoint C.vars
  cover : ∀ v, v < idx.size ↔ ∃ B ∈ idx.blocks, v ∈ B.vars
  mem_vars : ∀ (b : Nat) B, idx.blocks[b]? = some B →
    ∀ v : Nat, v ∈ B.vars ↔ ∃ s, idx.subs[v]? = some s ∧ s.block = b
  number_eq : ∀ (b : Nat) B, idx.blocks[b]? = some B → B.number = b
  parent : ∀ (b : Nat) B, idx.blocks[b]? = some B → b ≠ 0 →
    ∃ (p : Nat) (P : Block), B.parent = some p ∧ p < B.number ∧ idx.blocks[p]? = some P ∧
      P.kind ≠ B.kind
  operand : ∀ (i : Nat) s, idx.subs[i]? = some s → ∀ j : Nat, s.left = some j ∨ s.right = some j →
    ∃ t, idx.subs[j]? = some t ∧ (t.block = s.block ∨ (∃ x g k, IsBinder x g k t.node) ∧
      ∃ B, idx.blocks[t.block]? = some B ∧ B.parent = some s.block)

theorem operandNumbers_lt {j : Nat}
    (h : (operandNumbers a g).1 = some j ∨ (operandNumbers a g).2 = some j) :
    j < a + g.size - 1 := by
  cases g with
  | tt | ff | atom | var => simp [operandNumbers] at h
  | not f | box _ f | dia _ f | mu _ f | nu _ f =>
    have hpos := size_pos f
    simp only [operandNumbers, Option.some.injEq, reduceCtorEq, or_false] at h
    simp only [Formula.size]
    omega
  | and f₁ f₂ | or f₁ f₂ =>
    have hpos₁ := size_pos f₁
    have hpos₂ := size_pos f₂
    simp only [operandNumbers, Option.some.injEq] at h
    simp only [Formula.size]
    omega

/-- Every number belongs to a node that is laid out. -/
theorem Laid.exists_located (h : Laid n [] 0 .plain f 0) (hsize : n.subs.size = f.size) {i : Nat}
    {s : Subformula} (hs : n.subs[i]? = some s) :
    ∃ g a above scopes block kind, Located n g a above scopes block kind ∧ i = a + g.size - 1 := by
  have hi := (Array.getElem?_eq_some_iff.mp hs).1
  obtain ⟨g, a, above, hsits, hlast⟩ :=
    (Sits.root (f := f)).exists_sits (Nat.zero_le i) (by omega)
  obtain ⟨scopes, block, kind, hloc⟩ := h.located hsits
  exact ⟨g, a, above, scopes, block, kind, hloc, by omega⟩

/-- A variable refers to a later node in its own block. -/
theorem Located.binder (h : Located n (.var x) a above scopes block kind) :
    ∃ s, n.subs[a]? = some s ∧ ∃ (b : Nat) (t : Subformula), s.binder = some b ∧ s.var < b ∧
      n.subs[b]? = some t ∧ t.block = s.block := by
  cases h.laid with
  | leaf hφ _ => cases hφ
  | binary hφ _ _ _ => cases hφ
  | modal hφ _ _ => cases hφ
  | binder hφ _ _ _ => cases hφ
  | @var _ _ _ _ _ sc hsc hblock hsub =>
    have hmem := List.mem_of_find?_eq_some hsc
    obtain ⟨t, ht, htb⟩ := h.binder_block sc hmem
    exact ⟨_, hsub, sc.binder, t, rfl, h.le_binder sc hmem, ht, htb.trans hblock⟩

theorem numbers_of_laid (h : Laid n [] 0 .plain f 0) (hsize : n.subs.size = f.size) :
    n.index.Numbers f := by
  have hpos := size_pos f
  refine {
    size_eq := hsize
    root_eq := rfl
    root_node := ?_
    nodes_eq := ?_
    sits := fun i hi => ?_
    node := fun g a above hs => ?_
    operand_lt := fun i s hs j hj => ?_
    binder := fun i s x hs hx => ?_ }
  · obtain ⟨s, hs, hnode, -⟩ := h.node
    refine ⟨s, ?_, hnode⟩
    rwa [Nat.zero_add, ← hsize] at hs
  · -- the order of the numbers is the order in which subformulas are listed with their meaning
    let L : ModalSystem Unit := ⟨fun _ _ => False, fun _ _ _ => False, fun _ _ _ => False⟩
    rw [← Formula.map_fst_occurrences L (fun _ => ∅) f]
    apply List.ext_getElem?
    intro i
    rw [List.getElem?_map, List.getElem?_map, Array.getElem?_toList]
    by_cases hi : i < f.size
    · obtain ⟨s, hs, ρ, hρ⟩ := h.occurrence (L := L) (fun _ => ∅) hi
      rw [Nat.zero_add] at hs
      rw [show n.index.subs[i]? = some s from hs, hρ]
      rfl
    · rw [Array.getElem?_eq_none (by show n.subs.size ≤ i; omega),
        List.getElem?_eq_none (by rw [Formula.length_occurrences]; omega)]
      rfl
  · have hlt : i < 0 + f.size := by rw [← hsize, Nat.zero_add]; exact hi
    exact Sits.root.exists_sits (Nat.zero_le i) hlt
  · obtain ⟨scopes, block, kind, hloc⟩ := h.located hs
    obtain ⟨s, hsub, hnode, hvar, hops, hbinder, -⟩ := hloc.laid.node
    exact ⟨s, hsub, hnode, hvar, hops, hloc.above_eq ▸ hbinder⟩
  · obtain ⟨g, a, above, scopes, block, kind, hloc, rfl⟩ := h.exists_located hsize hs
    obtain ⟨s', hs', -, hvar, hops, -⟩ := hloc.laid.node
    obtain rfl : s = s' := Option.some.inj (hs.symm.trans hs')
    rw [hvar]
    apply operandNumbers_lt
    rwa [← hops]
  · obtain ⟨g, a, above, scopes, block, kind, hloc, rfl⟩ := h.exists_located hsize hs
    obtain ⟨s', hs', hnode, -⟩ := hloc.laid.node
    obtain rfl : s = s' := Option.some.inj (hs.symm.trans hs')
    obtain rfl : g = .var x := hnode.symm.trans hx
    obtain ⟨s', hs', hbinder⟩ := hloc.binder
    obtain rfl : s = s' := Option.some.inj (hs.symm.trans hs')
    exact hbinder

/-! ### The blocks of an index -/

theorem WellFormed.ascending {idx : Index} (h : idx.WellFormed) (b : Nat) :
    (members idx.subs b).Pairwise (· < ·) := by
  have hvars : (idx.subs.toList.map (·.var)).Pairwise (· < ·) := by
    rw [h.map_var]
    exact List.pairwise_lt_range
  exact hvars.sublist (List.filter_sublist.map _)

theorem grouped_of_laid (h : Laid n [] 0 .plain f 0) (hsize : n.subs.size = f.size)
    (hnested : n.Nested) (hwf : n.index.WellFormed) : n.index.Grouped := by
  have hmem {b : Nat} {B : Block} (hB : n.index.blocks[b]? = some B) (v : Nat) :=
    hwf.mem_vars hB (i := v)
  refine {
    ascending := fun B hB => ?_
    disjoint := ?_
    cover := fun v => ⟨fun hv => ?_, ?_⟩
    mem_vars := fun b B hB v => hmem hB v
    number_eq := fun b B hB => ?_
    parent := fun b B hB hb => ?_
    operand := fun i s hs j hj => ?_ }
  · obtain ⟨b, hb⟩ := Array.mem_iff_getElem?.mp hB
    rw [hwf.vars_eq b B hb]
    exact hwf.ascending b
  · rw [List.pairwise_iff_getElem]
    intro b c hb hc hlt v hv hv'
    have hB : n.index.blocks[b]? = some _ := Array.getElem?_eq_getElem hb
    have hC : n.index.blocks[c]? = some _ := Array.getElem?_eq_getElem hc
    obtain ⟨s, hs, rfl⟩ := (hmem hB v).mp hv
    obtain ⟨s', hs', rfl⟩ := (hmem hC v).mp hv'
    obtain rfl : s = s' := Option.some.inj (hs.symm.trans hs')
    exact Nat.lt_irrefl _ hlt
  · have hs : n.index.subs[v]? = some _ := Array.getElem?_eq_getElem hv
    have hB := Array.getElem?_eq_getElem (hwf.block_lt v _ hs)
    exact ⟨_, Array.mem_of_getElem? hB, (hmem hB v).mpr ⟨_, hs, rfl⟩⟩
  · rintro ⟨B, hB, hv⟩
    obtain ⟨b, hb⟩ := Array.mem_iff_getElem?.mp hB
    obtain ⟨s, hs, -⟩ := (hmem hb v).mp hv
    exact (Array.getElem?_eq_some_iff.mp hs).1
  · obtain ⟨hd, -, rfl⟩ := blocks_index.mp hB
    rfl
  · obtain ⟨⟨k, parent⟩, hhead, rfl⟩ := blocks_index.mp hB
    obtain ⟨p, rfl, hlt, k', q, hq, hk⟩ := hnested b k parent hb hhead
    exact ⟨p, _, rfl, hlt, blocks_index.mpr ⟨_, hq, rfl⟩, hk⟩
  · obtain ⟨g, a, above, scopes, block, kind, hloc, rfl⟩ := h.exists_located hsize hs
    obtain ⟨s', hs', -, -, -, -, hops⟩ := hloc.laid.node
    obtain rfl : s = s' := Option.some.inj (hs.symm.trans hs')
    obtain ⟨t, ht, hinside⟩ := hops j hj
    refine ⟨t, ht, hinside.imp_right fun ⟨hbinder, k, hk⟩ => ⟨hbinder, ?_⟩⟩
    exact ⟨_, blocks_index.mpr ⟨_, hk, rfl⟩, rfl⟩

/-- The index of a formula numbers the nodes of the formula in post-order, with references to
operands and binders, and groups them into blocks that lie in one another. -/
theorem ofFormula_numbers (f : Formula) (idx : Index) (h : ofFormula f = .ok idx) :
    idx.Numbers f ∧ idx.Grouped := by
  have hwf := wellFormed_of_ofFormula h
  obtain ⟨n, rfl, hsize, -, hlaid, hnested⟩ := laid_of_ofFormula h
  exact ⟨numbers_of_laid hlaid hsize, grouped_of_laid hlaid hsize hnested hwf⟩

/-- A fixpoint inside one of the other kind, and both bind the same name. -/
theorem ofFormula_numbers_shadowed : ∃ idx, ofFormula (.nu "X" (.and (.box "a" (.var "X"))
      (.mu "X" (.or (.not (.atom "p")) (.dia "" (.var "X")))))) = .ok idx ∧
    idx.Numbers (.nu "X" (.and (.box "a" (.var "X"))
      (.mu "X" (.or (.not (.atom "p")) (.dia "" (.var "X")))))) ∧ idx.Grouped :=
  ⟨_, rfl, ofFormula_numbers _ _ rfl⟩

end Index

end MuProc
