import MuProc.Proofs.Visits
import MuProc.Proofs.Spaces
import Mathlib.Data.List.Nodup
import Mathlib.Data.List.Perm.Basic

/-!
# Well-formed indices

The index of a numbered formula refers only to its own nodes, from a block to the
same or to a deeper one, and its blocks list the nodes that lie in them. Its variable
order is a permutation, so there is a space with one input for each node.
-/

namespace MuProc

/-- A node has the references its form needs, and they satisfy a condition. -/
def Subformula.Shaped (ref : Nat → Prop) (s : Subformula) : Prop :=
  match s.node with
  | .tt | .ff | .atom _ => True
  | .not f => ∃ p, f = .atom p
  | .and _ _ | .or _ _ => ∃ l r, s.left = some l ∧ s.right = some r ∧ ref l ∧ ref r
  | .box _ _ | .dia _ _ | .mu _ _ | .nu _ _ => ∃ l, s.left = some l ∧ ref l
  | .var _ => ∃ b, s.binder = some b ∧ ref b

namespace Index

open Formula (IsLeaf IsBinary IsModal IsBinder size_pos)

/-- Number `j` belongs to a node of block `b` or of a later one. -/
def From (subs : Array Subformula) (b j : Nat) : Prop :=
  ∃ t, subs[j]? = some t ∧ b ≤ t.block

/-- An index as numbering makes it. -/
structure WellFormed (idx : Index) : Prop where
  size_pos : 0 < idx.size
  root_lt : idx.root < idx.size
  var_eq : ∀ (i : Nat) s, idx.subs[i]? = some s → s.var = i
  shaped : ∀ (i : Nat) s, idx.subs[i]? = some s → s.Shaped (From idx.subs s.block)
  block_lt : ∀ (i : Nat) s, idx.subs[i]? = some s → s.block < idx.blocks.size
  number_eq : ∀ (b : Nat) B, idx.blocks[b]? = some B → B.number = b
  vars_eq : ∀ (b : Nat) B, idx.blocks[b]? = some B → B.vars = members idx.subs b

variable {n : Layout} {scopes : List Binding} {block a : Nat} {kind : BlockKind} {φ : Formula}

/-! ### The nodes of a layout -/

theorem Laid.root (h : Laid n scopes block kind φ a) :
    ∃ s, n.subs[a + φ.size - 1]? = some s ∧ s.node = φ ∧ block ≤ s.block := by
  cases h with
  | leaf hφ hsub => exact ⟨_, by simpa [hφ.size_eq] using hsub, rfl, Nat.le_refl _⟩
  | literal hatom hsub => exact ⟨_, by simpa [Formula.size] using hsub, rfl, Nat.le_refl _⟩
  | binary hφ _ _ hsub =>
    exact ⟨_, by simpa [hφ.size_eq, ← Nat.add_assoc] using hsub, rfl, Nat.le_refl _⟩
  | modal hφ _ hsub =>
    exact ⟨_, by simpa [hφ.size_eq, ← Nat.add_assoc] using hsub, rfl, Nat.le_refl _⟩
  | binder hφ hopens _ hsub =>
    refine ⟨_, by simpa [hφ.size_eq, ← Nat.add_assoc] using hsub, rfl, ?_⟩
    cases hopens with
    | same => exact Nat.le_refl _
    | new _ hlt => exact Nat.le_of_lt hlt
  | var _ _ hsub => exact ⟨_, by simpa [Formula.size] using hsub, rfl, Nat.le_refl _⟩

theorem Laid.from_root (h : Laid n scopes block kind φ a) :
    From n.subs block (a + φ.size - 1) := by
  obtain ⟨s, hs, -, hblock⟩ := h.root
  exact ⟨s, hs, hblock⟩

theorem Opens.le {k : BlockKind} {inner : Nat} (h : Opens n scopes block kind k inner) :
    block ≤ inner := by
  cases h with
  | same => exact Nat.le_refl _
  | new _ hlt => exact Nat.le_of_lt hlt

/-- A node is in its place, in an existing block from `block` on, and refers from there
to the same or to later blocks. -/
structure Placed (n : Layout) (block i : Nat) (s : Subformula) : Prop where
  sub : n.subs[i]? = some s
  var_eq : s.var = i
  le_block : block ≤ s.block
  block_lt : s.block < n.heads.size
  shaped : s.Shaped (From n.subs s.block)

theorem Placed.of_le {b i : Nat} {s : Subformula} (h : Placed n block i s) (hb : b ≤ block) :
    Placed n b i s :=
  { h with le_block := Nat.le_trans hb h.le_block }

theorem Laid.placed (h : Laid n scopes block kind φ a) (hblock : block < n.heads.size)
    (hscopes : ∀ s ∈ scopes, From n.subs s.block s.binder) {i : Nat} (hle : a ≤ i)
    (hlt : i < a + φ.size) : ∃ s, Placed n block i s := by
  induction h with
  | @leaf scopes block kind φ a hφ hsub =>
    have hi : i = a := by rw [hφ.size_eq] at hlt; omega
    subst hi
    refine ⟨_, hsub, rfl, Nat.le_refl _, hblock, ?_⟩
    cases hφ <;> trivial
  | @literal scopes block kind p a hatom hsub =>
    simp only [Formula.size] at hlt
    obtain rfl | rfl : i = a ∨ i = a + 1 := by omega
    · exact ⟨_, hatom, rfl, Nat.le_refl _, hblock, trivial⟩
    · exact ⟨_, hsub, rfl, Nat.le_refl _, hblock, _, rfl⟩
  | @binary scopes block kind f g φ a hφ hf hg hsub ihf ihg =>
    rw [hφ.size_eq] at hlt
    by_cases h1 : i < a + f.size
    · exact ihf hblock hscopes hle h1
    by_cases h2 : i < a + f.size + g.size
    · exact ihg hblock hscopes (by omega) h2
    · have hi : i = a + f.size + g.size := by omega
      subst hi
      refine ⟨_, hsub, rfl, Nat.le_refl _, hblock, ?_⟩
      have hrefs := And.intro hf.from_root hg.from_root
      cases hφ <;> exact ⟨_, _, rfl, rfl, hrefs⟩
  | @modal scopes block kind act f φ a hφ hf hsub ih =>
    rw [hφ.size_eq] at hlt
    by_cases h1 : i < a + f.size
    · exact ih hblock hscopes hle h1
    · have hi : i = a + f.size := by omega
      subst hi
      refine ⟨_, hsub, rfl, Nat.le_refl _, hblock, ?_⟩
      cases hφ <;> exact ⟨_, rfl, hf.from_root⟩
  | @binder scopes block kind k x f φ inner a hφ hopens hf hsub ih =>
    rw [hφ.size_eq] at hlt
    have hinner : inner < n.heads.size := by
      cases hopens with
      | same => exact hblock
      | new _ _ _ hhead => exact (Array.getElem?_eq_some_iff.mp hhead).1
    by_cases h1 : i < a + f.size
    · obtain ⟨s, hs⟩ := ih hinner (by
        rintro s (_ | ⟨_, hs⟩)
        · exact ⟨_, hsub, Nat.le_refl _⟩
        · exact hscopes s hs) hle h1
      exact ⟨s, hs.of_le hopens.le⟩
    · have hi : i = a + f.size := by omega
      subst hi
      refine ⟨_, hsub, rfl, hopens.le, hinner, ?_⟩
      cases hφ <;> exact ⟨_, rfl, hf.from_root⟩
  | @var scopes block kind x a s hs hsb hsub =>
    have hi : i = a := by simp only [Formula.size] at hlt; omega
    subst hi
    refine ⟨_, hsub, rfl, Nat.le_refl _, hblock, _, rfl, ?_⟩
    obtain ⟨t, ht, htb⟩ := hscopes s (List.mem_of_find?_eq_some hs)
    exact ⟨t, ht, hsb ▸ htb⟩

/-! ### Blocks and scopes -/

/-- The kind of a block, and binders that have their numbers in their blocks. -/
structure Context (n : Layout) (scopes : List Binding) (block : Nat) (kind : BlockKind) :
    Prop where
  head : ∃ parent, n.heads[block]? = some (kind, parent)
  scopes : ∀ s ∈ scopes, From n.subs s.block s.binder

variable {inner : Nat} {k : BlockKind} {x : Name}

theorem lookup_cons {m : Nat} {y : Name} {s : Binding}
    (h : lookup (⟨x, inner, m⟩ :: scopes) y = some s) :
    y = x ∧ s = ⟨x, inner, m⟩ ∨ y ≠ x ∧ lookup scopes y = some s := by
  unfold lookup at h ⊢
  rw [List.find?_cons] at h
  by_cases hy : x = y
  · simp only [hy, decide_true] at h
    exact .inl ⟨hy.symm, hy ▸ (Option.some.inj h).symm⟩
  · simp only [hy, decide_false] at h
    exact .inr ⟨Ne.symm hy, h⟩

theorem Context.enter (h : Context n scopes block kind) (hopens : Opens n scopes block kind k inner)
    {m : Nat} {s : Subformula} (hs : n.subs[m]? = some s) (hsb : s.block = inner) :
    Context n (⟨x, inner, m⟩ :: scopes) inner k := by
  refine ⟨?_, ?_⟩
  · cases hopens with
    | same hk => exact hk ▸ h.head
    | new _ _ _ hhead => exact ⟨_, hhead⟩
  · rintro sc (_ | ⟨_, hsc⟩)
    · exact ⟨s, hs, Nat.le_of_eq hsb.symm⟩
    · exact h.scopes sc hsc

theorem Context.le_block (hctx : Context n scopes block kind) (h : Laid n scopes block kind φ a)
    {i : Nat} {s : Subformula} (hle : a ≤ i) (hlt : i < a + φ.size) (hs : n.subs[i]? = some s) :
    block ≤ s.block := by
  obtain ⟨parent, hhead⟩ := hctx.head
  obtain ⟨t, ht⟩ := h.placed (Array.getElem?_eq_some_iff.mp hhead).1 hctx.scopes hle hlt
  obtain rfl : s = t := Option.some.inj (hs.symm.trans ht.sub)
  exact ht.le_block

/-! ### The index of a formula -/

theorem blocks_index {b : Nat} {B : Block} : n.index.blocks[b]? = some B ↔
    ∃ hd, n.heads[b]? = some hd ∧
      { number := b, kind := hd.1, parent := hd.2, vars := members n.subs b } = B := by
  simp only [Layout.index, Array.getElem?_mapIdx, Option.map_eq_some_iff]

theorem wellFormed_of_ofFormula {f : Formula} {idx : Index} (h : ofFormula f = .ok idx) :
    idx.WellFormed := by
  obtain ⟨n, rfl, hsize, hhead, hlaid, -⟩ := laid_of_ofFormula h
  have hheads := (Array.getElem?_eq_some_iff.mp hhead).1
  have hplaced (i : Nat) (s : Subformula) (hs : n.subs[i]? = some s) : Placed n 0 i s := by
    have hi := (Array.getElem?_eq_some_iff.mp hs).1
    obtain ⟨t, ht⟩ := hlaid.placed hheads (by simp) (Nat.zero_le i) (by omega)
    obtain rfl : s = t := Option.some.inj (hs.symm.trans ht.sub)
    exact ht
  have hblocks (b : Nat) (B : Block) (hB : n.index.blocks[b]? = some B) :
      B.number = b ∧ B.vars = members n.subs b := by
    obtain ⟨hd, -, rfl⟩ := blocks_index.mp hB
    exact ⟨rfl, rfl⟩
  have hpos : 0 < n.subs.size := hsize ▸ size_pos f
  exact {
    size_pos := hpos
    root_lt := Nat.sub_lt hpos Nat.one_pos
    var_eq := fun i s hs => (hplaced i s hs).var_eq
    shaped := fun i s hs => (hplaced i s hs).shaped
    block_lt := fun i s hs => by simpa [Layout.index] using (hplaced i s hs).block_lt
    number_eq := fun b B hB => (hblocks b B hB).1
    vars_eq := fun b B hB => (hblocks b B hB).2 }

theorem blocks_reverse {idx : Index} {m : Nat} {B : Block}
    (h : idx.blocks.toList.reverse[m]? = some B) :
    m < idx.blocks.size ∧ idx.blocks[idx.blocks.size - (m + 1)]? = some B := by
  have hm : m < idx.blocks.size := by simpa using (List.getElem?_eq_some_iff.mp h).1
  refine ⟨hm, ?_⟩
  rw [List.getElem?_reverse (by simpa using hm)] at h
  rw [← h, Array.length_toList, Array.getElem?_toList]
  congr 1
  omega

namespace WellFormed

variable {idx : Index}

theorem not_from (h : idx.WellFormed) {b i : Nat} (hb : idx.blocks.size ≤ b) :
    ¬ From idx.subs b i := by
  rintro ⟨s, hs, hle⟩
  have := h.block_lt i s hs
  omega

theorem map_var (h : idx.WellFormed) : idx.subs.toList.map (·.var) = List.range idx.size := by
  apply List.ext_getElem?
  intro i
  rw [List.getElem?_map, Array.getElem?_toList]
  by_cases hi : i < idx.subs.size
  · have hs := Array.getElem?_eq_getElem hi
    rw [hs, Option.map_some, h.var_eq i _ hs, List.getElem?_range (show i < idx.size from hi)]
  · rw [Array.getElem?_eq_none (by omega), List.getElem?_eq_none (by simp [size]; omega)]
    rfl

theorem mem_vars (h : idx.WellFormed) {b : Nat} {B : Block} (hB : idx.blocks[b]? = some B)
    {i : Nat} : i ∈ B.vars ↔ ∃ s, idx.subs[i]? = some s ∧ s.block = b := by
  rw [h.vars_eq b B hB, members, List.mem_map]
  constructor
  · rintro ⟨s, hs, rfl⟩
    obtain ⟨hmem, hb⟩ := List.mem_filter.mp hs
    obtain ⟨j, hj⟩ := List.mem_iff_getElem?.mp hmem
    rw [Array.getElem?_toList] at hj
    exact ⟨s, h.var_eq j s hj ▸ hj, by simpa using hb⟩
  · rintro ⟨s, hs, hb⟩
    refine ⟨s, List.mem_filter.mpr ⟨?_, by simpa using hb⟩, h.var_eq i s hs⟩
    rw [List.mem_iff_getElem?]
    exact ⟨i, by rwa [Array.getElem?_toList]⟩

/-! ### The variable order -/

theorem arrangement_perm (h : idx.WellFormed) : idx.arrangement.Perm (List.range idx.size) := by
  rw [← h.map_var]
  exact (List.mergeSort_perm _ _).map _

theorem order_lt (h : idx.WellFormed) {m : Nat} (hm : m ∈ idx.order) : m < idx.size := by
  obtain ⟨v, hv, rfl⟩ := List.mem_map.mp hm
  have hperm := h.arrangement_perm
  have hlt := List.idxOf_lt_length_of_mem (hperm.mem_iff.mpr hv)
  rwa [hperm.length_eq, List.length_range] at hlt

theorem nodup_order (h : idx.WellFormed) : idx.order.Nodup := by
  refine List.Nodup.map_on ?_ List.nodup_range
  intro v hv w _ hvw
  exact (List.idxOf_inj (h.arrangement_perm.mem_iff.mpr hv)).mp hvw

end WellFormed

end Index

/-! ### Spaces -/

namespace Space

theorem make_order {idx : Index} (h : idx.WellFormed) (hmax : idx.size ≤ maxDim) :
    ∃ sp, make idx.size (some (idx.order.map Int.ofNat)) = .ok sp := by
  have hlen : idx.order.length = idx.size := by simp [Index.order]
  exact ⟨_, make_of_nodup h.size_pos hmax hlen h.nodup_order fun m hm => h.order_lt hm⟩

end Space

end MuProc
