import MuProc.Proofs.Folds
import MuProc.Proofs.References

/-!
# How a formula is numbered

That a visit of a formula succeeds means that its nodes are laid out behind those that were there
before. The number that a fixpoint is going to get is known when it is entered, since the nodes
inside of it come first. When all is done, no reference waits, so the index is the one of the
layout.
-/

namespace MuProc.Index

open Formula (IsLeaf IsBinary IsModal IsBinder)

variable {f g φ : Formula} {n : Numbering} {bs : List Binding} {block l r : Nat}
  {kind k : BlockKind} {o q : Numbering} {res : Nat × Numbering}

/-! ### Visits of operands -/

section Operands

variable {left right body : Visit} {x : Name} {e : StructuralError}

theorem unary_eq_ok : unary φ body block n = .ok res ↔
    ∃ l o, body block n = .ok (l, o) ∧ o.add φ block (o.kind block) (some l) none = res := by
  simp only [unary, Fold.bind_eq_ok, Prod.exists, pure, Except.pure, Except.ok.injEq]

theorem unary_eq_error : unary φ body block n = .error e ↔ body block n = .error e := by
  simp only [unary, Fold.bind_eq_error, pure, Except.pure, reduceCtorEq, and_false, exists_false,
    or_false]

theorem binary_eq_ok : binary φ left right block n = .ok res ↔
    ∃ l o, left block n = .ok (l, o) ∧ ∃ r q, right block o = .ok (r, q) ∧
      q.add φ block (q.kind block) (some l) (some r) = res := by
  simp only [binary, Fold.bind_eq_ok, Prod.exists, pure, Except.pure, Except.ok.injEq]

theorem binary_eq_error : binary φ left right block n = .error e ↔
    left block n = .error e ∨
      ∃ l o, left block n = .ok (l, o) ∧ right block o = .error e := by
  simp only [binary, Fold.bind_eq_error, Prod.exists, pure, Except.pure, reduceCtorEq, and_false,
    exists_false, or_false]

theorem fixpoint_eq_ok : fixpoint φ k x body block n = .ok res ↔
    ∃ l o, body (n.enter block k).1 ((n.enter block k).2.declare x (n.enter block k).1) =
      .ok (l, o) ∧ o.leave φ (n.enter block k).1 k l = res := by
  simp only [fixpoint, Fold.bind_eq_ok, Prod.exists, pure, Except.pure, Except.ok.injEq]

theorem fixpoint_eq_error : fixpoint φ k x body block n = .error e ↔
    body (n.enter block k).1 ((n.enter block k).2.declare x (n.enter block k).1) = .error e := by
  simp only [fixpoint, Fold.bind_eq_error, pure, Except.pure, reduceCtorEq, and_false,
    exists_false, or_false]

end Operands

theorem visit_leaf (hφ : IsLeaf φ) : visit φ = leaf φ := by
  cases hφ <;> rfl

theorem visit_binary (hφ : IsBinary f g φ) : visit φ = binary φ (visit f) (visit g) := by
  cases hφ <;> rfl

theorem visit_unary {a : Name} (hφ : IsModal a f φ) : visit φ = unary φ (visit f) := by
  cases hφ <;> rfl

theorem visit_fixpoint {x : Name} (hφ : IsBinder x f k φ) :
    visit φ = fixpoint φ k x (visit f) := by
  cases hφ <;> rfl

/-! ### What a visit does -/

/-- What a successful visit of a formula has done. -/
structure Visited (n : Numbering) (bs : List Binding) (block : Nat) (kind : BlockKind)
    (φ : Formula) (res : Nat × Numbering) : Prop where
  sound : res.2.Sound bs
  grows : Grows (n.layout bs) (res.2.layout bs)
  size_eq : res.2.subs.size = n.subs.size + φ.size
  number_eq : res.1 = res.2.subs.size - 1
  laid : Laid (res.2.layout bs) bs block kind φ n.subs.size

theorem Visited.ready (h : Visited n bs block kind φ res) (hn : n.Ready bs block kind) :
    res.2.Ready bs block kind := by
  refine ⟨h.sound, ?_⟩
  obtain ⟨B, hB, hkind⟩ := Option.map_eq_some_iff.mp hn.head
  have hhead := h.grows.heads _ _ (Numbering.heads_eq_some_iff.mpr ⟨B, hB, hkind, rfl⟩)
  obtain ⟨B', hB', hkind', -⟩ := Numbering.heads_eq_some_iff.mp hhead
  rw [hB', Option.map_some, hkind']

/-- The last node of a layout is where it was added. -/
theorem last_push (n : Numbering) (bs : List Binding) (s : Subformula) :
    ((n.layout bs).push s).subs[n.subs.size]? = some s := by
  rw [← Numbering.size_layout n bs]
  exact subs_push ..

theorem size_add (left right : Option Nat) :
    (n.add φ block kind left right).2.subs.size = n.subs.size + 1 :=
  Array.size_push _

theorem visited_leaf (hn : n.Ready bs block kind) (hφ : IsLeaf φ) :
    Visited n bs block kind φ (n.add φ block kind none none) := by
  obtain ⟨hsound, hlayout⟩ := hn.sound.add hn.block_lt φ kind none none
  refine ⟨hsound, ?_, by rw [size_add, hφ.size_eq], by rw [size_add]; rfl, ?_⟩
  · rw [hlayout]
    exact grows_push ..
  · rw [hlayout]
    exact .leaf hφ (last_push ..)

theorem Visited.unary {act : Name} (hn : n.Ready bs block kind) (hφ : IsModal act f φ)
    (hf : Visited n bs block kind f (l, o)) :
    Visited n bs block kind φ (o.add φ block kind (some l) none) := by
  have ho := hf.ready hn
  obtain ⟨hsound, hlayout⟩ := ho.sound.add ho.block_lt φ kind (some l) none
  have hsize : o.subs.size = n.subs.size + f.size := hf.size_eq
  obtain rfl : l = o.subs.size - 1 := hf.number_eq
  refine ⟨hsound, ?_, by rw [size_add, hsize, hφ.size_eq]; rfl, by rw [size_add]; rfl, ?_⟩
  · rw [hlayout]
    exact hf.grows.trans (grows_push ..)
  · rw [hlayout]
    refine .modal hφ (hf.laid.grow (grows_push ..)) ?_
    rw [← hsize]
    exact last_push ..

theorem Visited.binary (hn : n.Ready bs block kind) (hφ : IsBinary f g φ)
    (hf : Visited n bs block kind f (l, o)) (hg : Visited o bs block kind g (r, q)) :
    Visited n bs block kind φ (q.add φ block kind (some l) (some r)) := by
  have hq := hg.ready (hf.ready hn)
  obtain ⟨hsound, hlayout⟩ := hq.sound.add hq.block_lt φ kind (some l) (some r)
  have hleft : o.subs.size = n.subs.size + f.size := hf.size_eq
  have hsize : q.subs.size = n.subs.size + f.size + g.size := hleft ▸ hg.size_eq
  obtain rfl : l = o.subs.size - 1 := hf.number_eq
  obtain rfl : r = q.subs.size - 1 := hg.number_eq
  refine ⟨hsound, ?_, by rw [size_add, hsize, hφ.size_eq]; omega, by rw [size_add]; rfl, ?_⟩
  · rw [hlayout]
    exact (hf.grows.trans hg.grows).trans (grows_push ..)
  · rw [hlayout]
    refine .binary hφ (hf.laid.grow (hg.grows.trans (grows_push ..))) ?_ ?_
    · rw [← hleft]
      exact hg.laid.grow (grows_push ..)
    · rw [← hsize, ← hleft]
      exact last_push ..

/-- The number that is said of a fixpoint is the one that it gets behind the nodes inside of it. -/
theorem Visited.fixpoint {x : Name} (hn : n.Ready bs block kind) (hφ : IsBinder x f k φ)
    (hf : Visited ((n.enter block k).2.declare x (n.enter block k).1)
      (⟨x, (n.enter block k).1, n.subs.size + f.size⟩ :: bs) (n.enter block k).1 k f (l, o)) :
    Visited n bs block kind φ (o.leave φ (n.enter block k).1 k l) := by
  obtain ⟨henter, hsubs, hgrows, hopens⟩ := hn.enter k
  obtain ⟨-, hinside⟩ := henter.sound.declare henter.block_lt x (n.subs.size + f.size)
  have ho := hf.ready (hn.inside k x (n.subs.size + f.size))
  have hsize : o.subs.size = n.subs.size + f.size := by
    rw [← hsubs]
    exact hf.size_eq
  obtain rfl : l = o.subs.size - 1 := hf.number_eq
  obtain ⟨hsound, hlayout⟩ := hf.sound.leave ho.block_lt hsize.symm φ k (o.subs.size - 1)
  have hbody := hf.grows
  rw [hinside] at hbody
  have hlast : (o.leave φ (n.enter block k).1 k (o.subs.size - 1)).2.subs.size =
      o.subs.size + 1 := by
    show (Numbering.setBinder _ _ (o.subs.push _)).size = _
    rw [size_setBinder, Array.size_push]
  refine ⟨hsound, ?_, by rw [hlast, hsize, hφ.size_eq]; rfl, by rw [hlast]; rfl, ?_⟩
  · rw [hlayout]
    exact (hgrows.trans hbody).trans (grows_push ..)
  · rw [hlayout]
    have hlaid := hf.laid.grow (grows_push _ {
      node := φ, var := o.subs.size, block := (n.enter block k).1, kind := k,
      left := some (o.subs.size - 1) })
    refine .binder hφ (hopens.grow (hbody.trans (grows_push ..))) ?_ ?_
    · rw [← hsubs]
      rwa [← hsubs] at hlaid
    · rw [← hsize]
      exact last_push ..

theorem visited_literal (hn : n.Ready bs block kind) (p : Name) :
    Visited n bs block kind (.not (.atom p))
      ((n.add (.atom p) block kind none none).2.add (.not (.atom p)) block kind
        (some n.subs.size) none) := by
  have hatom := visited_leaf hn (.atom p)
  have ho := hatom.ready hn
  obtain ⟨-, hinner⟩ := hn.sound.add hn.block_lt (.atom p) kind none none
  obtain ⟨hsound, hlayout⟩ := ho.sound.add ho.block_lt (.not (.atom p)) kind (some n.subs.size) none
  have hsize : (n.add (.atom p) block kind none none).2.subs.size = n.subs.size + 1 := size_add ..
  refine ⟨hsound, ?_, by rw [size_add, hsize]; rfl, by rw [size_add]; rfl, ?_⟩
  · rw [hlayout]
    exact hatom.grows.trans (grows_push ..)
  · rw [hlayout]
    refine .literal ?_ ?_
    · rw [hinner]
      exact (grows_push ..).subs _ _ (last_push ..)
    · rw [← hsize]
      exact last_push ..

theorem visited_var {x : Name} {b : Binding} (hn : n.Ready bs block kind)
    (hb : lookup bs x = some b) (hblock : b.block = block) :
    Visited n bs block kind (.var x)
      (n.subs.size, (n.add (.var x) block kind none none).2.note x n.subs.size) := by
  obtain ⟨hsound, hlayout⟩ := hn.sound.note hn.block_lt hb kind
  have hsize : ((n.add (.var x) block kind none none).2.note x n.subs.size).subs.size =
      n.subs.size + 1 := Array.size_push _
  refine ⟨hsound, ?_, hsize, by rw [hsize]; rfl, ?_⟩
  · rw [hlayout]
    exact grows_push ..
  · rw [hlayout]
    exact .var hb hblock (last_push ..)

theorem visited_of_visit (hn : n.Ready bs block kind) (h : visit φ block n = .ok res) :
    Visited n bs block kind φ res := by
  -- what the visit of an operand leaves behind is ready for the next visit
  induction φ using Formula.shapes generalizing n bs block kind res with
  | leaf φ hφ =>
    rw [visit_leaf hφ, leaf, hn.kind_eq] at h
    obtain rfl := Except.ok.inj h
    exact visited_leaf hn hφ
  | not f _ =>
    cases f with
    | atom p =>
      have hkind := ((visited_leaf hn (.atom p)).ready hn).kind_eq
      simp only [visit, negation, hn.kind_eq, hkind] at h
      obtain rfl := Except.ok.inj h
      exact visited_literal hn p
    | var x =>
      simp only [visit, negation] at h
      split at h <;> cases h
    | _ => cases h
  | binary f g φ hφ ihf ihg =>
    rw [visit_binary hφ, binary_eq_ok] at h
    obtain ⟨l, o, hf, r, q, hg, rfl⟩ := h
    have hleft := ihf hn hf
    have hright := ihg (hleft.ready hn) hg
    rw [(hright.ready (hleft.ready hn)).kind_eq]
    exact hleft.binary hn hφ hright
  | modal a f φ hφ ih =>
    rw [visit_unary hφ, unary_eq_ok] at h
    obtain ⟨l, o, hf, rfl⟩ := h
    have hbody := ih hn hf
    rw [(hbody.ready hn).kind_eq]
    exact hbody.unary hn hφ
  | binder x k f φ hφ ih =>
    rw [visit_fixpoint hφ, fixpoint_eq_ok] at h
    obtain ⟨l, o, hf, rfl⟩ := h
    -- inside, the variable is bound to the number that is still to come
    exact (ih (hn.inside k x (n.subs.size + f.size)) hf).fixpoint hn hφ
  | var x =>
    have hscope := hn.sound.lookup_eq x
    simp only [visit, reference] at h
    split at h
    · cases h
    · next s hs =>
      rw [hs, Option.map_some] at hscope
      obtain ⟨b, hb, hblock⟩ := Option.map_eq_some_iff.mp hscope.symm
      split at h
      · next hsame =>
        rw [hn.kind_eq] at h
        obtain rfl := Except.ok.inj h
        exact visited_var hn hb (hblock.trans hsame)
      · cases h

/-! ### The index of a formula -/

theorem ready_start : Numbering.start.Ready [] 0 .plain where
  sound := {
    scopes_eq := rfl
    scope_lt := by simp
    refs_lt := by simp [Numbering.start]
    place_lt := by simp [Numbering.start, places]
    number_eq := fun b B hB => by
      cases b with
      | zero => exact Option.some.inj hB ▸ rfl
      | succ b => cases hB
    vars_eq := fun b B hB => by
      cases b with
      | zero => exact Option.some.inj hB ▸ rfl
      | succ b => cases hB
    nested := fun b k parent hb hhead => by
      cases b with
      | zero => exact absurd rfl hb
      | succ b => simp [Numbering.layout, Numbering.heads, Numbering.start] at hhead }
  head := rfl

/-- Without a fixpoint in scope, a numbering is what its layout determines. -/
theorem Numbering.Sound.index_eq (h : n.Sound []) :
    { subs := n.subs, blocks := n.blocks, root := n.subs.size - 1 } = (n.layout []).index := by
  have hscopes : n.scopes = [] := List.map_eq_nil_iff.mp h.scopes_eq
  have hlayout : n.layout [] = { subs := n.subs, heads := n.heads } := by
    rw [Numbering.layout, hscopes]
    rfl
  have hblocks : n.blocks = n.heads.mapIdx fun b head =>
      { number := b, kind := head.1, parent := head.2, vars := members n.subs b } := by
    apply Array.ext_getElem?
    intro b
    rw [Array.getElem?_mapIdx, Numbering.heads, Array.getElem?_map, Option.map_map]
    cases hB : n.blocks[b]? with
    | none => rfl
    | some B =>
      rw [Option.map_some, Function.comp_apply, ← h.vars_eq b B hB, ← h.number_eq b B hB]
  rw [hlayout, Layout.index, ← hblocks]

/-- A numbered formula is laid out from number 0 on, outside of every fixpoint. -/
theorem laid_of_ofFormula {idx : Index} (h : ofFormula f = .ok idx) :
    ∃ n : Layout, idx = n.index ∧ n.subs.size = f.size ∧ n.heads[0]? = some (.plain, none) ∧
      Laid n [] 0 .plain f 0 ∧ n.Nested := by
  simp only [ofFormula, Fold.bind_eq_ok, Prod.exists, pure, Except.pure, Except.ok.injEq] at h
  obtain ⟨root, n, hn, rfl⟩ := h
  have hv := visited_of_visit ready_start hn
  obtain rfl : root = n.subs.size - 1 := hv.number_eq
  have hsize : (n.layout []).subs.size = f.size := by
    rw [Numbering.size_layout]
    exact hv.size_eq.trans (Nat.zero_add _)
  have hhead : (Numbering.start.layout []).heads[0]? = some (.plain, none) := by
    simp [Numbering.layout, Numbering.heads, Numbering.start]
  exact ⟨n.layout [], hv.sound.index_eq, hsize, hv.grows.heads 0 _ hhead, hv.laid,
    hv.sound.nested⟩

theorem size_of_ofFormula {idx : Index} (h : ofFormula f = .ok idx) :
    idx.size = f.size := by
  obtain ⟨n, rfl, hsize, -, -⟩ := laid_of_ofFormula h
  exact hsize

end MuProc.Index
