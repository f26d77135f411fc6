import MuProc.Proofs.Numbering

/-!
# References that wait

While the nodes of a formula are numbered, a variable that refers to a fixpoint around it is
noted, and the number of the fixpoint is filled in when the fixpoint gets one. With the numbers
that the fixpoints around are going to get filled in, a numbering is a layout at every step. The
blocks list their nodes and lie in one another all the time.
-/

namespace MuProc.Index

open Index.Numbering (setBinder noteRef)

/-! ### Pending references -/

/-- The nodes with the numbers of all fixpoints around them. -/
def settle : List Scope → List Binding → Array Subformula → Array Subformula
  | s :: scopes, b :: bs, subs => settle scopes bs (setBinder b.binder s.refs subs)
  | _, _, subs => subs

variable {subs : Array Subformula} {refs : List Nat} {v ref : Nat} {scopes : List Scope}
  {bs : List Binding} {x : Name}

theorem setBinder_cons : setBinder v (ref :: refs) subs =
    setBinder v refs (subs.modify ref fun s => { s with binder := some v }) :=
  rfl

theorem setBinder_append : setBinder v (refs ++ [ref]) subs =
    (setBinder v refs subs).modify ref fun s => { s with binder := some v } :=
  List.foldl_append

theorem size_setBinder (v : Nat) (refs : List Nat) (subs : Array Subformula) :
    (setBinder v refs subs).size = subs.size := by
  induction refs generalizing subs with
  | nil => rfl
  | cons ref refs ih => rw [setBinder_cons, ih, Array.size_modify]

theorem push_modify {α : Type} {xs : Array α} {i : Nat} {f : α → α} {y : α} (hi : i < xs.size) :
    (xs.push y).modify i f = (xs.modify i f).push y := by
  apply Array.ext_getElem?
  intro j
  simp only [Array.getElem?_modify, Array.getElem?_push, Array.size_modify]
  split
  · next hij => rw [if_neg (by omega), if_neg (by omega)]
  · rfl

theorem push_modify_last {α : Type} {xs : Array α} {f : α → α} {y : α} :
    (xs.push y).modify xs.size f = xs.push (f y) := by
  apply Array.ext_getElem?
  intro j
  simp only [Array.getElem?_modify, Array.getElem?_push]
  by_cases hj : j = xs.size
  · simp [hj]
  · rw [if_neg (Ne.symm hj), if_neg hj, if_neg hj]

theorem setBinder_push (hrefs : ∀ r ∈ refs, r < subs.size) (t : Subformula) :
    setBinder v refs (subs.push t) = (setBinder v refs subs).push t := by
  induction refs generalizing subs with
  | nil => rfl
  | cons ref refs ih =>
    rw [List.forall_mem_cons] at hrefs
    rw [setBinder_cons, push_modify hrefs.1, ih (by simpa using hrefs.2), setBinder_cons]

theorem size_settle : (settle scopes bs subs).size = subs.size := by
  induction scopes generalizing bs subs with
  | nil => rfl
  | cons s scopes ih =>
    cases bs with
    | nil => rfl
    | cons b bs => rw [settle, ih, size_setBinder]

theorem settle_push (hrefs : ∀ s ∈ scopes, ∀ r ∈ s.refs, r < subs.size) (t : Subformula) :
    settle scopes bs (subs.push t) = (settle scopes bs subs).push t := by
  induction scopes generalizing bs subs with
  | nil => rfl
  | cons s scopes ih =>
    cases bs with
    | nil => rfl
    | cons b bs =>
      rw [List.forall_mem_cons] at hrefs
      rw [settle, settle, setBinder_push hrefs.1]
      exact ih (by simpa [size_setBinder] using hrefs.2)

/-- A node that is noted with a variable refers to the fixpoint of that variable. -/
theorem settle_noteRef {b : Binding} (hnames : scopes.map (·.name) = bs.map (·.name))
    (hrefs : ∀ s ∈ scopes, ∀ r ∈ s.refs, r < subs.size) (hb : lookup bs x = some b)
    (t : Subformula) : settle (noteRef x subs.size scopes) bs (subs.push t) =
      (settle scopes bs subs).push { t with binder := some b.binder } := by
  induction scopes generalizing bs subs with
  | nil =>
    obtain rfl : bs = [] := List.map_eq_nil_iff.mp hnames.symm
    cases hb
  | cons s scopes ih =>
    cases bs with
    | nil => cases hb
    | cons c bs =>
      obtain ⟨hname, hnames⟩ := List.cons.inj hnames
      obtain ⟨hs, hscopes⟩ := List.forall_mem_cons.mp hrefs
      have hscopes' : ∀ s' ∈ scopes, ∀ r ∈ s'.refs, r < (setBinder c.binder s.refs subs).size := by
        rwa [size_setBinder]
      by_cases hx : s.name = x
      · obtain rfl : c = b := by simpa [lookup, ← hname, hx] using hb
        rw [noteRef, if_pos hx, settle, settle, setBinder_append, setBinder_push hs,
          ← size_setBinder c.binder s.refs subs, push_modify_last]
        exact settle_push hscopes' _
      · have hb : lookup bs x = some b := by simpa [lookup, ← hname, hx] using hb
        rw [noteRef, if_neg hx, settle, settle, setBinder_push hs,
          ← size_setBinder c.binder s.refs subs]
        exact ih hnames hscopes' hb

/-! ### Members of blocks -/

/-- The block and the number of each node. -/
def places (subs : Array Subformula) : List (Nat × Nat) :=
  subs.toList.map fun s => (s.block, s.var)

theorem members_eq (subs : Array Subformula) (block : Nat) :
    members subs block = ((places subs).filter (·.1 = block)).map Prod.snd := by
  rw [members, places, List.filter_map, List.map_map]
  rfl

theorem places_push (s : Subformula) :
    places (subs.push s) = places subs ++ [(s.block, s.var)] := by
  rw [places, Array.toList_push, List.map_append]
  rfl

theorem places_setBinder : places (setBinder v refs subs) = places subs := by
  induction refs generalizing subs with
  | nil => rfl
  | cons ref refs ih =>
    rw [setBinder_cons, ih]
    apply List.ext_getElem?
    intro i
    rw [places, places, List.getElem?_map, List.getElem?_map, Array.getElem?_toList,
      Array.getElem?_toList, Array.getElem?_modify]
    split
    · rw [Option.map_map]
      rfl
    · rfl

/-! ### The state of a walk -/

namespace Numbering

def heads (n : Numbering) : Array (BlockKind × Option Nat) :=
  n.blocks.map fun B => (B.kind, B.parent)

/-- The nodes and blocks so far, where the fixpoints in scope have the numbers that `bs` says. -/
def layout (n : Numbering) (bs : List Binding) : Layout :=
  { subs := settle n.scopes bs n.subs, heads := n.heads }

/-- The scopes are those of `bs`, references are to nodes, and the blocks list their nodes and
lie in one another. -/
structure Sound (n : Numbering) (bs : List Binding) : Prop where
  scopes_eq : n.scopes.map (fun s => (s.name, s.block)) = bs.map fun b => (b.name, b.block)
  scope_lt : ∀ b ∈ bs, b.block < n.blocks.size
  refs_lt : ∀ s ∈ n.scopes, ∀ r ∈ s.refs, r < n.subs.size
  place_lt : ∀ p ∈ places n.subs, p.1 < n.blocks.size
  number_eq : ∀ (b : Nat) B, n.blocks[b]? = some B → B.number = b
  vars_eq : ∀ (b : Nat) B, n.blocks[b]? = some B → B.vars = members n.subs b
  nested : (n.layout bs).Nested

/-- A formula can be visited in a block of the given kind. -/
structure Ready (n : Numbering) (bs : List Binding) (block : Nat) (kind : BlockKind) : Prop where
  sound : n.Sound bs
  head : (n.blocks[block]?).map (·.kind) = some kind

variable {n m : Numbering} {block : Nat} {kind k : BlockKind} {φ : Formula} {b : Binding}
  {left right : Option Nat}

theorem size_layout (n : Numbering) (bs : List Binding) :
    (n.layout bs).subs.size = n.subs.size :=
  size_settle

theorem heads_eq_some_iff {i : Nat} {parent : Option Nat} :
    n.heads[i]? = some (k, parent) ↔
      ∃ B, n.blocks[i]? = some B ∧ B.kind = k ∧ B.parent = parent := by
  simp [heads]

theorem Ready.kind_eq (h : n.Ready bs block kind) : n.kind block = kind := by
  obtain ⟨B, hB, hkind⟩ := Option.map_eq_some_iff.mp h.head
  rw [Numbering.kind, hB]
  exact hkind

theorem Ready.block_lt (h : n.Ready bs block kind) : block < n.blocks.size := by
  obtain ⟨B, hB, -⟩ := Option.map_eq_some_iff.mp h.head
  exact (Array.getElem?_eq_some_iff.mp hB).1

theorem heads_add : (n.add φ block kind left right).2.heads = n.heads := by
  apply Array.ext_getElem?
  intro i
  simp only [heads, add, Array.getElem?_map, Array.getElem?_modify]
  split
  · rw [Option.map_map]
    rfl
  · rfl

/-- A node that is added is the last one of its layout, and it is a member of its block. -/
theorem Sound.add (h : n.Sound bs) (hblock : block < n.blocks.size) (φ : Formula)
    (kind : BlockKind) (left right : Option Nat) :
    (n.add φ block kind left right).2.Sound bs ∧
      (n.add φ block kind left right).2.layout bs =
        (n.layout bs).push { node := φ, var := n.subs.size, block, kind, left, right } := by
  have hsize : (n.add φ block kind left right).2.blocks.size = n.blocks.size :=
    Array.size_modify
  have hlayout : (n.add φ block kind left right).2.layout bs =
      (n.layout bs).push { node := φ, var := n.subs.size, block, kind, left, right } := by
    show Layout.mk _ _ = Layout.mk _ _
    rw [heads_add]
    exact congrArg (Layout.mk · n.heads) (settle_push h.refs_lt _)
  have hold {i : Nat} {B : Block} (hB : (n.add φ block kind left right).2.blocks[i]? = some B) :
      ∃ B₀, n.blocks[i]? = some B₀ ∧ B.number = B₀.number ∧
        B.vars = if i = block then B₀.vars ++ [n.subs.size] else B₀.vars := by
    simp only [Numbering.add, Array.getElem?_modify] at hB
    split at hB
    · next hi =>
      obtain ⟨B₀, hB₀, rfl⟩ := Option.map_eq_some_iff.mp hB
      exact ⟨B₀, hB₀, rfl, by rw [if_pos hi.symm]⟩
    · next hi => exact ⟨B, hB, rfl, by rw [if_neg (Ne.symm hi)]⟩
  refine ⟨{
    scopes_eq := h.scopes_eq
    scope_lt := fun b hb => hsize ▸ h.scope_lt b hb
    refs_lt := fun s hs r hr => ?_
    place_lt := fun p hp => ?_
    number_eq := fun i B hB => ?_
    vars_eq := fun i B hB => ?_
    nested := hlayout ▸ h.nested }, hlayout⟩
  · have hlt := h.refs_lt s hs r hr
    simp only [Numbering.add, Array.size_push]
    omega
  · rw [hsize]
    simp only [Numbering.add, places_push, List.mem_append, List.mem_singleton] at hp
    rcases hp with hp | rfl
    · exact h.place_lt p hp
    · exact hblock
  · obtain ⟨B₀, hB₀, hnumber, -⟩ := hold hB
    rw [hnumber, h.number_eq i B₀ hB₀]
  · obtain ⟨B₀, hB₀, -, hvars⟩ := hold hB
    rw [hvars, h.vars_eq i B₀ hB₀]
    simp only [Numbering.add, members_eq, places_push, List.filter_append, List.map_append]
    by_cases hi : i = block
    · simp [hi]
    · simp [hi, Ne.symm hi]

/-- A variable is in scope in the walk exactly if it is in scope in the layout. -/
theorem Sound.lookup_eq (h : n.Sound bs) (x : Name) :
    (n.lookup x).map (·.block) = (Index.lookup bs x).map (·.block) := by
  have hpairs := congrArg (fun l => (l.find? (·.1 = x)).map Prod.snd) h.scopes_eq
  simp only [List.find?_map, Option.map_map] at hpairs
  exact hpairs

theorem noteRef_eq (x : Name) (v : Nat) (scopes : List Scope) :
    (noteRef x v scopes).map (fun s => (s.name, s.block)) =
      scopes.map fun s => (s.name, s.block) := by
  induction scopes with
  | nil => rfl
  | cons s scopes ih =>
    rw [noteRef]
    split
    · rfl
    · rw [List.map_cons, ih, List.map_cons]

theorem mem_noteRef {s : Scope} {r : Nat} (hs : s ∈ noteRef x v scopes) (hr : r ∈ s.refs) :
    r = v ∨ ∃ s ∈ scopes, r ∈ s.refs := by
  induction scopes with
  | nil => cases hs
  | cons t scopes ih =>
    rw [noteRef] at hs
    split at hs
    · rcases List.mem_cons.mp hs with rfl | hs
      · rcases List.mem_append.mp hr with hr | hr
        · exact .inr ⟨t, List.mem_cons_self .., hr⟩
        · exact .inl (List.mem_singleton.mp hr)
      · exact .inr ⟨s, List.mem_cons_of_mem t hs, hr⟩
    · rcases List.mem_cons.mp hs with rfl | hs
      · exact .inr ⟨s, List.mem_cons_self .., hr⟩
      · exact (ih hs).imp_right fun ⟨s, hs, hr⟩ => ⟨s, List.mem_cons_of_mem t hs, hr⟩

/-- A variable that is noted refers to its fixpoint in the layout. -/
theorem Sound.note (h : n.Sound bs) (hblock : block < n.blocks.size)
    (hb : Index.lookup bs x = some b) (kind : BlockKind) :
    ((n.add (.var x) block kind none none).2.note x n.subs.size).Sound bs ∧
      ((n.add (.var x) block kind none none).2.note x n.subs.size).layout bs =
        (n.layout bs).push {
          node := .var x, var := n.subs.size, block, kind, binder := some b.binder } := by
  obtain ⟨hsound, -⟩ := h.add hblock (.var x) kind none none
  have hnames : n.scopes.map (·.name) = bs.map (·.name) := by
    have hfst := congrArg (List.map Prod.fst) h.scopes_eq
    rwa [List.map_map, List.map_map] at hfst
  have hlayout : ((n.add (.var x) block kind none none).2.note x n.subs.size).layout bs =
      (n.layout bs).push {
        node := .var x, var := n.subs.size, block, kind, binder := some b.binder } := by
    show Layout.mk (settle (noteRef x n.subs.size n.scopes) bs (n.subs.push _))
      (n.add (.var x) block kind none none).2.heads = _
    rw [settle_noteRef hnames h.refs_lt hb, heads_add]
    rfl
  refine ⟨{ hsound with
    scopes_eq := (noteRef_eq ..).trans hsound.scopes_eq
    refs_lt := fun s hs r hr => ?_
    nested := hlayout ▸ h.nested }, hlayout⟩
  rcases mem_noteRef hs hr with rfl | ⟨s, hs, hr⟩
  · simp [Numbering.add, Numbering.note]
  · exact hsound.refs_lt s hs r hr

/-! ### Fixpoints -/

theorem Sound.declare (h : n.Sound bs) (hblock : block < n.blocks.size) (x : Name) (v : Nat) :
    (n.declare x block).Sound (⟨x, block, v⟩ :: bs) ∧
      (n.declare x block).layout (⟨x, block, v⟩ :: bs) = n.layout bs := by
  refine ⟨{
    scopes_eq := congrArg ((x, block) :: ·) h.scopes_eq
    scope_lt := List.forall_mem_cons.mpr ⟨hblock, h.scope_lt⟩
    refs_lt := List.forall_mem_cons.mpr ⟨fun _ hr => absurd hr List.not_mem_nil, h.refs_lt⟩
    place_lt := h.place_lt
    number_eq := h.number_eq
    vars_eq := h.vars_eq
    nested := h.nested }, rfl⟩

theorem heads_openBlock : (n.openBlock block k).heads = n.heads.push (k, some block) := by
  rw [heads, openBlock, Array.map_push]
  rfl

theorem mem_openBlock {i : Nat} {B : Block} (hB : (n.openBlock block k).blocks[i]? = some B) :
    n.blocks[i]? = some B ∨
      i = n.blocks.size ∧ B.number = i ∧ B.vars = [] ∧ B.kind = k ∧ B.parent = some block := by
  simp only [openBlock, Array.getElem?_push] at hB
  split at hB
  · next hi =>
    obtain rfl := Option.some.inj hB
    exact .inr ⟨hi, hi.symm, rfl, rfl, rfl⟩
  · exact .inl hB

theorem Ready.openBlock (h : n.Ready bs block kind) (hne : kind ≠ k) :
    (n.openBlock block k).Sound bs := by
  have hsize : (n.openBlock block k).blocks.size = n.blocks.size + 1 := Array.size_push _
  refine {
    scopes_eq := h.sound.scopes_eq
    scope_lt := fun b hb => hsize ▸ Nat.lt_succ_of_lt (h.sound.scope_lt b hb)
    refs_lt := h.sound.refs_lt
    place_lt := fun p hp => hsize ▸ Nat.lt_succ_of_lt (h.sound.place_lt p hp)
    number_eq := fun i B hB => ?_
    vars_eq := fun i B hB => ?_
    nested := fun i k' parent hi hhead => ?_ }
  · rcases mem_openBlock hB with hB | ⟨-, hnumber, -⟩
    · exact h.sound.number_eq i B hB
    · exact hnumber
  · rcases mem_openBlock hB with hB | ⟨rfl, -, hvars, -⟩
    · exact h.sound.vars_eq i B hB
    · -- no node lies in the new block
      rw [hvars, members_eq, List.filter_eq_nil_iff.mpr, List.map_nil]
      intro p hp
      have hlt := h.sound.place_lt p hp
      simp only [decide_eq_true_eq]
      omega
  · have hkeep {i : Nat} {hd : BlockKind × Option Nat} (hi : n.heads[i]? = some hd) :
        (n.openBlock block k).heads[i]? = some hd := by
      rw [heads_openBlock]
      exact getElem?_push_of_some hi
    have hhead : (n.heads.push (k, some block))[i]? = some (k', parent) := by
      rw [← heads_openBlock]
      exact hhead
    rw [Array.getElem?_push] at hhead
    split at hhead
    · next hlast =>
      obtain ⟨rfl, rfl⟩ := Prod.mk.inj (Option.some.inj hhead)
      obtain ⟨B, hB, hkind⟩ := Option.map_eq_some_iff.mp h.head
      have hblock := heads_eq_some_iff.mpr ⟨B, hB, hkind, rfl⟩
      have hlt := (Array.getElem?_eq_some_iff.mp hblock).1
      exact ⟨block, rfl, hlast ▸ hlt, kind, B.parent, hkeep hblock, hne⟩
    · obtain ⟨p, hp, hlt, k'', q, hq, hk⟩ := h.sound.nested i k' parent hi hhead
      exact ⟨p, hp, hlt, k'', q, hkeep hq, hk⟩

/-- Entering a fixpoint opens its block and numbers nothing. -/
theorem Ready.enter (h : n.Ready bs block kind) (k : BlockKind) :
    (n.enter block k).2.Ready bs (n.enter block k).1 k ∧
      (n.enter block k).2.subs = n.subs ∧
      Grows (n.layout bs) ((n.enter block k).2.layout bs) ∧
      Opens ((n.enter block k).2.layout bs) bs block kind k (n.enter block k).1 := by
  unfold Numbering.enter
  rw [h.kind_eq]
  split
  · next heq => exact ⟨⟨h.sound, heq ▸ h.head⟩, rfl, Grows.refl _, .same heq⟩
  · next hne =>
    have hlast : (n.openBlock block k).heads[n.blocks.size]? = some (k, some block) := by
      rw [heads_openBlock, ← Array.size_map (f := fun B => (B.kind, B.parent)), heads,
        Array.getElem?_push_size]
    obtain ⟨B, hB, hkind, -⟩ := heads_eq_some_iff.mp hlast
    refine ⟨⟨h.openBlock hne, ?_⟩, rfl, ⟨fun _ _ hs => hs, fun i hd hi => ?_⟩,
      .new hne h.block_lt h.sound.scope_lt hlast⟩
    · rw [hB, Option.map_some, hkind]
    · show (n.openBlock block k).heads[i]? = some hd
      rw [heads_openBlock]
      exact getElem?_push_of_some hi

/-- A formula can be visited inside of a fixpoint that was entered. -/
theorem Ready.inside (h : n.Ready bs block kind) (k : BlockKind) (x : Name) (v : Nat) :
    ((n.enter block k).2.declare x (n.enter block k).1).Ready
      (⟨x, (n.enter block k).1, v⟩ :: bs) (n.enter block k).1 k := by
  obtain ⟨henter, -⟩ := h.enter k
  obtain ⟨hdeclare, -⟩ := henter.sound.declare henter.block_lt x v
  exact ⟨hdeclare, henter.head⟩

theorem members_setBinder : members (setBinder v refs subs) block = members subs block := by
  rw [members_eq, members_eq, places_setBinder]

theorem Sound.setBinder (h : n.Sound bs) (v : Nat) (refs : List Nat) :
    Numbering.Sound { n with subs := setBinder v refs n.subs } bs where
  scopes_eq := h.scopes_eq
  scope_lt := h.scope_lt
  refs_lt := fun s hs r hr => by
    rw [size_setBinder]
    exact h.refs_lt s hs r hr
  place_lt := fun p hp => by
    rw [places_setBinder] at hp
    exact h.place_lt p hp
  number_eq := h.number_eq
  vars_eq := fun i B hB => by rw [members_setBinder, h.vars_eq i B hB]
  nested := h.nested

/-- A fixpoint gets the number that was said beforehand, and is the last node of its layout. -/
theorem Sound.leave (h : n.Sound (b :: bs)) (hblock : block < n.blocks.size)
    (hb : b.binder = n.subs.size) (φ : Formula) (kind : BlockKind) (body : Nat) :
    (n.leave φ block kind body).2.Sound bs ∧ (n.leave φ block kind body).2.layout bs =
      (n.layout (b :: bs)).push {
        node := φ, var := n.subs.size, block, kind, left := some body } := by
  obtain ⟨s, scopes, hscopes⟩ : ∃ s scopes, n.scopes = s :: scopes := by
    apply List.exists_cons_of_ne_nil
    intro hnil
    have heq := h.scopes_eq
    rw [hnil] at heq
    cases heq
  have heq := h.scopes_eq
  have hrefs := h.refs_lt
  rw [hscopes] at heq hrefs
  rw [List.forall_mem_cons] at hrefs
  -- the references of the innermost scope leave with it, those of the others stay
  have htail : Numbering.Sound { n with scopes := n.scopes.tail } bs := {
    scopes_eq := by
      rw [hscopes]
      exact (List.cons.inj heq).2
    scope_lt := (List.forall_mem_cons.mp h.scope_lt).2
    refs_lt := by
      rw [hscopes]
      exact hrefs.2
    place_lt := h.place_lt
    number_eq := h.number_eq
    vars_eq := h.vars_eq
    nested := h.nested }
  obtain ⟨hsound, -⟩ := htail.add hblock φ kind (some body) none
  refine ⟨hsound.setBinder n.subs.size _, ?_⟩
  show Layout.mk (settle n.scopes.tail bs (Numbering.setBinder n.subs.size
    ((n.scopes.head?).elim [] (·.refs)) (n.subs.push _)))
    (Numbering.add { n with scopes := n.scopes.tail } φ block kind (some body) none).2.heads = _
  rw [heads_add, layout, hscopes, List.tail_cons, List.head?_cons, Option.elim_some, settle, hb,
    setBinder_push hrefs.1, settle_push (by simpa [size_setBinder] using hrefs.2)]
  rfl

end Numbering

end MuProc.Index
