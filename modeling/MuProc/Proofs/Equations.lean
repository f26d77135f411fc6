import MuProc.Solver.Equation
import MuProc.Proofs.Dependencies
import MuProc.Proofs.Substitutions

/-!
# The meaning of the equations

The values of all nodes are a family of boolean functions. This module says which
value a right-hand side computes from such a family, and that it can be computed.
The inputs that matter for a subformula belong to its own block or to later ones,
and right-hand sides keep that: they relate families that are related there.
-/

namespace MuProc

open Index (From)

/-! ### Directions -/

namespace BlockKind

/-- The value from which the components of a block start. -/
def seed (k : BlockKind) : Bool :=
  decide (k = .greatest)

/-- The order in which the values of a block move: its least element is the seed. -/
def Below (k : BlockKind) (a b : Bool) : Prop :=
  b = k.seed → a = k.seed

variable {k : BlockKind} {a b c : Bool}

theorem below_greatest : greatest.Below a b ↔ b ≤ a := by
  simp [Below, seed, Bool.le_iff_imp]

theorem below_of_ne (hk : k ≠ .greatest) : k.Below a b ↔ a ≤ b := by
  simp only [Below, seed, hk, decide_false]
  cases a <;> cases b <;> simp

protected theorem Below.rfl : k.Below a a :=
  id

theorem Below.trans (h : k.Below a b) (h' : k.Below b c) : k.Below a c :=
  h ∘ h'

theorem Below.antisymm (h : k.Below a b) (h' : k.Below b a) : a = b := by
  by_cases hb : b = k.seed
  · rw [h hb, hb]
  · have ha : a ≠ k.seed := fun ha => hb (h' ha)
    rw [Bool.eq_not_of_ne ha, Bool.eq_not_of_ne hb]

theorem seed_below (k : BlockKind) (b : Bool) : k.Below k.seed b :=
  fun _ => rfl

theorem below_of_monotone {ι : Type} {P : ι → Prop} {F : (ι → Bool) → Bool}
    (hF : ∀ x y, (∀ j, P j → x j ≤ y j) → F x ≤ F y) {x y : ι → Bool}
    (h : ∀ j, P j → k.Below (x j) (y j)) : k.Below (F x) (F y) := by
  by_cases hk : k = .greatest
  · subst hk
    simp only [below_greatest] at h ⊢
    exact hF y x h
  · simp only [below_of_ne hk] at h ⊢
    exact hF x y h

end BlockKind

/-! ### Right-hand sides -/

/-- The values of all subformulas at all nodes, as functions of the inputs. -/
abbrev Family := Nat → Nat → Bits → Bool

/-- The values that an assignment stands for. -/
def Assignment.meaning (sp : Space) (a : Assignment) (v : Nat) : Nat → Bits → Bool :=
  Transformer.meaning sp (a.getD v #[])

namespace DependencyGraph

/-- The value of a subformula at a node, from the values `c` of the other subformulas
there and the values `L` of the links. -/
def Node.rule (n : Node) (s : Subformula) (c : Bits) (L : Link → Bool) : Bool :=
  match n.onlyCall? with
  | some l => L l
  | none =>
    match s.node with
    | .tt => true
    | .ff => false
    | .atom p => n.state.hasProp p
    | .not (.atom p) => !n.state.hasProp p
    | .not _ => false
    | .and _ _ => Subformula.at s.left c && Subformula.at s.right c
    | .or _ _ => Subformula.at s.left c || Subformula.at s.right c
    | .mu _ _ | .nu _ _ => Subformula.at s.left c
    | .var _ => Subformula.at s.binder c
    | .box _ _ => n.links.all L
    | .dia _ _ => n.links.any L

/-- The value of subformula `i` behind a link. -/
def Link.value (sp : Space) (A : Family) (i : Nat) (x : Bits) (l : Link) : Bool :=
  match l.callee? with
  | some u => A u i fun j => A l.target j x
  | none => l.action.meaning sp i fun j => A l.target j x

/-- The right-hand side of subformula `i` at a node and an input; the vector `c` holds
the values at the node itself. -/
def rhs (g : DependencyGraph) (A : Family) (n : Node) (i : Nat) (x c : Bits) : Bool :=
  match g.index.subs[i]? with
  | some s => n.rule s c (Link.value g.space A i x)
  | none => false

theorem rhs_of_sub {g : DependencyGraph} {i : Nat} {s : Subformula}
    (hs : g.index.subs[i]? = some s) (A : Family) (n : Node) (x c : Bits) :
    g.rhs A n i x c = n.rule s c (Link.value g.space A i x) := by
  rw [rhs, hs]

theorem Node.onlyCall?_mem {n : Node} {l : Link} (h : n.onlyCall? = some l) : l ∈ n.links := by
  unfold onlyCall? at h
  split at h
  · rename_i heq
    split at h
    · rw [heq, Option.some.inj h]
      exact List.mem_singleton_self l
    · cases h
  · cases h

theorem all_le {α : Type} {l : List α} {f g : α → Bool} (h : ∀ a ∈ l, f a ≤ g a) :
    l.all f ≤ l.all g := by
  simp only [Bool.le_iff_imp, List.all_eq_true] at h ⊢
  exact fun hf a ha => h a ha (hf a ha)

theorem any_le {α : Type} {l : List α} {f g : α → Bool} (h : ∀ a ∈ l, f a ≤ g a) :
    l.any f ≤ l.any g := by
  simp only [Bool.le_iff_imp, List.any_eq_true] at h ⊢
  rintro ⟨a, ha, hf⟩
  exact ⟨a, ha, h a ha hf⟩

theorem Node.rule_le {n : Node} {s : Subformula} {ref : Nat → Prop} (hs : s.Shaped ref)
    {c c' : Bits} {L L' : Link → Bool} (hc : ∀ j, ref j → c j ≤ c' j)
    (hL : ∀ l ∈ n.links, L l ≤ L' l) : n.rule s c L ≤ n.rule s c' L' := by
  have hat {j : Nat} (hj : ref j) : Subformula.at (some j) c ≤ Subformula.at (some j) c' := hc j hj
  unfold rule
  split
  · rename_i l hl
    exact hL l (onlyCall?_mem hl)
  · unfold Subformula.Shaped at hs
    split
    case h_6 hnode =>
      simp only [hnode] at hs
      obtain ⟨l, r, hl, hr, hrefl, hrefr⟩ := hs
      rw [hl, hr]
      exact inf_le_inf (hat hrefl) (hat hrefr)
    case h_7 hnode =>
      simp only [hnode] at hs
      obtain ⟨l, r, hl, hr, hrefl, hrefr⟩ := hs
      rw [hl, hr]
      exact sup_le_sup (hat hrefl) (hat hrefr)
    case h_8 hnode =>
      simp only [hnode] at hs
      obtain ⟨l, hl, hrefl⟩ := hs
      rw [hl]
      exact hat hrefl
    case h_9 hnode =>
      simp only [hnode] at hs
      obtain ⟨l, hl, hrefl⟩ := hs
      rw [hl]
      exact hat hrefl
    case h_10 hnode =>
      simp only [hnode] at hs
      obtain ⟨b, hb, hrefb⟩ := hs
      rw [hb]
      exact hat hrefb
    case h_11 => exact all_le hL
    case h_12 => exact any_le hL
    all_goals exact le_rfl

/-- A rule reads nothing but the references of its subformula and the links. -/
theorem Node.rule_congr {n : Node} {s : Subformula} {ref : Nat → Prop} (hs : s.Shaped ref)
    {c c' : Bits} {L L' : Link → Bool} (hc : ∀ j, ref j → c j = c' j)
    (hL : ∀ l ∈ n.links, L l = L' l) : n.rule s c L = n.rule s c' L' :=
  le_antisymm (rule_le hs (fun j hj => le_of_eq (hc j hj)) fun l hl => le_of_eq (hL l hl))
    (rule_le hs (fun j hj => le_of_eq (hc j hj).symm) fun l hl => le_of_eq (hL l hl).symm)

theorem Node.rule_below {n : Node} {s : Subformula} {ref : Nat → Prop} (hs : s.Shaped ref)
    {k : BlockKind} {c c' : Bits} {L L' : Link → Bool} (hc : ∀ j, ref j → k.Below (c j) (c' j))
    (hL : ∀ l ∈ n.links, k.Below (L l) (L' l)) : k.Below (n.rule s c L) (n.rule s c' L') := by
  by_cases hk : k = .greatest
  · subst hk
    simp only [BlockKind.below_greatest] at hc hL ⊢
    exact rule_le hs hc hL
  · simp only [BlockKind.below_of_ne hk] at hc hL ⊢
    exact rule_le hs hc hL

/-! ### Related families -/

variable {g : DependencyGraph} {A B : Family} {k : BlockKind} {b : Nat}

/-- A vector in which a component is monotone in the inputs from its block on and
depends on no other input. -/
def Regular (g : DependencyGraph) (c : Nat → Bits → Bool) : Prop :=
  ∀ (i : Nat) s, g.index.subs[i]? = some s →
    ∀ x y, (∀ j, From g.index.subs s.block j → x j ≤ y j) → c i x ≤ c i y

/-- From block `b` on, the components of the first family lie below those of the second
wherever the inputs from their block on do. -/
def Related (g : DependencyGraph) (k : BlockKind) (b : Nat) (A B : Family) : Prop :=
  ∀ v < g.nodes.size, ∀ (i : Nat) s, g.index.subs[i]? = some s → b ≤ s.block →
    ∀ x y, (∀ j, From g.index.subs s.block j → k.Below (x j) (y j)) → k.Below (A v i x) (B v i y)

theorem from_of_le {subs : Array Subformula} {b b' j : Nat} (hb : b ≤ b') (h : From subs b' j) :
    From subs b j := by
  obtain ⟨t, ht, hle⟩ := h
  exact ⟨t, ht, Nat.le_trans hb hle⟩

theorem Regular.below {c : Nat → Bits → Bool} (hc : g.Regular c) {i : Nat} {s : Subformula}
    (hs : g.index.subs[i]? = some s) {x y : Bits}
    (h : ∀ j, From g.index.subs s.block j → k.Below (x j) (y j)) : k.Below (c i x) (c i y) :=
  BlockKind.below_of_monotone (hc i s hs) h

theorem Regular.congr {c : Nat → Bits → Bool} (hc : g.Regular c) {i : Nat} {s : Subformula}
    (hs : g.index.subs[i]? = some s) {x y : Bits}
    (h : ∀ j, From g.index.subs s.block j → x j = y j) : c i x = c i y :=
  le_antisymm (hc i s hs x y fun j hj => le_of_eq (h j hj))
    (hc i s hs y x fun j hj => le_of_eq (h j hj).symm)

theorem related_of_regular (hA : ∀ v, g.Regular (A v))
    (h : ∀ v < g.nodes.size, ∀ i, From g.index.subs b i → ∀ x, k.Below (A v i x) (B v i x)) :
    g.Related k b A B :=
  fun v hv i s hs hb _ y hxy => ((hA v).below hs hxy).trans (h v hv i ⟨s, hs, hb⟩ y)

theorem behind_le {s : Subformula} {ref : Nat → Prop} (hs : s.Shaped ref) (hvar : ref s.var)
    (step : Step) {x y : Bits}
    (h : ∀ j, ref j → x j ≤ y j) : s.behind step x ≤ s.behind step y := by
  unfold Subformula.behind
  unfold Subformula.Shaped at hs
  split
  · rename_i a f hnode
    simp only [hnode] at hs
    obtain ⟨l, hl, href⟩ := hs
    rw [hl]
    split
    · exact h l href
    · exact le_rfl
  · rename_i a f hnode
    simp only [hnode] at hs
    obtain ⟨l, hl, href⟩ := hs
    rw [hl]
    split
    · exact h l href
    · exact le_rfl
  · exact h s.var hvar

section Coherent

variable (hg : g.Coherent) {v i : Nat} {n : Node} {s : Subformula} {x y : Bits}
include hg

theorem Coherent.from_self (hs : g.index.subs[i]? = some s) : From g.index.subs s.block s.var := by
  rw [hg.index.var_eq i s hs]
  exact ⟨s, hs, Nat.le_refl _⟩

theorem Related.link (h : g.Related k b A B) (hn : g.nodes[v]? = some n)
    (hs : g.index.subs[i]? = some s) (hb : b ≤ s.block)
    (hxy : ∀ j, From g.index.subs s.block j → k.Below (x j) (y j)) {l : Link} (hl : l ∈ n.links) :
    k.Below (l.value g.space A i x) (l.value g.space B i y) := by
  have hreads (u : Nat) := hg.reads_lt v n hn l hl u
  have htarget (j : Nat) (hj : From g.index.subs s.block j) :
      k.Below (A l.target j x) (B l.target j y) := by
    obtain ⟨t, ht, hle⟩ := hj
    exact h l.target (hreads _ (.inl rfl)) j t ht (Nat.le_trans hb hle) x y fun j' hj' =>
      hxy j' (from_of_le hle hj')
  unfold Link.value
  split
  · rename_i u hu
    exact h u (hreads u (.inr hu)) i s hs hb _ _ htarget
  · rename_i hcallee
    obtain ⟨-, haction⟩ := hg.action v n hn l hl hcallee
    rw [haction i s hs, haction i s hs]
    exact BlockKind.below_of_monotone
      (fun _ _ => behind_le (hg.index.shaped i s hs) (hg.from_self hs) l.step) htarget

theorem Related.rhs (h : g.Related k b A B) (hn : g.nodes[v]? = some n)
    (hs : g.index.subs[i]? = some s) (hb : b ≤ s.block)
    (hxy : ∀ j, From g.index.subs s.block j → k.Below (x j) (y j)) {c c' : Bits}
    (hc : ∀ j, From g.index.subs s.block j → k.Below (c j) (c' j)) :
    k.Below (g.rhs A n i x c) (g.rhs B n i y c') := by
  rw [rhs_of_sub hs, rhs_of_sub hs]
  exact Node.rule_below (hg.index.shaped i s hs) hc fun l hl => h.link hg hn hs hb hxy hl

theorem rhs_congr (hA : ∀ v, g.Regular (A v))
    (h : ∀ v < g.nodes.size, ∀ i, From g.index.subs b i → A v i = B v i) (hn : g.nodes[v]? = some n)
    (hs : g.index.subs[i]? = some s) (hb : b ≤ s.block) {c c' : Bits}
    (hc : ∀ j, From g.index.subs b j → c j = c' j) : g.rhs A n i x c = g.rhs B n i x c' := by
  have hAB : g.Related .least b A B := related_of_regular hA fun v hv i hi x => by
    rw [h v hv i hi]
    exact .rfl
  have hBA : g.Related .least b B A := fun v hv i t ht hbt x y hxy => by
    rw [← h v hv i ⟨t, ht, hbt⟩]
    exact (hA v).below ht hxy
  refine BlockKind.Below.antisymm (hAB.rhs hg hn hs hb (fun j _ => .rfl) fun j hj => ?_)
    (hBA.rhs hg hn hs hb (fun j _ => .rfl) fun j hj => ?_)
  · rw [hc j (from_of_le hb hj)]
    exact .rfl
  · rw [hc j (from_of_le hb hj)]
    exact .rfl

/-- A right-hand side reads nothing but the nodes behind the links. -/
theorem rhs_eq_of_reads (h : ∀ l ∈ n.links, ∀ u, l.Reads u → A u = B u) (c : Bits) :
    g.rhs A n i x c = g.rhs B n i x c := by
  have hL (l : Link) (hl : l ∈ n.links) : l.value g.space A i x = l.value g.space B i x := by
    unfold Link.value
    rw [h l hl l.target (.inl rfl)]
    split
    · rename_i u hu
      rw [h l hl u (.inr hu)]
    · rfl
  unfold rhs
  split
  · rename_i s hs
    exact Node.rule_congr (hg.index.shaped i s hs) (fun _ _ => rfl) hL
  · rfl

theorem rhs_le_of_regular (hA : ∀ v, g.Regular (A v)) (hn : g.nodes[v]? = some n)
    (hs : g.index.subs[i]? = some s) {c c' : Bits}
    (hxy : ∀ j, From g.index.subs s.block j → x j ≤ y j)
    (hc : ∀ j, From g.index.subs s.block j → c j ≤ c' j) :
    g.rhs A n i x c ≤ g.rhs A n i y c' := by
  have hle (a b : Bool) : BlockKind.least.Below a b ↔ a ≤ b := BlockKind.below_of_ne (by decide)
  have h : g.Related .least 0 A A := related_of_regular hA fun _ _ _ _ _ => .rfl
  rw [← hle]
  exact h.rhs hg hn hs (Nat.zero_le _) (fun j hj => (hle _ _).mpr (hxy j hj))
    fun j hj => (hle _ _).mpr (hc j hj)

end Coherent

/-! ### Computing right-hand sides -/

/-- An assignment of transformers of the space to all nodes. -/
structure ValidAssignment (g : DependencyGraph) (a : Assignment) : Prop where
  size_eq : a.size = g.nodes.size
  valid : ∀ (v : Nat) t, a[v]? = some t → t.Valid g.space

theorem meaning_of_assigned {sp : Space} {a : Assignment} {v : Nat} {t : Transformer}
    (h : a[v]? = some t) : a.meaning sp v = t.meaning sp := by
  rw [Assignment.meaning, Array.getD_eq_getD_getElem?, h, Option.getD_some]

variable {a : Assignment} {v i : Nat} {n : Node} {s : Subformula}

theorem ValidAssignment.getElem? (ha : g.ValidAssignment a) (hv : v < g.nodes.size) :
    ∃ t, a[v]? = some t ∧ t.Valid g.space ∧ a.meaning g.space v = t.meaning g.space := by
  obtain ⟨t, ht⟩ : ∃ t, a[v]? = some t := ⟨_, Array.getElem?_eq_getElem (ha.size_eq.symm ▸ hv)⟩
  exact ⟨t, ht, ha.valid v t ht, meaning_of_assigned ht⟩

theorem linkValue_spec (hg : g.Coherent) (ha : g.ValidAssignment a) (hn : g.nodes[v]? = some n)
    (hi : i < g.space.dim) {l : Link} (hl : l ∈ n.links) :
    ∃ f, linkValue g.space a i l = some f ∧ g.space.Fits f ∧
      ∀ x, g.space.value f x = l.value g.space (a.meaning g.space) i x := by
  have hreads (u : Nat) := hg.reads_lt v n hn l hl u
  obtain ⟨t, ht, htv, htm⟩ := ha.getElem? (hreads l.target (.inl rfl))
  have htrans : ∃ r, linkTransformer a l = some r ∧ r.Valid g.space ∧
      ∀ x, l.value g.space (a.meaning g.space) i x =
        r.meaning g.space i fun j => a.meaning g.space l.target j x := by
    unfold linkTransformer Link.value
    cases hc : l.callee? with
    | none =>
      refine ⟨l.action, ?_, (hg.action v n hn l hl hc).1, fun _ => rfl⟩
      unfold Link.callee? at hc
      cases hcallee : l.callee with
      | none => rfl
      | some w =>
        cases w with
        | ofNat u => simp [hcallee] at hc
        | negSucc u => rfl
    | some u =>
      obtain ⟨r, hr, hrv, hrm⟩ := ha.getElem? (hreads u (.inr hc))
      refine ⟨r, ?_, hrv, fun x => congrFun (congrFun hrm i) _⟩
      unfold Link.callee? at hc
      split at hc
      · rename_i w heq
        obtain rfl := Option.some.inj hc
        simpa only [heq] using hr
      · cases hc
  obtain ⟨r, hr, hrv, hvalue⟩ := htrans
  obtain ⟨f, hf, hfits, -, hfe⟩ := hrv.getElem? hi
  obtain ⟨h, hh, hhf, hhe⟩ := Space.subst_spec hg.space htv hfits
  refine ⟨h, ?_, hhf, fun x => ?_⟩
  · simp [linkValue, behind, hr, hf, ht, hh]
  · rw [hhe, hfe, hvalue, htm]

theorem componentAt_spec (hg : g.Coherent) {c : Transformer} (hc : c.Valid g.space) {j : Nat}
    (hj : From g.index.subs b j) {ref : Option Nat} (href : ref = some j) :
    ∃ f, componentAt c ref = some f ∧ g.space.Fits f ∧
      ∀ x, g.space.value f x = Subformula.at ref fun i => c.meaning g.space i x := by
  obtain ⟨t, ht, -⟩ := hj
  obtain ⟨f, hf, hfits, -, hfe⟩ := hc.getElem? (hg.index_lt ht)
  subst href
  exact ⟨f, hf, hfits, hfe⟩

theorem linkValues_spec {links : List Link} {fs : List Func} {L : Link → Bits → Bool}
    (h : List.Forall₂ (fun l f => g.space.Fits f ∧ ∀ x, g.space.value f x = L l x) links fs) :
    (∀ f ∈ fs, g.space.Fits f) ∧ ∀ x, fs.all (g.space.value · x) = links.all (L · x) ∧
      fs.any (g.space.value · x) = links.any (L · x) := by
  induction h with
  | nil => simp
  | cons hf _ ih =>
    obtain ⟨hfits, hvalues⟩ := ih
    refine ⟨fun f hf' => ?_, fun x => ?_⟩
    · rcases List.mem_cons.mp hf' with rfl | hf'
      · exact hf.1
      · exact hfits f hf'
    · simp only [List.all_cons, List.any_cons, hf.2, hvalues, and_self]

theorem require_some {α : Type} {o : Option α} {r : α} (h : o = some r) : require o = .ok r := by
  rw [h]
  rfl

/-- A right-hand side can be computed, and it is what the rule of the node says. -/
theorem component_spec (hg : g.Coherent) (ha : g.ValidAssignment a) (hn : g.nodes[v]? = some n)
    (hs : g.index.subs[i]? = some s) {c : Transformer} (hc : c.Valid g.space) :
    ∃ f, g.component a n i c = .ok f ∧ g.space.Fits f ∧
      ∀ x, g.space.value f x = g.rhs (a.meaning g.space) n i x fun j => c.meaning g.space j x := by
  have hi := hg.index_lt hs
  have hshaped := hg.index.shaped i s hs
  have hat {j : Nat} {ref : Option Nat} (hj : From g.index.subs s.block j) (href : ref = some j) :=
    componentAt_spec hg hc hj href
  simp only [component, hs, rhs_of_sub hs, Node.rule]
  show ∃ f, (match n.onlyCall? with
    | some l => require (linkValue g.space a i l)
    | none => formulaValue g.space a n i s c) = .ok f ∧ _
  cases hcall : n.onlyCall? with
  | some l =>
    obtain ⟨f, hf, hspec⟩ := linkValue_spec hg ha hn hi (Node.onlyCall?_mem hcall)
    exact ⟨f, require_some hf, hspec⟩
  | none =>
    obtain ⟨fs, hfs, hall⟩ := Fold.mapM_some (l := n.links) (f := linkValue g.space a i)
      (R := fun l f => g.space.Fits f ∧
        ∀ x, g.space.value f x = l.value g.space (a.meaning g.space) i x)
      fun l hl => linkValue_spec hg ha hn hi hl
    obtain ⟨hfits, heval⟩ := linkValues_spec hall
    simp only [formulaValue]
    unfold Subformula.Shaped at hshaped
    cases hnode : s.node with
    | tt => exact ⟨_, rfl, Space.fits_const true, Space.value_const true⟩
    | ff => exact ⟨_, rfl, Space.fits_const false, Space.value_const false⟩
    | atom p => exact ⟨_, rfl, Space.fits_const _, Space.value_const _⟩
    | not f =>
      simp only [hnode] at hshaped
      obtain ⟨p, rfl⟩ := hshaped
      exact ⟨_, rfl, Space.fits_const _, Space.value_const _⟩
    | and f h =>
      simp only [hnode] at hshaped
      obtain ⟨l, r, hl, hr, hfl, hfr⟩ := hshaped
      obtain ⟨p, hp, hpf, hpe⟩ := hat hfl hl
      obtain ⟨q, hq, hqf, hqe⟩ := hat hfr hr
      have hboth : ∀ f ∈ [p, q], g.space.Fits f := by simp [hpf, hqf]
      obtain ⟨hfit, hev⟩ := Space.all_spec hboth
      refine ⟨Func.all [p, q], require_some (by simp [hp, hq]), hfit, fun x => ?_⟩
      simp only [hev, List.all_cons, List.all_nil, Bool.and_true, hpe, hqe]
    | or f h =>
      simp only [hnode] at hshaped
      obtain ⟨l, r, hl, hr, hfl, hfr⟩ := hshaped
      obtain ⟨p, hp, hpf, hpe⟩ := hat hfl hl
      obtain ⟨q, hq, hqf, hqe⟩ := hat hfr hr
      have hboth : ∀ f ∈ [p, q], g.space.Fits f := by simp [hpf, hqf]
      obtain ⟨hfit, hev⟩ := Space.any_spec hboth
      refine ⟨Func.any [p, q], require_some (by simp [hp, hq]), hfit, fun x => ?_⟩
      simp only [hev, List.any_cons, List.any_nil, Bool.or_false, hpe, hqe]
    | mu y f =>
      simp only [hnode] at hshaped
      obtain ⟨l, hl, hfl⟩ := hshaped
      obtain ⟨p, hp, hspec⟩ := hat hfl hl
      exact ⟨p, require_some hp, hspec⟩
    | nu y f =>
      simp only [hnode] at hshaped
      obtain ⟨l, hl, hfl⟩ := hshaped
      obtain ⟨p, hp, hspec⟩ := hat hfl hl
      exact ⟨p, require_some hp, hspec⟩
    | var y =>
      simp only [hnode] at hshaped
      obtain ⟨m, hm, hfm⟩ := hshaped
      obtain ⟨p, hp, hspec⟩ := hat hfm hm
      exact ⟨p, require_some hp, hspec⟩
    | box act f =>
      obtain ⟨hfit, hev⟩ := Space.all_spec hfits
      refine ⟨Func.all fs, require_some (by simp [linkValues, hfs]), hfit, fun x => ?_⟩
      exact (hev x).trans (heval x).1
    | dia act f =>
      obtain ⟨hfit, hev⟩ := Space.any_spec hfits
      refine ⟨Func.any fs, require_some (by simp [linkValues, hfs]), hfit, fun x => ?_⟩
      exact (hev x).trans (heval x).2

end DependencyGraph

end MuProc
