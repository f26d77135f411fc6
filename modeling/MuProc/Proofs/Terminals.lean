import MuProc.Formula.Terminal
import MuProc.Proofs.Iteration

/-!
# Truth at a terminated process

A terminated process is like a node without propositions and links. Its values are
computed block by block, from the last one to the first, and each block ends at the
extremal solution of its equations.
-/

namespace MuProc.Index

open DependencyGraph (Node from_of_le)

/-- A node with nothing to say and nowhere to go. -/
def deadNode : Node :=
  { id := 0, state := { id := 0, process := "", place := .exit }, links := [] }

/-- The right-hand side of subformula `i` at a terminated process. -/
def terminalRhs (idx : Index) (i : Nat) (c : Bits) : Bool :=
  match idx.subs[i]? with
  | some s => deadNode.rule s c fun _ => false
  | none => false

/-- The values that a vector stands for. -/
def bits (val : Array Bool) : Bits :=
  fun j => val.getD j false

variable {idx : Index} {val : Array Bool} {vars : List Nat} {b : Nat} {k : BlockKind}

theorem bits_of_getElem? {i : Nat} {x : Bool} (h : val[i]? = some x) : bits val i = x := by
  rw [bits, Array.getD_eq_getD_getElem?, h, Option.getD_some]

theorem bits_setIfInBounds {i : Nat} (hi : i < val.size) (x : Bool) :
    bits (val.setIfInBounds i x) = Function.update (bits val) i x :=
  getD_setIfInBounds hi x false

theorem eq_of_bits_eq {val' : Array Bool} (hsize : val.size = val'.size)
    (h : bits val = bits val') : val = val' := by
  apply Array.ext hsize
  intro i hi hi'
  have := congrFun h i
  rwa [bits_of_getElem? (Array.getElem?_eq_getElem hi),
    bits_of_getElem? (Array.getElem?_eq_getElem hi')] at this

theorem terminalRhs_of_sub {i : Nat} {s : Subformula} (hs : idx.subs[i]? = some s) (c : Bits) :
    idx.terminalRhs i c = deadNode.rule s c fun _ => false := by
  rw [terminalRhs, hs]

theorem valueAt_eq {i : Nat} {ref : Option Nat} (href : ref = some i) (hi : i < val.size) :
    valueAt val ref = some (Subformula.at ref (bits val)) := by
  subst href
  show val[i]? = some (bits val i)
  rw [bits_of_getElem? (Array.getElem?_eq_getElem hi)]
  exact Array.getElem?_eq_getElem hi

theorem terminalValue_eq (h : idx.WellFormed) (hsize : val.size = idx.size) {i : Nat}
    {s : Subformula} (hs : idx.subs[i]? = some s) :
    terminalValue val s = some (idx.terminalRhs i (bits val)) := by
  have hat {j : Nat} {ref : Option Nat} (hj : From idx.subs s.block j) (href : ref = some j) :
      valueAt val ref = some (Subformula.at ref (bits val)) := by
    obtain ⟨t, ht, -⟩ := hj
    exact valueAt_eq href (hsize.symm ▸ (Array.getElem?_eq_some_iff.mp ht).1)
  have hshaped := h.shaped i s hs
  have hcall : deadNode.onlyCall? = none := rfl
  rw [terminalRhs_of_sub hs, Node.rule, hcall]
  unfold Subformula.Shaped at hshaped
  unfold terminalValue
  cases hnode : s.node with
  | tt => rfl
  | ff => rfl
  | atom p => rfl
  | not f =>
    simp only [hnode] at hshaped
    obtain ⟨p, rfl⟩ := hshaped
    rfl
  | and f g =>
    simp only [hnode] at hshaped
    obtain ⟨l, r, hl, hr, hfl, hfr⟩ := hshaped
    simp only [hat hfl hl, hat hfr hr]
    cases Subformula.at s.left (bits val) <;> rfl
  | or f g =>
    simp only [hnode] at hshaped
    obtain ⟨l, r, hl, hr, hfl, hfr⟩ := hshaped
    simp only [hat hfl hl, hat hfr hr]
    cases Subformula.at s.left (bits val) <;> rfl
  | mu x f =>
    simp only [hnode] at hshaped
    obtain ⟨l, hl, hfl⟩ := hshaped
    exact hat hfl hl
  | nu x f =>
    simp only [hnode] at hshaped
    obtain ⟨l, hl, hfl⟩ := hshaped
    exact hat hfl hl
  | var x =>
    simp only [hnode] at hshaped
    obtain ⟨m, hm, hfm⟩ := hshaped
    exact hat hfm hm
  | box a f => rfl
  | dia a f => rfl

theorem keepsOrder_terminalRhs (h : idx.WellFormed)
    (hvars : ∀ i ∈ vars, ∃ s, idx.subs[i]? = some s ∧ s.block = b) (k : BlockKind) :
    KeepsOrder k (From idx.subs b) idx.terminalRhs vars := by
  intro i hi c c' hcc
  obtain ⟨s, hs, rfl⟩ := hvars i hi
  rw [terminalRhs_of_sub hs, terminalRhs_of_sub hs]
  exact Node.rule_below (h.shaped i s hs) hcc fun _ _ => .rfl

/-! ### Passes -/

section Passes

variable (h : idx.WellFormed) (hvars : ∀ i ∈ vars, ∃ s, idx.subs[i]? = some s ∧ s.block = b)
include h hvars

theorem terminalPass_spec (hsize : val.size = idx.size) :
    ∃ val', idx.terminalPass vars val = some val' ∧ val'.size = idx.size ∧
      bits val' = inPlace idx.terminalRhs vars (bits val) := by
  unfold terminalPass
  induction vars generalizing val with
  | nil => exact ⟨val, rfl, hsize, rfl⟩
  | cons i vars ih =>
    obtain ⟨s, hs, -⟩ := hvars i (List.mem_cons_self ..)
    have hi : i < val.size := hsize.symm ▸ (Array.getElem?_eq_some_iff.mp hs).1
    have hset : (val.setIfInBounds i (idx.terminalRhs i (bits val))).size = idx.size := by
      simpa using hsize
    obtain ⟨val', hval', hsize', hbits⟩ :=
      ih (fun j hj => hvars j (List.mem_cons_of_mem _ hj)) hset
    refine ⟨val', ?_, hsize', ?_⟩
    · rw [List.foldlM_cons, hs]
      simp only [Option.bind_eq_bind, Option.bind_some, terminalValue_eq h hsize hs, write,
        if_pos hi]
      exact hval'
    · rw [hbits, bits_setIfInBounds hi]
      rfl

theorem terminalPasses_spec {c : Bits} {fuel m : Nat} (hsize : val.size = idx.size)
    (happ : Approaches k (From idx.subs b) idx.terminalRhs vars c (bits val))
    (hmoved : inPlace idx.terminalRhs vars (bits val) ≠ bits val →
      m ≤ moved k vars.toFinset (bits val))
    (hfuel : vars.toFinset.card ≤ fuel + m) :
    ∃ val', idx.terminalPasses vars (fuel + 1) val = some val' ∧ val'.size = idx.size ∧
      Approaches k (From idx.subs b) idx.terminalRhs vars c (bits val') ∧
      ∀ i ∈ vars, idx.terminalRhs i (bits val') = bits val' i := by
  have hG := keepsOrder_terminalRhs h hvars k
  induction fuel generalizing val m with
  | zero =>
    obtain ⟨next, hnext, hnsize, hbits⟩ := terminalPass_spec h hvars hsize
    have hfix : inPlace idx.terminalRhs vars (bits val) = bits val := by
      by_contra hne
      have h1 := hmoved hne
      have h2 := happ.moved_lt hG hne
      have h3 := moved_le k vars.toFinset (inPlace idx.terminalRhs vars (bits val))
      omega
    have hsame := eq_of_bits_eq (hnsize.trans hsize.symm) (hbits.trans hfix)
    refine ⟨val, ?_, hsize, happ, solved_of_inPlace_eq hG happ.below_rhs (fun _ hi => hi) hfix⟩
    simp only [terminalPasses, hnext, Option.bind_eq_bind, Option.bind_some, hsame, if_true]
    rfl
  | succ fuel ih =>
    obtain ⟨next, hnext, hnsize, hbits⟩ := terminalPass_spec h hvars hsize
    by_cases hsame : next = val
    · have hfix : inPlace idx.terminalRhs vars (bits val) = bits val := by rw [← hbits, hsame]
      refine ⟨val, ?_, hsize, happ, solved_of_inPlace_eq hG happ.below_rhs (fun _ hi => hi) hfix⟩
      rw [terminalPasses, hnext]
      exact if_pos hsame
    · have hmove : inPlace idx.terminalRhs vars (bits val) ≠ bits val := fun heq =>
        hsame (eq_of_bits_eq (hnsize.trans hsize.symm) (hbits.trans heq))
      have h1 := hmoved hmove
      have h2 := happ.moved_lt hG hmove
      obtain ⟨val', hval', hspec⟩ := ih (m := m + 1) hnsize
        (hbits ▸ happ.pass hG) (fun _ => by rw [hbits]; omega) (by omega)
      refine ⟨val', ?_, hspec⟩
      rw [terminalPasses, hnext]
      exact (if_neg hsame).trans hval'

end Passes

/-! ### Blocks -/

theorem terminalSeed_spec {x : Bool} (hsize : val.size = idx.size)
    (hvars : ∀ i ∈ vars, ∃ s, idx.subs[i]? = some s ∧ s.block = b) :
    ∃ val', vars.foldlM (fun val i => write val i x) val = some val' ∧ val'.size = idx.size ∧
      ∀ i, bits val' i = if i ∈ vars then x else bits val i := by
  induction vars generalizing val with
  | nil => exact ⟨val, rfl, hsize, fun i => by simp⟩
  | cons j vars ih =>
    obtain ⟨s, hs, -⟩ := hvars j (List.mem_cons_self ..)
    have hj : j < val.size := hsize.symm ▸ (Array.getElem?_eq_some_iff.mp hs).1
    have hset : (val.setIfInBounds j x).size = idx.size := by simpa using hsize
    obtain ⟨val', hval', hsize', hbits⟩ :=
      ih hset fun i hi => hvars i (List.mem_cons_of_mem _ hi)
    refine ⟨val', ?_, hsize', fun i => ?_⟩
    · rw [List.foldlM_cons, write, if_pos hj]
      exact hval'
    · rw [hbits, bits_setIfInBounds hj]
      by_cases hij : i = j
      · subst hij
        simp
      · simp [hij]

/-- The blocks from `b` on have their extremal values. -/
structure TerminalFrom (idx : Index) (b : Nat) (c : Bits) : Prop where
  solved : ∀ i, From idx.subs b i → idx.terminalRhs i c = c i
  least : ∀ (b' : Nat) B, b ≤ b' → idx.blocks[b']? = some B → ∀ p : Bits,
    (∀ j, From idx.subs (b' + 1) j → p j = c j) →
    (∀ i ∈ B.vars, B.kind.Below (idx.terminalRhs i p) (p i)) →
    ∀ i, From idx.subs b' i → B.kind.Below (c i) (p i)

theorem terminalRhs_congr (h : idx.WellFormed) {i : Nat} {s : Subformula}
    (hs : idx.subs[i]? = some s) {c c' : Bits} (hc : ∀ j, From idx.subs s.block j → c j = c' j) :
    idx.terminalRhs i c = idx.terminalRhs i c' := by
  rw [terminalRhs_of_sub hs, terminalRhs_of_sub hs]
  exact Node.rule_congr (h.shaped i s hs) hc fun _ _ => rfl

/-- Solving a block at a terminated process leaves the later ones solved. -/
theorem terminalBlock_spec (h : idx.WellFormed) {B : Block} (hB : idx.blocks[b]? = some B)
    (hsize : val.size = idx.size) (hval : idx.TerminalFrom (b + 1) (bits val)) :
    ∃ val', idx.terminalBlock val B = some val' ∧ val'.size = idx.size ∧
      idx.TerminalFrom b (bits val') := by
  have hmem {i : Nat} : i ∈ B.vars ↔ ∃ s, idx.subs[i]? = some s ∧ s.block = b := h.mem_vars hB
  have hvars (i : Nat) (hi : i ∈ B.vars) := hmem.mp hi
  obtain ⟨seeded, hseeded, hssize, hsbits⟩ :=
    terminalSeed_spec (x := decide (B.kind = .greatest)) hsize hvars
  have hseed {i : Nat} (hi : i ∈ B.vars) : bits seeded i = B.kind.seed := by
    rw [hsbits, if_pos hi]
    rfl
  have hcard : B.vars.toFinset.card ≤ B.vars.length + 0 := B.vars.toFinset_card_le
  obtain ⟨val', hval', hsize', happ, hsolved⟩ := terminalPasses_spec h hvars (k := B.kind) hssize
    (.refl fun i hi => by rw [hseed hi]; exact BlockKind.seed_below _ _)
    (fun _ => Nat.zero_le _) hcard
  have hnot {i : Nat} (hi : From idx.subs (b + 1) i) : i ∉ B.vars := by
    intro hmem'
    obtain ⟨s, hs, hsb⟩ := hvars i hmem'
    obtain ⟨t, ht, hlt⟩ := hi
    obtain rfl : s = t := Option.some.inj (hs.symm.trans ht)
    omega
  have hlater (i : Nat) (hi : From idx.subs (b + 1) i) : bits val' i = bits val i := by
    rw [happ.frame i (hnot hi), hsbits, if_neg (hnot hi)]
  have hcase {i : Nat} (hi : From idx.subs b i) : i ∈ B.vars ∨ From idx.subs (b + 1) i := by
    obtain ⟨s, hs, hle⟩ := hi
    by_cases hsb : s.block = b
    · exact .inl (hmem.mpr ⟨s, hs, hsb⟩)
    · exact .inr ⟨s, hs, by omega⟩
  refine ⟨val', ?_, hsize', fun i hi => ?_, fun b' B' hle hB' p hp hrhs i hi => ?_⟩
  · simp only [terminalBlock, hseeded, Option.bind_eq_bind, Option.bind_some]
    exact hval'
  · rcases hcase hi with hi | hi
    · exact hsolved i hi
    · obtain ⟨s, hs, hle⟩ := hi
      rw [terminalRhs_congr h hs fun j hj => hlater j (from_of_le hle hj), hlater i ⟨s, hs, hle⟩]
      exact hval.solved i ⟨s, hs, hle⟩
  · rcases Nat.eq_or_lt_of_le hle with rfl | hlt
    · obtain rfl : B = B' := Option.some.inj (hB.symm.trans hB')
      refine happ.least p hrhs (fun j hj => ?_) i hi
      rcases hcase hj with hj | hj
      · rw [hseed hj]
        exact BlockKind.seed_below _ _
      · rw [hp j hj, happ.frame j (hnot hj)]
        exact .rfl
    · rw [hlater i (from_of_le hlt hi)]
      refine hval.least b' B' hlt hB' p (fun j hj => ?_) hrhs i hi
      rw [hp j hj, hlater j (from_of_le (Nat.le_succ_of_le hlt) hj)]

/-- The truth of all subformulas at a terminated process can be computed, and every block
has its extremal solution. -/
theorem terminal?_spec (h : idx.WellFormed) :
    ∃ l, idx.terminal? = some l ∧ l.length = idx.size ∧
      idx.TerminalFrom 0 fun j => l.getD j false := by
  obtain ⟨val, hval, hsize, hsolved⟩ := Fold.foldlM_some (l := idx.blocks.toList.reverse)
    (P := fun m val => val.size = idx.size ∧ idx.TerminalFrom (idx.blocks.size - m) (bits val))
    (f := idx.terminalBlock) (b := Array.replicate idx.size false)
    ⟨by simp, fun i hi => absurd hi (h.not_from (Nat.le_refl _)),
      fun b' B hle _ p _ _ i hi => absurd hi (h.not_from hle)⟩ (by
      rintro m B val hB ⟨hsize, hval⟩
      obtain ⟨hm, hblock⟩ := blocks_reverse hB
      have hnum : idx.blocks.size - m = idx.blocks.size - (m + 1) + 1 := by omega
      exact terminalBlock_spec h hblock hsize (hnum ▸ hval))
  rw [List.length_reverse, Array.length_toList, Nat.sub_self] at hsolved
  refine ⟨val.toList, ?_, by simpa using hsize, ?_⟩
  · rw [terminal?, hval]
    rfl
  · have hbits : (fun j => val.toList.getD j false) = bits val := by
      funext j
      rw [bits, List.getD_eq_getElem?_getD, Array.getElem?_toList, Array.getD_eq_getD_getElem?]
    rw [hbits]
    exact hsolved

end MuProc.Index
