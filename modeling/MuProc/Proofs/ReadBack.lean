import MuProc.Proofs.Lanes
import Mathlib.Algebra.GroupWithZero.Nat
import Mathlib.Data.List.Perm.Basic

/-!
# Rules read back from a graph

The expansion of a valid system loses no rule and adds none. Following the edges of an entry, and
then the only edge of each position until the exit, spells the rules of the process in their
order. Every state lies in one lane, so a position lies on one chain only, and one edge leads to
it.
-/

namespace MuProc.Graph

/-- State `u` is passed on the way that begins with edge `i` of the entry of process `p` and ends
in its exit. -/
def OnChain (g : Graph) (p : Name) (i u : Nat) : Prop :=
  ∃ v w es e us steps, g.entry? p = some v ∧ g.exit? p = some w ∧ g.out[v]? = some es ∧
    es[i]? = some e ∧ g.Follows w e us steps ∧ u ∈ us

/-- A graph holds the rules of the processes that can be reached, and nothing else. -/
structure ReadsBack (sys : ProcessSystem) (g : Graph) : Prop where
  id_eq : ∀ (k : Nat) s, g.states[k]? = some s → s.id = k
  out_size : g.out.size = g.size
  source_eq : ∀ (k : Nat) es, g.out[k]? = some es → ∀ e ∈ es, e.source = k
  entry_isSome : ∀ p, (g.entry? p).isSome = true ↔ sys.Reaches sys.initial p
  exit_isSome : ∀ p, (g.exit? p).isSome = true ↔ sys.Reaches sys.initial p
  entry_iff : ∀ p v, g.entry? p = some v ↔
    ∃ s, g.states[v]? = some s ∧ s.place = .entry ∧ s.process = p
  exit_iff : ∀ p w, g.exit? p = some w ↔
    ∃ s, g.states[w]? = some s ∧ s.place = .exit ∧ s.process = p
  rules : ∀ p v w, g.entry? p = some v → g.exit? p = some w → ∃ es, g.out[v]? = some es ∧
    List.Forall₂ (fun e r => ∃ us, g.Follows w e us r) es (sys.rules p)
  position : ∀ (u : Nat) s, g.states[u]? = some s → s.place = .position →
    (∃! c : Name × Nat, g.OnChain c.1 c.2 u) ∧ (∃ e, g.out[u]? = some [e]) ∧
      g.edges.countP (·.target = u) = 1
  exit_out : ∀ (w : Nat) s, g.states[w]? = some s → s.place = .exit → g.out[w]? = some []
  entry_in : ∀ (v : Nat) s, g.states[v]? = some s → s.place = .entry → ∀ e ∈ g.edges, e.target ≠ v
  props_entry : ∀ (v : Nat) s, g.states[v]? = some s → s.place = .entry →
    s.props.Perm (sys.props s.process) ∧ s.props.Pairwise fun a b => a.bytes ≤ b.bytes
  props_other : ∀ (v : Nat) s, g.states[v]? = some s → s.place ≠ .entry → s.props = []
  size_eq : ∃ ps : List Name, ps.Nodup ∧ (∀ p, p ∈ ps ↔ sys.Reaches sys.initial p) ∧
    g.size = (ps.map fun p => 2 + ((sys.rules p).map fun r => r.length - 1).sum).sum

theorem pairwise_sorted (l : List Name) :
    (ByteString.sorted l).Pairwise fun a b => a.bytes ≤ b.bytes := by
  have htrans (a b c : Name) (hab : decide (a.bytes ≤ b.bytes) = true)
      (hbc : decide (b.bytes ≤ c.bytes) = true) : decide (a.bytes ≤ c.bytes) = true :=
    decide_eq_true (List.le_trans (of_decide_eq_true hab) (of_decide_eq_true hbc))
  have htotal (a b : Name) : (decide (a.bytes ≤ b.bytes) || decide (b.bytes ≤ a.bytes)) = true := by
    simpa using List.le_total a.bytes b.bytes
  exact (List.pairwise_mergeSort htrans htotal l).imp of_decide_eq_true

variable {sys : ProcessSystem} {g : Graph} {p : Name} {i u v w : Nat} {e : Edge} {us us' : List Nat}
  {steps steps' : List Step} {c : Chain} {l : Lane} {lanes : List Lane} {rules : List Rule}
  {s : State}

/-! ### Chains -/

theorem Follows.out_of_mem (h : g.Follows w e us steps) (hu : u ∈ us) :
    ∃ e', g.out[u]? = some [e'] ∧ e'.source = u := by
  induction h with
  | last => cases hu
  | @next e e' us steps _ hout hsource _ ih =>
    rcases List.mem_cons.mp hu with rfl | hu
    · exact ⟨e', hout, hsource⟩
    · exact ih hu

/-- There is one way to follow an edge, since the last state is no position. -/
theorem Follows.unique (hw : ∀ s, g.states[w]? = some s → s.place ≠ .position)
    (h : g.Follows w e us steps) (h' : g.Follows w e us' steps') : us = us' := by
  induction h generalizing us' steps' with
  | last htarget =>
    cases h' with
    | last => rfl
    | next hstate =>
      obtain ⟨s, hs, hplace⟩ := hstate
      exact absurd hplace (hw s (htarget ▸ hs))
  | next hstate hout _ _ ih =>
    cases h' with
    | last htarget =>
      obtain ⟨s, hs, hplace⟩ := hstate
      exact absurd hplace (hw s (htarget ▸ hs))
    | next _ hout' _ h' =>
      obtain rfl : _ = _ := by simpa using hout.symm.trans hout'
      rw [ih h']

/-- Where the edges of a state lead to. -/
def targets (g : Graph) (k : Nat) : List Nat :=
  (g.out[k]?.getD []).map (·.target)

theorem targets_edges (g : Graph) :
    g.edges.map (·.target) = (List.range g.out.size).flatMap g.targets := by
  have hlists : g.out.toList.map (List.map (·.target)) = (List.range g.out.size).map g.targets := by
    apply List.ext_getElem (by simp)
    intro k hk hk'
    have hlt : k < g.out.size := by simpa using hk
    simp [targets, hlt]
  rw [edges, List.map_flatten, hlists, List.flatMap_def]

theorem Follows.targets_eq (h : g.Follows w e us steps) :
    e.target :: us.flatMap g.targets = us ++ [w] := by
  induction h with
  | last htarget => simp [htarget]
  | @next e e' us steps _ hout _ _ ih =>
    have he : g.targets e.target = [e'.target] := by simp [targets, hout]
    rw [List.flatMap_cons, he, List.singleton_append, ih, List.cons_append]

theorem Lane.LiesIn.targets_perm (h : l.LiesIn sys g rules) :
    (l.numbers.flatMap g.targets).Perm (l.chains.flatMap fun c => c.positions ++ [l.exit]) := by
  have hentry : g.targets l.entry = l.chains.map (·.first.target) := by
    simp [targets, h.out_entry]
  have hexit : g.targets l.exit = [] := by simp [targets, h.out_exit]
  have hchain : l.chains.flatMap (fun c => c.positions ++ [l.exit]) =
      l.chains.flatMap fun c => c.first.target :: c.positions.flatMap g.targets := by
    apply List.flatMap_congr
    intro c hc
    obtain ⟨i, hi⟩ := List.getElem?_of_mem hc
    exact (h.chains i c hi).follows.targets_eq.symm
  rw [Lane.numbers, List.flatMap_cons, List.flatMap_cons, List.flatMap_assoc, hentry, hexit, hchain]
  exact List.map_append_flatMap_perm _ _ _

theorem Lane.LiesIn.position_state (h : l.LiesIn sys g rules) (hc : l.chains[i]? = some c)
    (hu : u ∈ c.positions) : ∃ s, g.states[u]? = some s ∧ s.place = .position ∧
      s.process = l.process ∧ s.rule = i ∧ s.props = [] := by
  obtain ⟨k, hk⟩ := List.getElem?_of_mem hu
  exact ⟨_, (h.chains i c hc).states k u hk, rfl, rfl, rfl, rfl⟩

theorem Lane.LiesIn.length_numbers (h : l.LiesIn sys g rules) :
    l.numbers.length = 2 + (rules.map fun r => r.length - 1).sum := by
  have hchains : l.chains.map (fun c => c.positions.length) =
      l.chains.map fun c => c.rule.length - 1 := by
    apply List.map_congr_left
    intro c hc
    obtain ⟨i, hi⟩ := List.getElem?_of_mem hc
    rw [(h.chains i c hi).follows.length_eq, Nat.add_sub_cancel]
  rw [Lane.numbers, List.length_cons, List.length_cons, List.length_flatMap, hchains, ← h.rules_eq,
    List.map_map]
  exact Nat.add_comm _ 2

theorem Lane.count_targets (l : Lane) (hu : u ≠ l.entry ∧ u ≠ l.exit) :
    (l.chains.flatMap fun c => c.positions ++ [l.exit]).count u = l.numbers.count u := by
  rw [Lane.numbers, List.count_cons_of_ne hu.1.symm, List.count_cons_of_ne hu.2.symm,
    List.count_flatMap, List.count_flatMap]
  refine congrArg List.sum (List.map_congr_left fun c _ => ?_)
  simp [List.count_append, hu.2.symm]

/-! ### Lanes of the whole graph -/

namespace Accounts

variable (h : Accounts sys (lanes.map (·.process)) ∅ [] lanes g)

include h

theorem lies (hl : l ∈ lanes) : l.LiesIn sys g (sys.rules l.process) := by
  have hlies := h.liesIn l hl (Set.notMem_empty _)
  rwa [laidRules, if_pos (List.mem_map_of_mem hl)] at hlies

/-- Every state stands at one place of a lane. -/
theorem state_cases (hs : g.states[v]? = some s) : ∃ l ∈ lanes, s.process = l.process ∧
    (s.place = .entry ∧ v = l.entry ∧ s.props = ByteString.sorted (sys.props l.process) ∨
      s.place = .exit ∧ v = l.exit ∧ s.props = [] ∨
      s.place = .position ∧ s.props = [] ∧
        ∃ (i : Nat) (c : Chain), l.chains[i]? = some c ∧ v ∈ c.positions) := by
  have hv : v ∈ List.range g.size := List.mem_range.mpr (Array.getElem?_eq_some_iff.mp hs).1
  rw [← h.perm.mem_iff, List.append_nil] at hv
  obtain ⟨l, hl, hv⟩ := List.mem_flatMap.mp hv
  have hlies := h.lies hl
  refine ⟨l, hl, ?_⟩
  simp only [Lane.numbers, List.mem_cons, List.mem_flatMap] at hv
  rcases hv with rfl | rfl | ⟨c, hc, hv⟩
  · obtain rfl := Option.some.inj (hlies.entry.symm.trans hs)
    exact ⟨rfl, .inl ⟨rfl, rfl, rfl⟩⟩
  · obtain rfl := Option.some.inj (hlies.exit.symm.trans hs)
    exact ⟨rfl, .inr (.inl ⟨rfl, rfl, rfl⟩)⟩
  · obtain ⟨i, hi⟩ := List.getElem?_of_mem hc
    obtain ⟨t, ht, hplace, hprocess, -, hprops⟩ := hlies.position_state hi hv
    obtain rfl : s = t := Option.some.inj (hs.symm.trans ht)
    exact ⟨hprocess, .inr (.inr ⟨hplace, hprops, i, c, hi, hv⟩)⟩

theorem of_entry (hs : g.states[v]? = some s) (hplace : s.place = .entry) :
    ∃ l ∈ lanes, s.process = l.process ∧ v = l.entry ∧
      s.props = ByteString.sorted (sys.props l.process) := by
  obtain ⟨l, hl, hprocess, hkind⟩ := h.state_cases hs
  simp only [hplace, reduceCtorEq, false_and, true_and, or_false] at hkind
  exact ⟨l, hl, hprocess, hkind⟩

theorem of_exit (hs : g.states[v]? = some s) (hplace : s.place = .exit) :
    ∃ l ∈ lanes, s.process = l.process ∧ v = l.exit := by
  obtain ⟨l, hl, hprocess, hkind⟩ := h.state_cases hs
  simp only [hplace, reduceCtorEq, false_and, false_or, true_and, or_false] at hkind
  exact ⟨l, hl, hprocess, hkind.1⟩

theorem of_position (hs : g.states[v]? = some s) (hplace : s.place = .position) :
    ∃ l ∈ lanes, ∃ (i : Nat) (c : Chain), l.chains[i]? = some c ∧ v ∈ c.positions := by
  obtain ⟨l, hl, -, hkind⟩ := h.state_cases hs
  simp only [hplace, reduceCtorEq, false_and, false_or, true_and] at hkind
  exact ⟨l, hl, hkind.2⟩

theorem targets_perm : (g.edges.map (·.target)).Perm
    (lanes.flatMap fun l => l.chains.flatMap fun c => c.positions ++ [l.exit]) := by
  have hnumbers := h.perm
  rw [List.append_nil, ← h.out_size] at hnumbers
  -- the edges of a state can be listed in the order of the lanes instead of the numbers
  rw [targets_edges]
  refine (hnumbers.symm.flatMap_right g.targets).trans ?_
  rw [List.flatMap_assoc]
  exact List.Perm.flatMap_left _ fun l hl => (h.lies hl).targets_perm

/-- Apart from the ends of lanes, a state occurs as a target as often as it occurs at all. -/
theorem count_targets (hu : u < g.size) (hends : ∀ l ∈ lanes, u ≠ l.entry ∧ u ≠ l.exit) :
    g.edges.countP (·.target = u) = 1 := by
  have hnumbers := h.perm
  rw [List.append_nil] at hnumbers
  calc g.edges.countP (·.target = u)
    _ = (g.edges.map (·.target)).count u := by
      rw [List.count_eq_countP, List.countP_map]
      rfl
    _ = (lanes.flatMap fun l => l.chains.flatMap fun c => c.positions ++ [l.exit]).count u :=
      h.targets_perm.count_eq u
    _ = (lanes.flatMap Lane.numbers).count u := by
      rw [List.count_flatMap, List.count_flatMap]
      exact congrArg List.sum (List.map_congr_left fun l hl => l.count_targets (hends l hl))
    _ = (List.range g.size).count u := hnumbers.count_eq u
    _ = 1 := List.count_eq_one_of_mem List.nodup_range (List.mem_range.mpr hu)

theorem on_lane (hu : g.OnChain p i u) :
    ∃ l ∈ lanes, l.process = p ∧ ∃ c, l.chains[i]? = some c ∧ u ∈ c.positions := by
  obtain ⟨v, w, es, e, us, steps, hv, hw, hes, he, hfollows, hu⟩ := hu
  obtain ⟨l, hl, rfl, rfl⟩ := h.entry?_eq_some_iff.mp hv
  have hlies := h.lies hl
  have hexit := h.exit?_eq_some_iff.mpr ⟨l, hl, rfl, rfl⟩
  obtain rfl : l.exit = w := Option.some.inj (hexit.symm.trans hw)
  obtain rfl := Option.some.inj (hlies.out_entry.symm.trans hes)
  rw [List.getElem?_map] at he
  obtain ⟨c, hc, rfl⟩ := Option.map_eq_some_iff.mp he
  have hlast (s : State) (hs : g.states[l.exit]? = some s) : s.place ≠ .position := by
    obtain rfl := Option.some.inj (hlies.exit.symm.trans hs)
    simp
  exact ⟨l, hl, rfl, c, hc, hfollows.unique hlast (hlies.chains i c hc).follows ▸ hu⟩

theorem onChain (hl : l ∈ lanes) (hc : l.chains[i]? = some c) (hu : u ∈ c.positions) :
    g.OnChain l.process i u := by
  have hfirst : (l.chains.map (·.first))[i]? = some c.first := by
    rw [List.getElem?_map, hc, Option.map_some]
  exact ⟨l.entry, l.exit, _, c.first, c.positions, c.rule,
    h.entry?_eq_some_iff.mpr ⟨l, hl, rfl, rfl⟩, h.exit?_eq_some_iff.mpr ⟨l, hl, rfl, rfl⟩,
    (h.lies hl).out_entry, hfirst, ((h.lies hl).chains i c hc).follows, hu⟩

theorem exists_unique_chain (hl : l ∈ lanes) (hc : l.chains[i]? = some c) (hu : u ∈ c.positions) :
    ∃! c : Name × Nat, g.OnChain c.1 c.2 u := by
  obtain ⟨s, hs, -, hprocess, hrule, -⟩ := (h.lies hl).position_state hc hu
  refine ⟨(l.process, i), h.onChain hl hc hu, ?_⟩
  -- the state itself knows its process and its rule
  rintro ⟨p, j⟩ hchain
  obtain ⟨l', hl', rfl, c', hc', hu'⟩ := h.on_lane hchain
  obtain ⟨s', hs', -, hprocess', hrule', -⟩ := (h.lies hl').position_state hc' hu'
  obtain rfl : s = s' := Option.some.inj (hs.symm.trans hs')
  exact Prod.ext (hprocess'.symm.trans hprocess) (Int.ofNat.inj (hrule'.symm.trans hrule))

theorem size_eq : g.size = ((lanes.map (·.process)).map fun p =>
    2 + ((sys.rules p).map fun r => r.length - 1).sum).sum := by
  have hlength := h.perm.length_eq
  rw [List.append_nil, List.length_range, List.length_flatMap] at hlength
  rw [← hlength, List.map_map]
  exact congrArg List.sum (List.map_congr_left fun l hl => (h.lies hl).length_numbers)

theorem out_source (k : Nat) (es : List Edge) (hes : g.out[k]? = some es) :
    ∀ e ∈ es, e.source = k := by
  have hk : k < g.size := h.out_size ▸ (Array.getElem?_eq_some_iff.mp hes).1
  obtain ⟨l, hl, -, hkind⟩ := h.state_cases (Array.getElem?_eq_getElem hk)
  have hlies := h.lies hl
  intro e he
  rcases hkind with ⟨-, rfl, -⟩ | ⟨-, rfl, -⟩ | ⟨-, -, i, c, hc, hmem⟩
  · obtain rfl := Option.some.inj (hlies.out_entry.symm.trans hes)
    obtain ⟨c, hc, rfl⟩ := List.mem_map.mp he
    obtain ⟨i, hi⟩ := List.getElem?_of_mem hc
    exact (hlies.chains i c hi).source
  · obtain rfl := Option.some.inj (hlies.out_exit.symm.trans hes)
    cases he
  · obtain ⟨e', hout, hsource⟩ := (hlies.chains i c hc).follows.out_of_mem hmem
    obtain rfl := Option.some.inj (hout.symm.trans hes)
    obtain rfl := List.mem_singleton.mp he
    exact hsource

theorem rules_of_entry (hl : l ∈ lanes) : ∃ es, g.out[l.entry]? = some es ∧
    List.Forall₂ (fun e r => ∃ us, g.Follows l.exit e us r) es (sys.rules l.process) := by
  have hlies := h.lies hl
  refine ⟨_, hlies.out_entry, ?_⟩
  rw [← hlies.rules_eq, List.forall₂_map_left_iff, List.forall₂_map_right_iff, List.forall₂_same]
  intro c hc
  obtain ⟨i, hi⟩ := List.getElem?_of_mem hc
  exact ⟨c.positions, (hlies.chains i c hi).follows⟩

theorem place_of_target (he : e ∈ g.edges) :
    ∃ s, g.states[e.target]? = some s ∧ s.place ≠ .entry := by
  have hmem := h.targets_perm.mem_iff.mp (List.mem_map_of_mem he)
  obtain ⟨l, hl, hmem⟩ := List.mem_flatMap.mp hmem
  obtain ⟨c, hc, hmem⟩ := List.mem_flatMap.mp hmem
  rcases List.mem_append.mp hmem with hmem | hmem
  · obtain ⟨i, hi⟩ := List.getElem?_of_mem hc
    obtain ⟨s, hs, hplace, -⟩ := (h.lies hl).position_state hi hmem
    exact ⟨s, hs, by simp [hplace]⟩
  · rw [List.mem_singleton.mp hmem]
    exact ⟨_, (h.lies hl).exit, by simp⟩

theorem position_spec (hs : g.states[u]? = some s) (hplace : s.place = .position) :
    (∃! c : Name × Nat, g.OnChain c.1 c.2 u) ∧ (∃ e, g.out[u]? = some [e]) ∧
      g.edges.countP (·.target = u) = 1 := by
  obtain ⟨l, hl, i, c, hc, hu⟩ := h.of_position hs hplace
  obtain ⟨e, hout, -⟩ := ((h.lies hl).chains i c hc).follows.out_of_mem hu
  have hends (m : Lane) (hm : m ∈ lanes) : u ≠ m.entry ∧ u ≠ m.exit := by
    constructor
    · rintro rfl
      obtain rfl := Option.some.inj ((h.lies hm).entry.symm.trans hs)
      cases hplace
    · rintro rfl
      obtain rfl := Option.some.inj ((h.lies hm).exit.symm.trans hs)
      cases hplace
  exact ⟨h.exists_unique_chain hl hc hu, ⟨e, hout⟩,
    h.count_targets (Array.getElem?_eq_some_iff.mp hs).1 hends⟩

theorem readsBack (hid : ∀ (k : Nat) s, g.states[k]? = some s → s.id = k)
    (hknown : ∀ p, (g.entry? p).isSome = true ↔ sys.Reaches sys.initial p) : g.ReadsBack sys where
  id_eq := hid
  out_size := h.out_size
  source_eq := h.out_source
  entry_isSome := hknown
  exit_isSome p := by
    rw [← hknown, h.entry?_isSome]
    simp [Option.isSome_iff_exists, h.exit?_eq_some_iff]
  entry_iff p v := by
    rw [h.entry?_eq_some_iff]
    constructor
    · rintro ⟨l, hl, rfl, rfl⟩
      exact ⟨_, (h.lies hl).entry, rfl, rfl⟩
    · rintro ⟨s, hs, hplace, rfl⟩
      obtain ⟨l, hl, hprocess, hv, -⟩ := h.of_entry hs hplace
      exact ⟨l, hl, hprocess.symm, hv.symm⟩
  exit_iff p w := by
    rw [h.exit?_eq_some_iff]
    constructor
    · rintro ⟨l, hl, rfl, rfl⟩
      exact ⟨_, (h.lies hl).exit, rfl, rfl⟩
    · rintro ⟨s, hs, hplace, rfl⟩
      obtain ⟨l, hl, hprocess, hw⟩ := h.of_exit hs hplace
      exact ⟨l, hl, hprocess.symm, hw.symm⟩
  rules p v w hv hw := by
    obtain ⟨l, hl, rfl, rfl⟩ := h.entry?_eq_some_iff.mp hv
    have hexit := h.exit?_eq_some_iff.mpr ⟨l, hl, rfl, rfl⟩
    obtain rfl : l.exit = w := Option.some.inj (hexit.symm.trans hw)
    exact h.rules_of_entry hl
  position u s hs hplace := h.position_spec hs hplace
  exit_out w s hs hplace := by
    obtain ⟨l, hl, -, rfl⟩ := h.of_exit hs hplace
    exact (h.lies hl).out_exit
  entry_in v s hs hplace e he := by
    rintro rfl
    obtain ⟨t, ht, hne⟩ := h.place_of_target he
    obtain rfl : s = t := Option.some.inj (hs.symm.trans ht)
    exact hne hplace
  props_entry v s hs hplace := by
    obtain ⟨l, hl, hprocess, -, hprops⟩ := h.of_entry hs hplace
    rw [hprops, hprocess]
    exact ⟨List.mergeSort_perm _ _, pairwise_sorted _⟩
  props_other v s hs hplace := by
    obtain ⟨l, hl, -, hkind⟩ := h.state_cases hs
    rcases hkind with ⟨hentry, -⟩ | ⟨-, -, hprops⟩ | ⟨-, hprops, -⟩
    · exact absurd hentry hplace
    · exact hprops
    · exact hprops
  size_eq := ⟨_, h.nodup, fun p => h.entry?_isSome.symm.trans (hknown p), h.size_eq⟩

end Accounts

/-- The rules of a valid system can be read back from its expansion. -/
theorem expand_readsBack (hsys : sys.validate = .ok ()) :
    ∃ g, expand sys = .ok g ∧ g.ReadsBack sys := by
  obtain ⟨lanes, h⟩ := ofSystem_lanes hsys
  exact ⟨ofSystem sys, expand_eq_ok.mpr ⟨hsys, rfl⟩,
    h.readsBack (ofSystem_wellFormed sys).1.id_eq (ofSystem_expanded hsys).known⟩

/-- Two processes that call each other, the first one in the middle of a rule; a third one is
never called. -/
theorem expand_readsBack_mutual : ∃ sys : ProcessSystem,
    sys = .ofDefinitions "P" [
      { name := "P", props := ["q", "p"],
        rules := [[.act "a" .must, .run "Q", .act "c" .must], [.act "b" .may]] },
      { name := "Q", rules := [[.act "d" .must, .run "P"]] },
      { name := "R", rules := [[.act "a" .must]] }] ∧
    sys.validate = .ok () ∧ ∃ g, expand sys = .ok g ∧ g.ReadsBack sys :=
  ⟨_, rfl, rfl, expand_readsBack rfl⟩

end MuProc.Graph
