import MuProc.Proofs.Equations
import MuProc.Proofs.ReadBack

/-!
# Who reads a node

A node is computed from its own value and from the values behind its links: that of the target
and, for a call, that of the callee. The readers of every node are collected by notes, one for
each value that a link reads, and a reader that is noted already is not noted again. So a node
whose noted sources keep their values is computed as before, for any state graph whose equations
can be built. In an expansion no entry is the target of an edge and only entries are called; the
readers of a state are then its predecessors followed by its callers, in the same order.
-/

namespace MuProc.DependencyGraph

variable {deps deps' : Array (List Nat)} {u v : Nat} {n : Node} {l : Link} {nodes : Array Node}

/-! ### Notes -/

/-- A pair of a node and one of its readers. -/
abbrev Note := Nat × Nat

def note (deps : Array (List Nat)) (p : Note) : Array (List Nat) :=
  deps.modify p.1 (Graph.appendNew · p.2)

/-- The readers noted for a node, in the order of the notes. -/
def readersOf (u : Nat) (notes : List Note) : List Nat :=
  (notes.filter (·.1 = u)).map (·.2)

theorem size_notes (notes : List Note) : (notes.foldl note deps).size = deps.size := by
  induction notes generalizing deps with
  | nil => rfl
  | cons p notes ih => rw [List.foldl_cons, ih, note, Array.size_modify]

theorem getElem?_notes (notes : List Note) :
    (notes.foldl note deps)[u]? = deps[u]?.map ((readersOf u notes).foldl Graph.appendNew) := by
  induction notes generalizing deps with
  | nil => simp [readersOf]
  | cons p notes ih =>
    rw [List.foldl_cons, ih, note, Array.getElem?_modify]
    by_cases hp : p.1 = u
    · simp [readersOf, hp, Function.comp_def]
    · simp [readersOf, hp]

theorem mem_foldl_appendNew {vs ws : List Nat} :
    v ∈ ws.foldl Graph.appendNew vs ↔ v ∈ vs ∨ v ∈ ws := by
  induction ws generalizing vs with
  | nil => simp
  | cons w ws ih => rw [List.foldl_cons, ih, mem_appendNew, List.mem_cons, or_assoc]

theorem nodup_foldl_appendNew {vs : List Nat} (ws : List Nat) (h : vs.Nodup) :
    (ws.foldl Graph.appendNew vs).Nodup := by
  induction ws generalizing vs with
  | nil => exact h
  | cons w ws ih => exact ih (nodup_appendNew h w)

/-- All notes, written on blank sheets for `size` nodes. -/
def noted (size : Nat) (notes : List Note) : Array (List Nat) :=
  notes.foldl note (Array.replicate size [])

theorem getElem?_noted {size : Nat} {notes : List Note} (hu : u < size) :
    (noted size notes)[u]? = some ((readersOf u notes).foldl Graph.appendNew []) := by
  rw [noted, getElem?_notes, Array.getElem?_replicate, if_pos hu, Option.map_some]

theorem noted_iff {size : Nat} {notes : List Note} :
    Noted (noted size notes) u v ↔ u < size ∧ (u, v) ∈ notes := by
  by_cases hu : u < size
  · simp [Noted, getElem?_noted hu, mem_foldl_appendNew, readersOf, hu]
  · simp [Noted, noted, getElem?_notes, hu]

theorem nodup_noted {size : Nat} {notes : List Note} {vs : List Nat}
    (h : (noted size notes)[u]? = some vs) : vs.Nodup := by
  rw [noted, getElem?_notes] at h
  obtain ⟨ws, hws, rfl⟩ := Option.map_eq_some_iff.mp h
  obtain rfl : [] = ws := by simpa using (Array.getElem?_eq_some_iff.mp hws).2
  exact nodup_foldl_appendNew _ List.nodup_nil

/-! ### What a node reads -/

/-- The nodes that a link reads, in the order in which they are noted. -/
def Link.sources (l : Link) : List Nat :=
  l.target :: l.callee?.toList

theorem Link.mem_sources : u ∈ l.sources ↔ l.Reads u := by
  simp [Link.sources, Link.Reads]

def Node.notes (n : Node) : List Note :=
  (n.links.flatMap Link.sources).map (·, n.id)

def allNotes (nodes : Array Node) : List Note :=
  nodes.toList.flatMap Node.notes

theorem addReader_eq_ok :
    addReader deps u v = .ok deps' ↔ u < deps.size ∧ note deps (u, v) = deps' := by
  unfold addReader
  split <;> simp_all [note]

theorem addLink_eq (v : Nat) (deps : Array (List Nat)) (l : Link) :
    addLink v deps l =
      (l.sources.map (·, v)).foldlM (fun deps p => addReader deps p.1 p.2) deps := by
  cases hc : l.callee with
  | none => simp [addLink, Link.sources, Link.callee?, hc, -Fold.pure_eq_ok]
  | some k => cases k <;> simp [addLink, Link.sources, Link.callee?, hc, -Fold.pure_eq_ok]

theorem readers_eq (nodes : Array Node) :
    readers nodes = (allNotes nodes).foldlM (fun deps p => addReader deps p.1 p.2)
      (Array.replicate nodes.size []) := by
  have hnode (n : Node) (deps : Array (List Nat)) : n.links.foldlM (addLink n.id) deps =
      n.notes.foldlM (fun deps p => addReader deps p.1 p.2) deps := by
    rw [Node.notes, List.map_flatMap, Fold.foldlM_flatMap]
    congr
    funext deps l
    exact addLink_eq n.id deps l
  rw [readers, allNotes, Fold.foldlM_flatMap]
  simp only [hnode]

theorem notes_of_readers (h : readers nodes = .ok deps) :
    deps = noted nodes.size (allNotes nodes) ∧ ∀ p ∈ allNotes nodes, p.1 < nodes.size := by
  have hall (notes : List Note) (deps deps' : Array (List Nat))
      (h : notes.foldlM (fun deps p => addReader deps p.1 p.2) deps = .ok deps') :
      deps' = notes.foldl note deps ∧ ∀ p ∈ notes, p.1 < deps.size := by
    induction notes generalizing deps with
    | nil => exact ⟨(Except.ok.inj h).symm, by simp⟩
    | cons p notes ih =>
      rw [List.foldlM_cons] at h
      obtain ⟨deps₁, h₁, h⟩ := Fold.bind_eq_ok.mp h
      obtain ⟨hlt, rfl⟩ := addReader_eq_ok.mp h₁
      obtain ⟨rfl, hrest⟩ := ih _ h
      have hsize : (note deps p).size = deps.size := Array.size_modify
      refine ⟨rfl, fun q hq => ?_⟩
      rcases List.mem_cons.mp hq with rfl | hq
      · exact hlt
      · exact hsize ▸ hrest q hq
  have := hall _ _ _ (readers_eq nodes ▸ h)
  simpa [noted] using this

/-! ### Building -/

variable {sp : Space} {pg : Graph} {idx : Index} {entry : List (Name × Int)} {g : DependencyGraph}
  {slots slots' : Array (Option Node)}

/-- A link leads where its edge does, and calls the entry that is looked up. -/
structure Traces (entry : List (Name × Int)) (e : Edge) (l : Link) : Prop where
  target_eq : l.target = e.target
  callee_eq : l.callee = if e.step.isCall then entry.lookup e.step.call else none

/-- Node `v` has a link for each edge of its state. -/
structure Wired (pg : Graph) (entry : List (Name × Int)) (v : Nat) (n : Node) : Prop where
  id_eq : n.id = v
  links : ∃ es, pg.out[v]? = some es ∧ List.Forall₂ (Traces entry) es n.links

theorem traces_of_linkOf {s : State} {e : Edge} (h : linkOf sp idx entry s e = .ok l) :
    Traces entry e l := by
  unfold linkOf at h
  split at h
  · split at h
    · obtain rfl := Except.ok.inj h
      exact ⟨rfl, by simp_all⟩
    · cases h
  · split at h
    · obtain rfl := Except.ok.inj h
      exact ⟨rfl, by simp_all⟩
    · cases h

theorem addNode_wired {s : State} (h : addNode sp pg idx entry slots s = .ok slots')
    (hwired : ∀ (v : Nat) n, slots[v]? = some (some n) → Wired pg entry v n) :
    slots'.size = slots.size ∧
      ∀ (v : Nat) n, slots'[v]? = some (some n) → Wired pg entry v n := by
  unfold addNode at h
  split at h <;> try cases h
  split at h <;> try cases h
  rename_i edges hedges
  obtain ⟨links, hlinks, h⟩ := Fold.bind_eq_ok.mp h
  obtain rfl := Except.ok.inj h
  refine ⟨Array.size_setIfInBounds, fun v n hn => ?_⟩
  rw [Array.getElem?_setIfInBounds] at hn
  split at hn
  · rename_i heq
    split at hn
    · obtain rfl := Option.some.inj (Option.some.inj hn)
      have htraces := (Fold.forall₂_of_mapM hlinks).imp fun _ _ => traces_of_linkOf
      exact ⟨heq, edges, heq ▸ hedges, htraces⟩
    · cases hn
  · exact hwired v n hn

/-- Every state has its node, and the readers of every node are noted. -/
theorem wired_of_build (hg : build sp pg idx entry = .ok g) :
    g.nodes.size = pg.size ∧ (∀ (v : Nat) n, g.nodes[v]? = some n → Wired pg entry v n) ∧
      readers g.nodes = .ok g.dependents := by
  unfold build at hg
  split at hg
  · cases hg
  obtain ⟨slots, hslots, hg⟩ := Fold.bind_eq_ok.mp hg
  split at hg
  · rename_i nodes hnodes
    obtain ⟨deps, hdeps, hg⟩ := Fold.bind_eq_ok.mp hg
    obtain rfl := Except.ok.inj hg
    obtain ⟨hsize, hwired⟩ := Fold.foldlM_inv_of_ok
      (P := fun _ (slots : Array (Option Node)) => slots.size = pg.size ∧
        ∀ (v : Nat) n, slots[v]? = some (some n) → Wired pg entry v n)
      ⟨Array.size_replicate, fun v n hn => by simpa using (Array.getElem?_eq_some_iff.mp hn).2⟩
      (fun m s slots slots' _ hinv h => by
        obtain ⟨hsize, hwired⟩ := addNode_wired h hinv.2
        exact ⟨hsize.trans hinv.1, hwired⟩) hslots
    have hall : List.Forall₂ (fun slot n => id slot = some n) slots.toList nodes.toList := by
      rw [← Fold.mapM_eq_some_iff, ← Array.toList_mapM, hnodes]
      rfl
    have hsame : slots.size = nodes.size := hall.length_eq
    refine ⟨hsame.symm.trans hsize, fun v n hn => hwired v n ?_, hdeps⟩
    obtain ⟨hv, rfl⟩ := Array.getElem?_eq_some_iff.mp hn
    have hlt : v < slots.size := hsame ▸ hv
    have hslot := hall.get (i := v) (by simpa using hlt) (by simpa using hv)
    rw [Array.getElem?_eq_getElem hlt]
    simpa using hslot
  · cases hg

/-- A node is noted exactly at what its links read. -/
theorem noted_dependents_iff (hg : build sp pg idx entry = .ok g) (hn : g.nodes[v]? = some n) :
    Noted g.dependents u v ↔ ∃ l ∈ n.links, l.Reads u := by
  obtain ⟨-, hwired, hreaders⟩ := wired_of_build hg
  obtain ⟨hdeps, hlt⟩ := notes_of_readers hreaders
  have hmem : (u, v) ∈ allNotes g.nodes ↔ ∃ l ∈ n.links, l.Reads u := by
    simp only [allNotes, Node.notes, List.mem_flatMap, List.mem_map, Link.mem_sources,
      Prod.mk.injEq]
    constructor
    · rintro ⟨m, hm, w, ⟨l, hl, hw⟩, rfl, hv⟩
      obtain ⟨k, hk⟩ := List.getElem?_of_mem hm
      rw [Array.getElem?_toList] at hk
      obtain rfl : k = v := (hwired k m hk).id_eq.symm.trans hv
      obtain rfl : m = n := Option.some.inj (hk.symm.trans hn)
      exact ⟨l, hl, hw⟩
    · rintro ⟨l, hl, hu⟩
      exact ⟨n, Array.mem_toList_iff.mpr (Array.mem_of_getElem? hn), u, ⟨l, hl, hu⟩, rfl,
        (hwired v n hn).id_eq⟩
  rw [hdeps, noted_iff, ← hmem]
  exact ⟨fun h => h.2, fun h => ⟨hlt _ h, h⟩⟩

/-! ### Values that are read -/

variable {a a' : Assignment}

theorem linkValue_congr (sp : Space) (h : ∀ u, l.Reads u → a[u]? = a'[u]?) (i : Nat) :
    linkValue sp a i l = linkValue sp a' i l := by
  have hstep : linkTransformer a l = linkTransformer a' l := by
    unfold linkTransformer
    split
    · rename_i w hw
      exact h w (.inr (by rw [Link.callee?, hw]))
    · rfl
  rw [linkValue, linkValue, hstep]
  simp only [behind, h l.target (.inl rfl)]

theorem linkValues_congr (sp : Space) (h : ∀ l ∈ n.links, ∀ u, l.Reads u → a[u]? = a'[u]?)
    (i : Nat) : linkValues sp a n i = linkValues sp a' n i := by
  unfold linkValues
  generalize n.links = links at h
  induction links with
  | nil => rfl
  | cons l links ih =>
    rw [List.mapM_cons, List.mapM_cons, linkValue_congr sp (h l List.mem_cons_self),
      ih fun l hl => h l (List.mem_cons_of_mem _ hl)]

theorem component_congr (h : ∀ l ∈ n.links, ∀ u, l.Reads u → a[u]? = a'[u]?) (i : Nat)
    (c : Transformer) : g.component a n i c = g.component a' n i c := by
  unfold component
  cases hcall : n.onlyCall? with
  | none => simp only [formulaValue, linkValues_congr g.space h]
  | some l => simp only [linkValue_congr g.space (h l (Node.onlyCall?_mem hcall))]

/-- A node is computed from its own value and from those that its links read. -/
theorem recompute_congr (hself : a[n.id]? = a'[n.id]?)
    (h : ∀ l ∈ n.links, ∀ u, l.Reads u → a[u]? = a'[u]?) (B : Block) :
    g.recompute a n B = g.recompute a' n B := by
  have hrefresh : g.refresh a n = g.refresh a' n := by
    funext c i
    rw [refresh, refresh, component_congr h]
  have hpasses (fuel : Nat) (c : Transformer) :
      g.passes a n B.vars fuel c = g.passes a' n B.vars fuel c := by
    induction fuel generalizing c with
    | zero => rfl
    | succ fuel ih => simp only [passes, pass, hrefresh, ih]
  simp only [recompute, hself, hpasses]

/-! ### Readers in an expansion -/

def targetNotes (e : Edge) : List Note :=
  [(e.target, e.source)]

/-- The note at the entry of the process that an edge calls. -/
def callNotes (pg : Graph) (e : Edge) : List Note :=
  if e.step.isCall then (pg.entry? e.step.call).toList.map (·, e.source) else []

def edgeNotes (pg : Graph) (e : Edge) : List Note :=
  targetNotes e ++ callNotes pg e

theorem readersOf_append (notes notes' : List Note) :
    readersOf u (notes ++ notes') = readersOf u notes ++ readersOf u notes' := by
  simp [readersOf]

theorem readersOf_flatMap {α : Type} (f : α → List Note) (l : List α) :
    readersOf u (l.flatMap f) = l.flatMap fun a => readersOf u (f a) := by
  rw [readersOf, List.filter_flatMap, List.map_flatMap]
  rfl

theorem predecessors_eq (pg : Graph) :
    pg.predecessors = noted pg.size (pg.edges.flatMap targetNotes) := by
  rw [noted, List.foldl_flatMap]
  rfl

theorem out_of_mem_edges {e : Edge} (he : e ∈ pg.edges) :
    ∃ (k : Nat) (es : List Edge), pg.out[k]? = some es ∧ e ∈ es := by
  obtain ⟨es, hes, he⟩ := List.mem_flatten.mp he
  obtain ⟨k, hk⟩ := List.getElem?_of_mem hes
  exact ⟨k, es, by simpa using hk, he⟩

theorem callers_eq (hpg : pg.WellFormed) :
    pg.callers = noted pg.size (pg.edges.flatMap (callNotes pg)) := by
  rw [noted, List.foldl_flatMap, Graph.callers]
  refine List.foldl_ext _ _ _ fun acc e he => ?_
  unfold callNotes
  split
  · rename_i hcall
    obtain ⟨k, es, hes, he⟩ := out_of_mem_edges he
    obtain ⟨w, hw⟩ := Option.isSome_iff_exists.mp (hpg.callee k es hes e he hcall)
    simp [hw, note]
  · rfl

/-- A node notes what the edges of its state lead to and call. -/
theorem Wired.notes_eq (h : Wired pg pg.entryNumbers v n) {es : List Edge}
    (hes : pg.out[v]? = some es) (hsource : ∀ e ∈ es, e.source = v) :
    n.notes = es.flatMap (edgeNotes pg) := by
  obtain ⟨es', hes', hall⟩ := h.links
  obtain rfl : es' = es := Option.some.inj (hes'.symm.trans hes)
  rw [Node.notes, h.id_eq, List.map_flatMap]
  generalize n.links = links at hall
  clear hes hes'
  induction hall with
  | nil => rfl
  | @cons e l es links hlink _ ih =>
    have hv : e.source = v := hsource e List.mem_cons_self
    have hcallee : l.callee? = if e.step.isCall then pg.entry? e.step.call else none := by
      rw [Link.callee?, hlink.callee_eq, lookup_entryNumbers]
      by_cases hcall : e.step.isCall = true
      · simp only [hcall, if_true]
        cases pg.entry? e.step.call <;> rfl
      · simp only [hcall, Bool.false_eq_true, if_false]
    rw [List.flatMap_cons, List.flatMap_cons, ih fun e he => hsource e (List.mem_cons_of_mem _ he)]
    congr 1
    rw [Link.sources, edgeNotes, targetNotes, callNotes, hlink.target_eq, hcallee, hv]
    split <;> rfl

theorem allNotes_eq (hg : build sp pg idx = .ok g) (hpg : pg.WellFormed)
    (hsource : ∀ (v : Nat) es, pg.out[v]? = some es → ∀ e ∈ es, e.source = v) :
    allNotes g.nodes = pg.edges.flatMap (edgeNotes pg) := by
  obtain ⟨hsize, hwired, -⟩ := wired_of_build hg
  have hlists : g.nodes.toList.map Node.notes =
      pg.out.toList.map (List.flatMap (edgeNotes pg)) := by
    apply List.ext_getElem (by simpa using hsize.trans hpg.out_size.symm)
    intro v hv hv'
    rw [List.length_map, Array.length_toList] at hv hv'
    have hn : g.nodes[v]? = some g.nodes[v] := Array.getElem?_eq_getElem hv
    have hes : pg.out[v]? = some pg.out[v] := Array.getElem?_eq_getElem hv'
    simpa using (hwired v _ hn).notes_eq hes (hsource v _ hes)
  rw [allNotes, Graph.edges, List.flatMap_def, hlists, ← List.flatMap_def, ← List.flatMap_id,
    List.flatMap_assoc]
  rfl

/-- Where no entry is the target of an edge, a state is called or led to, but not both. -/
theorem readersOf_eq_nil (hpg : pg.WellFormed)
    (hplace : ∀ e ∈ pg.edges, ∃ s, pg.states[e.target]? = some s ∧ s.place ≠ .entry) (u : Nat) :
    (∀ e ∈ pg.edges, readersOf u (callNotes pg e) = []) ∨
      ∀ e ∈ pg.edges, readersOf u (targetNotes e) = [] := by
  by_cases hu : ∃ e ∈ pg.edges, e.target = u
  · obtain ⟨e, he, rfl⟩ := hu
    obtain ⟨s, hs, hne⟩ := hplace e he
    refine .inl fun e' _ => ?_
    unfold callNotes
    split
    · cases hw : pg.entry? e'.step.call with
      | none => rfl
      | some w =>
        obtain ⟨s', hs', hentry⟩ := hpg.entry?_place hw
        have hwe : w ≠ e.target := by
          rintro rfl
          exact hne (Option.some.inj (hs.symm.trans hs') ▸ hentry)
        simp [readersOf, hwe]
    · rfl
  · refine .inr fun e he => ?_
    have hne : e.target ≠ u := fun h => hu ⟨e, he, h⟩
    simp [readersOf, targetNotes, hne]

/-- In an expansion the readers of a state are its predecessors, followed by its callers. -/
theorem dependents_eq_zipWith (hg : build sp pg idx = .ok g) (hpg : pg.WellFormed)
    (hsource : ∀ (v : Nat) es, pg.out[v]? = some es → ∀ e ∈ es, e.source = v)
    (hplace : ∀ e ∈ pg.edges, ∃ s, pg.states[e.target]? = some s ∧ s.place ≠ .entry) :
    g.dependents = Array.zipWith (· ++ ·) pg.predecessors pg.callers := by
  obtain ⟨hsize, -, hreaders⟩ := wired_of_build hg
  rw [(notes_of_readers hreaders).1, predecessors_eq, callers_eq hpg, hsize,
    allNotes_eq hg hpg hsource]
  refine Array.ext_getElem? fun u => ?_
  rw [Array.getElem?_zipWith]
  by_cases hu : u < pg.size
  · rw [getElem?_noted hu, getElem?_noted hu, getElem?_noted hu]
    simp only [readersOf_flatMap, edgeNotes, readersOf_append]
    -- One of the two lists is empty, so the notes of the other are all the notes there are.
    rcases readersOf_eq_nil hpg hplace u with hnone | hnone
    · rw [List.flatMap_congr fun e he => by rw [hnone e he, List.append_nil],
        List.flatMap_eq_nil_iff.mpr hnone]
      simp
    · rw [List.flatMap_congr fun e he => by rw [hnone e he, List.nil_append],
        List.flatMap_eq_nil_iff.mpr hnone]
      simp
  · simp [noted, getElem?_notes, hu]

/-! ### The readers that are noted -/

/-- A node whose noted sources keep their values is computed as before. It is noted exactly where
its links read, and nowhere twice. Over an expansion, the readers of each state are listed as its
predecessors followed by its callers. -/
theorem dependents_exact (hg : build sp pg idx entry = .ok g) :
    (∀ (v : Nat) n, g.nodes[v]? = some n → ∀ (B : Block) (a a' : Assignment), a[v]? = a'[v]? →
      (∀ (u : Nat) vs, g.dependents[u]? = some vs → v ∈ vs → a[u]? = a'[u]?) →
      g.recompute a n B = g.recompute a' n B) ∧
    (∀ (v : Nat) n, g.nodes[v]? = some n → ∀ u,
      (∃ vs, g.dependents[u]? = some vs ∧ v ∈ vs) ↔ ∃ l ∈ n.links, l.Reads u) ∧
    (∀ (u : Nat) vs, g.dependents[u]? = some vs → vs.Nodup) ∧
    ∀ sys, Graph.expand sys = .ok pg → entry = pg.entryNumbers → g.dependents.size = pg.size ∧
      g.dependents = Array.zipWith (· ++ ·) pg.predecessors pg.callers := by
  obtain ⟨hsize, hwired, hreaders⟩ := wired_of_build hg
  have hdeps := (notes_of_readers hreaders).1
  refine ⟨fun v n hn B a a' hself hsources => ?_, fun v n hn u => noted_dependents_iff hg hn,
    fun u vs hvs => nodup_noted (hdeps ▸ hvs), ?_⟩
  · have hid := (hwired v n hn).id_eq
    refine recompute_congr (hid ▸ hself) (fun l hl u hu => ?_) B
    obtain ⟨vs, hvs, hmem⟩ := (noted_dependents_iff hg hn).mpr ⟨l, hl, hu⟩
    exact hsources u vs hvs hmem
  · rintro sys hpg rfl
    obtain ⟨hsys, rfl⟩ := Graph.expand_eq_ok.mp hpg
    obtain ⟨lanes, hlanes⟩ := Graph.ofSystem_lanes hsys
    refine ⟨by rw [hdeps, noted, size_notes, Array.size_replicate, hsize], ?_⟩
    exact dependents_eq_zipWith hg (Graph.ofSystem_wellFormed sys).1 hlanes.out_source
      fun e he => hlanes.place_of_target he

/-- Two processes that call each other. Node 4 is left by a call alone and has two sources: the
exit of its process, and the entry of the process that it calls. -/
theorem dependents_exact_mutual :
    ∃ idx sp pg g, Index.ofFormula (.dia "a" (.atom "p")) = .ok idx ∧
      Graph.expand (.ofDefinitions "P" [
        { name := "P", rules := [[.run "Q", .run "Q"], [.act "b" .may, .run "P"]] },
        { name := "Q", rules := [[.act "d" .must, .run "P", .act "a" .must]] }]) = .ok pg ∧
      build sp pg idx = .ok g ∧
      g.dependents = #[[5, 6], [4, 5], [0, 4], [7], [0], [0], [2], [6]] ∧
      ∀ n, g.nodes[4]? = some n → ∀ (B : Block) (a a' : Assignment), a[4]? = a'[4]? →
        a[1]? = a'[1]? → a[2]? = a'[2]? → g.recompute a n B = g.recompute a' n B := by
  obtain ⟨idx, hidx⟩ : ∃ idx, Index.ofFormula (.dia "a" (.atom "p")) = .ok idx := ⟨_, rfl⟩
  have hmax : idx.size ≤ Space.maxDim := by
    obtain rfl := Except.ok.inj hidx
    decide
  have hvalid : (ProcessSystem.ofDefinitions "P" [
      { name := "P", rules := [[.run "Q", .run "Q"], [.act "b" .may, .run "P"]] },
      { name := "Q", rules := [[.act "d" .must, .run "P", .act "a" .must]] }]).validate =
      .ok () := rfl
  obtain ⟨sp, g, hsp, hpg, hg, hbuilt⟩ := exists_build hidx hmax hvalid
  obtain ⟨hcongr, -, -, hlists⟩ := dependents_exact hg
  have hdeps : g.dependents = #[[5, 6], [4, 5], [0, 4], [7], [0], [0], [2], [6]] := by
    rw [(hlists _ hpg rfl).2]
    decide +kernel
  refine ⟨idx, sp, _, g, hidx, hpg, hg, hdeps, fun n hn B a a' hself hexit hentry => ?_⟩
  refine hcongr 4 n hn B a a' hself fun u vs hvs hmem => ?_
  have hsources : ∀ k : Fin 8,
      4 ∈ (#[[5, 6], [4, 5], [0, 4], [7], [0], [0], [2], [6]] : Array (List Nat))[k] →
        k.val = 1 ∨ k.val = 2 := by decide
  rw [hdeps] at hvs
  obtain ⟨hu, rfl⟩ := Array.getElem?_eq_some_iff.mp hvs
  rcases hsources ⟨u, hu⟩ hmem with rfl | rfl
  · exact hexit
  · exact hentry

end MuProc.DependencyGraph
