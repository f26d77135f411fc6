import MuProc.Solver.Dependency
import MuProc.Proofs.Expansion
import MuProc.Proofs.Indices
import MuProc.Proofs.Diagrams
import MuProc.Proofs.Transformers

/-!
# Coherent dependency graphs

The dependency graph of a well-formed index over a well-formed state graph can be
built. It has one node for each state, with a link for each edge; an action link
carries what the step contributes to every subformula, and every node is noted at
the nodes it reads.
-/

namespace MuProc

/-- The value at a reference, false if there is none. -/
def Subformula.at (ref : Option Nat) (c : Nat → Bool) : Bool :=
  ref.elim false c

/-- What an action contributes to a subformula: its operand for a modality that speaks
about the action, and the subformula itself for everything that is no modality. -/
def Subformula.behind (s : Subformula) (step : Step) (c : Nat → Bool) : Bool :=
  match s.node with
  | .box a _ => if step.hasAction a ∧ step.kind = .must then Subformula.at s.left c else true
  | .dia a _ => if step.hasAction a then Subformula.at s.left c else false
  | _ => c s.var

namespace DependencyGraph

/-- The node a link calls, if it is a call. -/
def Link.callee? (l : Link) : Option Nat :=
  match l.callee with
  | some (.ofNat u) => some u
  | _ => none

/-- The nodes a link reads. -/
def Link.Reads (l : Link) (u : Nat) : Prop :=
  u = l.target ∨ l.callee? = some u

/-- A dependency graph as it is built. -/
structure Coherent (g : DependencyGraph) : Prop where
  space : g.space.Proper
  dim_eq : g.space.dim = g.index.size
  index : g.index.WellFormed
  initial_lt : g.initial < g.nodes.size
  id_eq : ∀ (v : Nat) n, g.nodes[v]? = some n → n.id = v
  reads_lt : ∀ (v : Nat) n, g.nodes[v]? = some n → ∀ l ∈ n.links, ∀ u, l.Reads u → u < g.nodes.size
  call : ∀ (v : Nat) n, g.nodes[v]? = some n → ∀ l ∈ n.links,
    l.step.isCall = true → l.callee?.isSome = true
  action : ∀ (v : Nat) n, g.nodes[v]? = some n → ∀ l ∈ n.links, l.callee? = none →
    l.action.Valid g.space ∧
      ∀ (i : Nat) s, g.index.subs[i]? = some s →
        ∀ x, l.action.meaning g.space i x = s.behind l.step x
  dependents_size : g.dependents.size = g.nodes.size
  dependents_lt : ∀ (u : Nat) vs, g.dependents[u]? = some vs → ∀ v ∈ vs, v < g.nodes.size
  dependents_nodup : ∀ (u : Nat) vs, g.dependents[u]? = some vs → vs.Nodup
  mem_dependents : ∀ (v : Nat) n, g.nodes[v]? = some n → ∀ l ∈ n.links, ∀ u, l.Reads u →
    ∃ vs, g.dependents[u]? = some vs ∧ v ∈ vs

variable {sp : Space} {idx : Index} {pg : Graph}

/-! ### The transformer of an action -/

theorem Coherent.index_lt {g : DependencyGraph} (hg : g.Coherent) {i : Nat} {s : Subformula}
    (hs : g.index.subs[i]? = some s) : i < g.space.dim := by
  rw [hg.dim_eq]
  exact (Array.getElem?_eq_some_iff.mp hs).1

/-- The first subformulas have their contribution, the others stand for themselves. -/
structure ContributedTo (sp : Space) (idx : Index) (step : Step) (m : Nat) (t : Transformer) :
    Prop where
  valid : t.Valid sp
  meaning_eq : ∀ (i : Nat) s, idx.subs[i]? = some s → ∀ x,
    t.meaning sp i x = if i < m then s.behind step x else x i

theorem ContributedTo.put {step : Step} {m : Nat} {t : Transformer} {s : Subformula} {f : Func}
    (h : ContributedTo sp idx step m t) (hidx : idx.WellFormed) (hs : idx.subs[m]? = some s)
    (hm : m < sp.dim) (hf : sp.Fits f) (hmono : Monotone (sp.value f))
    (hvalue : ∀ x, sp.value f x = s.behind step x) :
    ∃ t', t.put? s.var f = some t' ∧ ContributedTo sp idx step (m + 1) t' := by
  have hsize : m < t.size := h.valid.size_eq ▸ hm
  rw [hidx.var_eq m s hs]
  refine ⟨_, Transformer.put?_eq_some hsize, h.valid.setIfInBounds hf hmono, fun i s' hs' x => ?_⟩
  rw [Transformer.meaning_setIfInBounds sp hsize]
  by_cases him : i = m
  · subst him
    obtain rfl : s = s' := Option.some.inj (hs.symm.trans hs')
    rw [Function.update_self, if_pos (by omega), hvalue]
  · rw [Function.update_of_ne him, h.meaning_eq i s' hs']
    have hiff : i < m ↔ i < m + 1 := by omega
    simp only [hiff]

theorem contribution_spec (hsp : sp.Proper) (hidx : idx.WellFormed) (hdim : sp.dim = idx.size)
    {step : Step} {m : Nat} {t : Transformer} {s : Subformula} (hs : idx.subs[m]? = some s)
    (h : ContributedTo sp idx step m t) :
    ∃ t', contribution sp step s t = some t' ∧ ContributedTo sp idx step (m + 1) t' := by
  have hm : m < sp.dim := hdim ▸ (Array.getElem?_eq_some_iff.mp hs).1
  have hshaped := hidx.shaped m s hs
  have hput {f : Func} := h.put (f := f) hidx hs hm
  have hconst (b : Bool) : sp.Valid (Func.const b : Func) := Space.valid_const b
  -- the operand of a modality is an input of the space
  have hinput {l : Nat} (hl : Index.From idx.subs s.block l) :
      ∃ f : Func, sp.input? l = some f ∧ sp.Fits f ∧ ∀ x, sp.value f x = x l := by
    obtain ⟨r, hr, -⟩ := hl
    exact Space.input?_spec Func hsp (hdim ▸ (Array.getElem?_eq_some_iff.mp hr).1)
  have hmono {f : Func} {l : Nat} (hf : ∀ x, sp.value f x = x l) : Monotone (sp.value f) :=
    fun x y hxy => by rw [hf, hf]; exact hxy l
  have hother (hb : ∀ x, s.behind step x = x s.var) : ContributedTo sp idx step (m + 1) t := by
    refine ⟨h.valid, fun i s' hs' x => ?_⟩
    rw [h.meaning_eq i s' hs']
    by_cases him : i = m
    · subst him
      obtain rfl : s = s' := Option.some.inj (hs.symm.trans hs')
      rw [if_neg (by omega), if_pos (by omega), hb, hidx.var_eq i s hs]
    · have hiff : i < m ↔ i < m + 1 := by omega
      simp only [hiff]
  unfold contribution
  split
  · rename_i a f hnode
    simp only [Subformula.Shaped, hnode] at hshaped
    obtain ⟨l, hl, href⟩ := hshaped
    split
    · rename_i hmust
      obtain ⟨f, hf, hfits, hvalue⟩ := hinput href
      simp only [hl, Option.bind_some, hf]
      exact hput hfits (hmono hvalue) fun x => by
        simp [Subformula.behind, hnode, hmust, hl, Subformula.at, hvalue]
    · rename_i hmust
      exact hput (hconst true).fits (hconst true).monotone fun x => by
        simp [Subformula.behind, hnode, hmust]
  · rename_i a f hnode
    simp only [Subformula.Shaped, hnode] at hshaped
    obtain ⟨l, hl, href⟩ := hshaped
    split
    · rename_i hact
      obtain ⟨f, hf, hfits, hvalue⟩ := hinput href
      simp only [hl, Option.bind_some, hf]
      exact hput hfits (hmono hvalue) fun x => by
        simp [Subformula.behind, hnode, hact, hl, Subformula.at, hvalue]
    · rename_i hact
      exact hput (hconst false).fits (hconst false).monotone fun x => by
        simp [Subformula.behind, hnode, hact]
  · rename_i hbox hdia
    refine ⟨t, rfl, hother fun x => ?_⟩
    unfold Subformula.behind
    split
    · exact absurd ‹_› (hbox _ _)
    · exact absurd ‹_› (hdia _ _)
    · rfl

theorem actionTransformer_spec (hsp : sp.Proper) (hidx : idx.WellFormed)
    (hdim : sp.dim = idx.size) (step : Step) :
    ∃ t, actionTransformer sp idx step = some t ∧ t.Valid sp ∧
      ∀ (i : Nat) s, idx.subs[i]? = some s → ∀ x, t.meaning sp i x = s.behind step x := by
  have hstart : ContributedTo sp idx step 0 sp.identity := by
    refine ⟨Space.valid_identity Func hsp, fun i s hs x => ?_⟩
    rw [if_neg (by omega)]
    exact Space.meaning_identity Func hsp (hdim ▸ (Array.getElem?_eq_some_iff.mp hs).1) x
  obtain ⟨t, ht, hinv⟩ := Fold.foldlM_some (l := idx.subs.toList)
    (P := ContributedTo sp idx step) (f := fun t s => contribution sp step s t) hstart
    fun m s t hs h => contribution_spec hsp hidx hdim (by simpa using hs) h
  refine ⟨t, ht, hinv.valid, fun i s hs x => ?_⟩
  have hlt := (Array.getElem?_eq_some_iff.mp hs).1
  rw [hinv.meaning_eq i s hs, if_pos (by simpa using hlt)]

/-! ### Links and nodes -/

theorem lookup_entryNumbers (pg : Graph) (p : Name) :
    pg.entryNumbers.lookup p = (pg.entry? p).map Int.ofNat := by
  unfold Graph.entryNumbers Graph.entry?
  induction pg.entry with
  | nil => rfl
  | cons q l ih =>
    obtain ⟨r, v⟩ := q
    simp only [List.map_cons, List.lookup_cons]
    split
    · rfl
    · exact ih

/-- The link of an edge. -/
structure Linked (sp : Space) (idx : Index) (pg : Graph) (e : Edge) (l : Link) : Prop where
  step_eq : l.step = e.step
  target_eq : l.target = e.target
  callee?_eq : l.callee? = if e.step.isCall then pg.entry? e.step.call else none
  action : e.step.isCall = false → l.action.Valid sp ∧
    ∀ (i : Nat) s, idx.subs[i]? = some s → ∀ x, l.action.meaning sp i x = s.behind l.step x

/-- A link that calls a node belongs to a call of the process that the node enters. -/
theorem Linked.call_of_callee? {e : Edge} {l : Link} (h : Linked sp idx pg e l) {u : Nat}
    (hu : l.callee? = some u) : e.step.isCall = true ∧ pg.entry? e.step.call = some u := by
  rw [h.callee?_eq] at hu
  split at hu
  · rename_i hcall
    exact ⟨hcall, hu⟩
  · cases hu

theorem linkOf_spec (hsp : sp.Proper) (hidx : idx.WellFormed) (hdim : sp.dim = idx.size)
    {e : Edge}
    (hcallee : e.step.isCall = true → (pg.entry? e.step.call).isSome = true) (s : State) :
    ∃ l, linkOf sp idx pg.entryNumbers s e = .ok l ∧ Linked sp idx pg e l := by
  unfold linkOf
  split
  · rename_i hcall
    obtain ⟨u, hu⟩ := Option.isSome_iff_exists.mp (hcallee hcall)
    rw [lookup_entryNumbers, hu]
    refine ⟨_, rfl, rfl, rfl, ?_, fun h => by simp [hcall] at h⟩
    rw [if_pos hcall, hu]
    rfl
  · rename_i hcall
    obtain ⟨t, ht, hvalid, hmeaning⟩ := actionTransformer_spec hsp hidx hdim e.step
    rw [ht]
    refine ⟨_, rfl, rfl, rfl, ?_, fun _ => ⟨hvalid, hmeaning⟩⟩
    rw [if_neg hcall]
    rfl

/-- The node of state `v`. -/
structure IsNode (sp : Space) (idx : Index) (pg : Graph) (v : Nat) (n : Node) : Prop where
  id_eq : n.id = v
  state_eq : pg.states[v]? = some n.state
  links : ∃ es, pg.out[v]? = some es ∧ List.Forall₂ (Linked sp idx pg) es n.links

/-- The first places hold their nodes, the others are free. -/
structure FilledTo (sp : Space) (idx : Index) (pg : Graph) (m : Nat)
    (slots : Array (Option Node)) : Prop where
  size_eq : slots.size = pg.size
  filled : ∀ v < m, ∃ n, slots[v]? = some (some n) ∧ IsNode sp idx pg v n
  free : ∀ v, m ≤ v → v < pg.size → slots[v]? = some none

theorem addNode_spec (hsp : sp.Proper) (hidx : idx.WellFormed) (hdim : sp.dim = idx.size)
    (hpg : pg.WellFormed) {m : Nat} {s : State} {slots : Array (Option Node)}
    (hs : pg.states[m]? = some s) (h : FilledTo sp idx pg m slots) :
    ∃ slots', addNode sp pg idx pg.entryNumbers slots s = .ok slots' ∧
      FilledTo sp idx pg (m + 1) slots' := by
  have hm : m < pg.size := (Array.getElem?_eq_some_iff.mp hs).1
  have hid := hpg.id_eq m s hs
  obtain ⟨es, hes⟩ : ∃ es, pg.out[m]? = some es :=
    ⟨_, Array.getElem?_eq_getElem (hpg.out_size.symm ▸ hm)⟩
  obtain ⟨links, hlinks, hall⟩ := Fold.mapM_ok (l := es)
    (f := linkOf sp idx pg.entryNumbers s) (R := Linked sp idx pg)
    fun e he => linkOf_spec hsp hidx hdim (hpg.callee m es hes e he) s
  have hnode : IsNode sp idx pg m { id := m, state := s, links } := ⟨rfl, hs, es, hes, hall⟩
  refine ⟨slots.setIfInBounds m (some { id := m, state := s, links }), ?_, ?_, ?_, ?_⟩
  · simp only [addNode, hid, h.free m (Nat.le_refl _) hm, hes, hlinks]
    rfl
  · simpa using h.size_eq
  · intro v hv
    by_cases hvm : v = m
    · subst hvm
      refine ⟨_, ?_, hnode⟩
      rw [Array.getElem?_setIfInBounds, if_pos rfl, if_pos (h.size_eq.symm ▸ hm)]
    · rw [Array.getElem?_setIfInBounds, if_neg (Ne.symm hvm)]
      exact h.filled v (by omega)
  · intro v hv hlt
    rw [Array.getElem?_setIfInBounds, if_neg (by omega)]
    exact h.free v (by omega) hlt

theorem mapM_id_of_filled {slots : Array (Option Node)} (h : FilledTo sp idx pg pg.size slots) :
    ∃ nodes, slots.mapM id = some nodes ∧ nodes.size = pg.size ∧
      ∀ (v : Nat) n, nodes[v]? = some n → IsNode sp idx pg v n := by
  rw [Array.mapM_eq_foldlM_push, ← Array.foldlM_toList]
  obtain ⟨nodes, hnodes, hsize, hall⟩ := Fold.foldlM_some (l := slots.toList)
    (P := fun m (acc : Array Node) => acc.size = m ∧
      ∀ (v : Nat) n, acc[v]? = some n → IsNode sp idx pg v n)
    (f := fun acc a => do return acc.push (← id a)) (b := #[]) (by simp) (by
      rintro m a acc ha ⟨hsize, hall⟩
      have hlt : m < pg.size := by
        have := (List.getElem?_eq_some_iff.mp ha).1
        rw [Array.length_toList] at this
        exact h.size_eq ▸ this
      obtain ⟨n, hn, hnode⟩ := h.filled m hlt
      obtain rfl : a = some n := by
        rw [Array.getElem?_toList] at ha
        exact Option.some.inj (ha.symm.trans hn)
      refine ⟨acc.push n, rfl, by simp [hsize], fun v n' hn' => ?_⟩
      rw [Array.getElem?_push] at hn'
      split at hn'
      · rename_i heq
        obtain rfl := Option.some.inj hn'
        rw [heq, hsize]
        exact hnode
      · exact hall v n' hn')
  refine ⟨nodes, hnodes, ?_, hall⟩
  rw [hsize, Array.length_toList, h.size_eq]

/-! ### Readers -/

/-- The readers of every node are nodes, each noted once. -/
structure Notes (size : Nat) (deps : Array (List Nat)) : Prop where
  size_eq : deps.size = size
  lt : ∀ (u : Nat) vs, deps[u]? = some vs → ∀ v ∈ vs, v < size
  nodup : ∀ (u : Nat) vs, deps[u]? = some vs → vs.Nodup

/-- It is noted that node `v` reads node `u`. -/
def Noted (deps : Array (List Nat)) (u v : Nat) : Prop :=
  ∃ vs, deps[u]? = some vs ∧ v ∈ vs

theorem mem_appendNew {l : List Nat} {x y : Nat} : y ∈ Graph.appendNew l x ↔ y ∈ l ∨ y = x := by
  unfold Graph.appendNew
  split
  · constructor
    · exact .inl
    · rintro (h | rfl)
      · exact h
      · assumption
  · simp

theorem nodup_appendNew {l : List Nat} (h : l.Nodup) (x : Nat) : (Graph.appendNew l x).Nodup := by
  unfold Graph.appendNew
  split
  · exact h
  · rename_i hx
    rw [List.nodup_append]
    refine ⟨h, by simp, fun a ha b hb => ?_⟩
    rintro rfl
    obtain rfl := List.mem_singleton.mp hb
    exact hx ha

theorem addReader_spec {size : Nat} {deps : Array (List Nat)} (h : Notes size deps) {u v : Nat}
    (hu : u < size) (hv : v < size) :
    ∃ deps', addReader deps u v = .ok deps' ∧ Notes size deps' ∧ Noted deps' u v ∧
      ∀ u' v', Noted deps u' v' → Noted deps' u' v' := by
  have hlt : u < deps.size := h.size_eq.symm ▸ hu
  have hget (u' : Nat) : (deps.modify u (Graph.appendNew · v))[u']? =
      if u = u' then (deps[u']?).map (Graph.appendNew · v) else deps[u']? := by
    rw [Array.getElem?_modify]
  refine ⟨_, if_pos hlt, ⟨by simpa using h.size_eq, fun u' vs hvs w hw => ?_,
    fun u' vs hvs => ?_⟩, ?_, ?_⟩
  · rw [hget] at hvs
    split at hvs
    · obtain ⟨vs', hvs', rfl⟩ := Option.map_eq_some_iff.mp hvs
      rcases mem_appendNew.mp hw with hw | rfl
      · exact h.lt u' vs' hvs' w hw
      · exact hv
    · exact h.lt u' vs hvs w hw
  · rw [hget] at hvs
    split at hvs
    · obtain ⟨vs', hvs', rfl⟩ := Option.map_eq_some_iff.mp hvs
      exact nodup_appendNew (h.nodup u' vs' hvs') v
    · exact h.nodup u' vs hvs
  · refine ⟨Graph.appendNew deps[u] v, ?_, mem_appendNew.mpr (.inr rfl)⟩
    rw [hget, if_pos rfl, Array.getElem?_eq_getElem hlt]
    rfl
  · rintro u' v' ⟨vs, hvs, hmem⟩
    unfold Noted
    rw [hget, hvs]
    split
    · exact ⟨_, rfl, mem_appendNew.mpr (.inl hmem)⟩
    · exact ⟨vs, rfl, hmem⟩

theorem addLink_spec {size : Nat} {deps : Array (List Nat)} (h : Notes size deps) {v : Nat}
    (hv : v < size) {l : Link} (hl : ∀ u, l.Reads u → u < size) :
    ∃ deps', addLink v deps l = .ok deps' ∧ Notes size deps' ∧
      (∀ u, l.Reads u → Noted deps' u v) ∧ ∀ u' v', Noted deps u' v' → Noted deps' u' v' := by
  obtain ⟨deps₁, h₁, hn₁, hnoted₁, hkeep₁⟩ := addReader_spec h (hl l.target (.inl rfl)) hv
  unfold addLink
  rw [h₁]
  cases hc : l.callee? with
  | none =>
    refine ⟨deps₁, ?_, hn₁, ?_, hkeep₁⟩
    · show (match l.callee with
        | some (.ofNat u) => addReader deps₁ u v
        | _ => pure deps₁) = _
      unfold Link.callee? at hc
      split
      · rename_i heq
        simp [heq] at hc
      · rfl
    · rintro u (rfl | hu)
      · exact hnoted₁
      · simp [hc] at hu
  | some w =>
    obtain ⟨deps₂, h₂, hn₂, hnoted₂, hkeep₂⟩ := addReader_spec hn₁ (hl w (.inr hc)) hv
    have hcallee : l.callee = some (.ofNat w) := by
      unfold Link.callee? at hc
      split at hc
      · rename_i heq
        rw [heq, Option.some.inj hc]
      · cases hc
    refine ⟨deps₂, ?_, hn₂, ?_, fun u' v' h' => hkeep₂ u' v' (hkeep₁ u' v' h')⟩
    · show (match l.callee with
        | some (.ofNat u) => addReader deps₁ u v
        | _ => pure deps₁) = _
      rw [hcallee]
      exact h₂
    · rintro u (rfl | hu)
      · exact hkeep₂ _ _ hnoted₁
      · obtain rfl : w = u := Option.some.inj (hc.symm.trans hu)
        exact hnoted₂

theorem readers_spec {nodes : Array Node} (hid : ∀ (v : Nat) n, nodes[v]? = some n → n.id = v)
    (hreads : ∀ (v : Nat) n, nodes[v]? = some n → ∀ l ∈ n.links, ∀ u, l.Reads u → u < nodes.size) :
    ∃ deps, readers nodes = .ok deps ∧ Notes nodes.size deps ∧
      ∀ (v : Nat) n, nodes[v]? = some n → ∀ l ∈ n.links, ∀ u, l.Reads u → Noted deps u v := by
  obtain ⟨deps, hdeps, hn, hall⟩ := Fold.foldlM_ok (l := nodes.toList)
    (P := fun m deps => Notes nodes.size deps ∧ ∀ v < m, ∀ n, nodes[v]? = some n →
      ∀ l ∈ n.links, ∀ u, l.Reads u → Noted deps u v)
    (b := Array.replicate nodes.size [])
    (f := fun deps n => n.links.foldlM (addLink n.id) deps) (by
      refine ⟨⟨by simp, fun u vs hvs v hv => ?_, fun u vs hvs => ?_⟩, by omega⟩
      · obtain ⟨-, rfl⟩ := Array.getElem?_replicate .. ▸ hvs |> Option.ite_none_right_eq_some.mp
          |> fun h => (⟨h.1, Option.some.inj h.2⟩ : _ ∧ [] = vs)
        cases hv
      · obtain ⟨-, rfl⟩ := Array.getElem?_replicate .. ▸ hvs |> Option.ite_none_right_eq_some.mp
          |> fun h => (⟨h.1, Option.some.inj h.2⟩ : _ ∧ [] = vs)
        exact List.nodup_nil) (by
      rintro m n deps hn ⟨hnotes, hall⟩
      rw [Array.getElem?_toList] at hn
      have hm := (Array.getElem?_eq_some_iff.mp hn).1
      rw [hid m n hn]
      obtain ⟨deps', hdeps', hnotes', hkeep, hlinks⟩ := Fold.foldlM_ok (l := n.links)
        (P := fun k deps' => Notes nodes.size deps' ∧
          (∀ u v, Noted deps u v → Noted deps' u v) ∧
          ∀ j < k, ∀ l, n.links[j]? = some l → ∀ u, l.Reads u → Noted deps' u m)
        (f := addLink m) ⟨hnotes, fun _ _ h => h, by omega⟩ (by
          rintro k l deps₁ hl ⟨hnotes₁, hkeep₁, hlinks₁⟩
          obtain ⟨deps₂, h₂, hnotes₂, hnoted₂, hkeep₂⟩ := addLink_spec hnotes₁ hm
            (hreads m n hn l (List.mem_of_getElem? hl))
          refine ⟨deps₂, h₂, hnotes₂, fun u v h => hkeep₂ u v (hkeep₁ u v h), ?_⟩
          intro j hj l' hl' u hu
          by_cases hjk : j = k
          · subst hjk
            obtain rfl : l = l' := Option.some.inj (hl.symm.trans hl')
            exact hnoted₂ u hu
          · exact hkeep₂ u m (hlinks₁ j (by omega) l' hl' u hu))
      refine ⟨deps', hdeps', hnotes', fun v hv n' hn' l hl u hu => ?_⟩
      by_cases hvm : v = m
      · subst hvm
        obtain rfl : n = n' := Option.some.inj (hn.symm.trans hn')
        obtain ⟨j, hj⟩ := List.mem_iff_getElem?.mp hl
        exact hlinks j (List.getElem?_eq_some_iff.mp hj).1 l hj u hu
      · exact hkeep u v (hall v (by omega) n' hn' l hl u hu))
  refine ⟨deps, hdeps, hn, fun v n hvn l hl u hu => hall v ?_ n hvn l hl u hu⟩
  rw [Array.length_toList]
  exact (Array.getElem?_eq_some_iff.mp hvn).1

/-! ### Building the graph -/

/-- What building a dependency graph yields. -/
structure Built (sp : Space) (idx : Index) (pg : Graph) (g : DependencyGraph) : Prop where
  coherent : g.Coherent
  space_eq : g.space = sp
  index_eq : g.index = idx
  initial_eq : g.initial = pg.initial
  entry_eq : g.entry = pg.entryNumbers
  size_eq : g.nodes.size = pg.size
  isNode : ∀ (v : Nat) n, g.nodes[v]? = some n → IsNode sp idx pg v n

theorem IsNode.linked {v : Nat} {n : Node} (h : IsNode sp idx pg v n) {l : Link}
    (hl : l ∈ n.links) :
    ∃ es e, pg.out[v]? = some es ∧ e ∈ es ∧ Linked sp idx pg e l := by
  obtain ⟨es, hes, hall⟩ := h.links
  obtain ⟨j, hj⟩ := List.mem_iff_getElem?.mp hl
  have hjlt := (List.getElem?_eq_some_iff.mp hj).1
  have hjes : j < es.length := hall.length_eq ▸ hjlt
  refine ⟨es, es[j], hes, List.getElem_mem hjes, ?_⟩
  have := hall.get hjes hjlt
  rwa [List.get_eq_getElem, List.get_eq_getElem, (List.getElem?_eq_some_iff.mp hj).2] at this

theorem build_spec (hsp : sp.Proper) (hidx : idx.WellFormed) (hdim : sp.dim = idx.size)
    (hpg : pg.WellFormed) (hinit : pg.initial < pg.size) :
    ∃ g, build sp pg idx = .ok g ∧ Built sp idx pg g := by
  obtain ⟨slots, hslots, hfilled⟩ := Fold.foldlM_ok (l := pg.states.toList)
    (P := FilledTo sp idx pg) (f := addNode sp pg idx pg.entryNumbers)
    (b := Array.replicate pg.size none)
    ⟨by simp, by omega, fun v _ hv => by simp [hv]⟩
    fun m s slots hs h => addNode_spec hsp hidx hdim hpg (by simpa using hs) h
  rw [Array.length_toList] at hfilled
  obtain ⟨nodes, hnodes, hsize, hall⟩ := mapM_id_of_filled hfilled
  have hid (v : Nat) (n : Node) (hn : nodes[v]? = some n) : n.id = v := (hall v n hn).id_eq
  have hreads (v : Nat) (n : Node) (hn : nodes[v]? = some n) (l : Link) (hl : l ∈ n.links) (u : Nat)
      (hu : l.Reads u) : u < nodes.size := by
    rw [hsize]
    obtain ⟨es, e, hes, he, hlink⟩ := (hall v n hn).linked hl
    rcases hu with rfl | hu
    · rw [hlink.target_eq]
      exact hpg.target_lt v es hes e he
    · obtain ⟨s, hs, -⟩ := hpg.entry?_place (hlink.call_of_callee? hu).2
      exact (Array.getElem?_eq_some_iff.mp hs).1
  obtain ⟨deps, hdeps, hnotes, hnoted⟩ := readers_spec hid hreads
  let g : DependencyGraph :=
    { nodes, index := idx, space := sp, initial := pg.initial, dependents := deps,
      entry := pg.entryNumbers }
  have hbuild : build sp pg idx = .ok g := by
    unfold build
    rw [if_neg (not_not_intro hdim)]
    simp only [hslots, hnodes, hdeps, bind, Except.bind, pure, Except.pure]
    rfl
  refine ⟨g, hbuild, ?_, rfl, rfl, rfl, rfl, hsize, hall⟩
  exact {
    space := hsp
    dim_eq := hdim
    index := hidx
    initial_lt := by
      show pg.initial < nodes.size
      rw [hsize]
      exact hinit
    id_eq := hid
    reads_lt := hreads
    call := fun v n hn l hl hcall => by
      obtain ⟨es, e, hes, he, hlink⟩ := (hall v n hn).linked hl
      rw [hlink.step_eq] at hcall
      rw [hlink.callee?_eq, if_pos hcall]
      exact hpg.callee v es hes e he hcall
    action := fun v n hn l hl hcallee => by
      obtain ⟨es, e, hes, he, hlink⟩ := (hall v n hn).linked hl
      apply hlink.action
      by_contra hcall
      rw [Bool.not_eq_false] at hcall
      rw [hlink.callee?_eq, if_pos hcall] at hcallee
      have := hpg.callee v es hes e he hcall
      simp [hcallee] at this
    dependents_size := hnotes.size_eq
    dependents_lt := hnotes.lt
    dependents_nodup := hnotes.nodup
    mem_dependents := fun v n hn l hl u hu => hnoted v n hn l hl u hu }

theorem built_of_build {f : Formula} {sys : ProcessSystem} {d : Int} {order : Option (List Int)}
    {g : DependencyGraph} (hidx : Index.ofFormula f = .ok idx) (hpg : Graph.expand sys = .ok pg)
    (hsp : Space.make d order = .ok sp) (hg : build sp pg idx = .ok g) : Built sp idx pg g := by
  have hwf := Index.wellFormed_of_ofFormula hidx
  obtain ⟨-, rfl⟩ := Graph.expand_eq_ok.mp hpg
  obtain ⟨hpg, hinit⟩ := Graph.ofSystem_wellFormed sys
  have hdim : sp.dim = idx.size := by
    by_contra hne
    unfold build at hg
    rw [if_pos hne] at hg
    cases hg
  obtain ⟨g', hg', hbuilt⟩ := build_spec (Space.proper_of_make hsp).1 hwf hdim hpg hinit
  obtain rfl : g = g' := Except.ok.inj (hg.symm.trans hg')
  exact hbuilt

/-- A numbered formula that is not too large and a valid system have equations. -/
theorem exists_build {f : Formula} {sys : ProcessSystem} (hidx : Index.ofFormula f = .ok idx)
    (hmax : idx.size ≤ Space.maxDim) (hsys : sys.validate = .ok ()) :
    ∃ sp g, Space.make idx.size (some (idx.order.map Int.ofNat)) = .ok sp ∧
      Graph.expand sys = .ok (.ofSystem sys) ∧ build sp (.ofSystem sys) idx = .ok g ∧
      Built sp idx (.ofSystem sys) g := by
  have hwf := Index.wellFormed_of_ofFormula hidx
  obtain ⟨sp, hsp⟩ := Space.make_order hwf hmax
  obtain ⟨hproper, hdim⟩ := Space.proper_of_make hsp
  obtain ⟨hpg, hinit⟩ := Graph.ofSystem_wellFormed sys
  obtain ⟨g, hg, hbuilt⟩ := build_spec hproper hwf (by exact_mod_cast hdim) hpg hinit
  exact ⟨sp, g, hsp, Graph.expand_eq_ok.mpr ⟨hsys, rfl⟩, hg, hbuilt⟩

end DependencyGraph

end MuProc
