import MuProc.Proofs.Decisions

/-!
# Combining decision tables

Entering a decision keeps a table reduced and leaves the entries it has alone. The
walk through two tables visits pairs of entries; each pair gets an entry whose
answer is the operation on the answers of the two, and whose first decision lies
no lower than theirs.
-/

namespace MuProc.Decision

variable {n : Nat} {ds es : Array Decision} {k l : Nat} {d e : Decision}

/-! ### Tables that grow -/

/-- The entries of the first table are the first entries of the second. -/
structure Extends (ds es : Array Decision) : Prop where
  size_le : ds.size ≤ es.size
  at?_eq : ∀ k, k < ds.size + 2 → at? es k = at? ds k

theorem Extends.refl (ds : Array Decision) : Extends ds ds :=
  ⟨Nat.le_refl _, fun _ _ => rfl⟩

theorem Extends.trans {fs : Array Decision} (h : Extends ds es) (h' : Extends es fs) :
    Extends ds fs := by
  refine ⟨Nat.le_trans h.size_le h'.size_le, fun k hk => ?_⟩
  have := h.size_le
  rw [h'.at?_eq k (by omega), h.at?_eq k hk]

theorem Extends.push (ds : Array Decision) (d : Decision) : Extends ds (ds.push d) :=
  ⟨by simp, fun _ hk => at?_push d hk⟩

theorem Extends.above (h : Extends ds es) (hk : k < ds.size + 2) :
    Above es l k ↔ Above ds l k := by
  unfold Above
  rw [h.at?_eq k hk]

theorem Extends.result_eq (h : Extends ds es) (ho : Ordered n ds) (ho' : Ordered n es)
    (hk : k < ds.size + 2) (x : Nat → Bool) : result es k x = result ds k x := by
  induction k using Nat.strongRecOn with
  | ind k ih =>
    have hat := h.at?_eq k hk
    cases hd : at? ds k with
    | none => rw [result_of_none hd, result_of_none (hat.trans hd)]
    | some d =>
      have hlt := ho.next_lt k d hd (x d.level)
      rw [result_of_some ho hd, result_of_some ho' (hat.trans hd)]
      exact ih _ hlt (by omega)

/-! ### Entering a decision -/

theorem eq_of_order_eq (h : order d e = .eq) : d = e := by
  cases d
  cases e
  simp only [order, compareLex, compareOn, Ordering.then_eq_eq, Nat.compare_eq_eq] at h
  simp_all

theorem eq_of_pairOrder_eq {p q : Nat × Nat} (h : pairOrder p q = .eq) : p = q := by
  cases p
  cases q
  simp only [pairOrder, compareLex, compareOn, Ordering.then_eq_eq, Nat.compare_eq_eq] at h
  simp_all

theorem order_self (d : Decision) : order d d = .eq := by
  simp [order, compareLex, compareOn]

instance : Std.TransCmp order := by
  unfold order
  infer_instance

instance : Std.TransCmp pairOrder := by
  unfold pairOrder
  infer_instance

/-- A reduced table whose map finds exactly its decisions. -/
structure Table.Good (n : Nat) (t : Table) : Prop extends Reduced n t.decisions where
  entries_iff : ∀ d k, t.entries[d]? = some k ↔ at? t.decisions k = some d

theorem Table.Good.empty : Table.Good n {} := by
  refine ⟨⟨Ordered.empty, ?_, ?_⟩, ?_⟩ <;> simp [at?_empty]

/-- A decision that can be entered: it leads to entries of the table above its level. -/
structure Enterable (n : Nat) (ds : Array Decision) (d : Decision) : Prop where
  level_lt : d.level < n
  next_lt : ∀ b, d.next b < ds.size + 2
  next_above : ∀ b, Above ds d.level (d.next b)

theorem at?_push_cases {d' : Decision} (h : at? (ds.push d) k = some d') :
    (k < ds.size + 2 ∧ at? ds k = some d') ∨ (k = ds.size + 2 ∧ d = d') := by
  rcases Nat.lt_trichotomy k (ds.size + 2) with hk | rfl | hk
  · exact .inl ⟨hk, by rwa [at?_push d hk] at h⟩
  · exact .inr ⟨rfl, by rwa [at?_push_last, Option.some.injEq] at h⟩
  · rw [at?_push_of_gt d hk] at h
    exact absurd h (by simp)

theorem Ordered.push (ho : Ordered n ds) (he : Enterable n ds d) :
    Ordered n (ds.push d) := by
  have hx := Extends.push ds d
  refine ⟨fun k d' hd => ?_, fun k d' hd b => ?_, fun k d' hd b => ?_⟩
  · rcases at?_push_cases hd with ⟨-, hd⟩ | ⟨-, rfl⟩
    · exact ho.level_lt k d' hd
    · exact he.level_lt
  · rcases at?_push_cases hd with ⟨-, hd⟩ | ⟨rfl, rfl⟩
    · exact ho.next_lt k d' hd b
    · exact he.next_lt b
  · rcases at?_push_cases hd with ⟨hk, hd⟩ | ⟨-, rfl⟩
    · have hlt := ho.next_lt k d' hd b
      exact (hx.above (by omega)).mpr (ho.next_above k d' hd b)
    · exact (hx.above (he.next_lt b)).mpr (he.next_above b)

theorem Reduced.push (hr : Reduced n ds) (he : Enterable n ds d) (hne : d.high ≠ d.low)
    (hnew : ∀ k, at? ds k ≠ some d) : Reduced n (ds.push d) := by
  refine ⟨hr.toOrdered.push he, fun k d' hd => ?_, fun k k' d' hd hd' => ?_⟩
  · rcases at?_push_cases hd with ⟨-, hd⟩ | ⟨-, rfl⟩
    · exact hr.high_ne_low k d' hd
    · exact hne
  · rcases at?_push_cases hd with ⟨-, hd⟩ | ⟨rfl, rfl⟩ <;>
      rcases at?_push_cases hd' with ⟨-, hd'⟩ | ⟨rfl, hde⟩
    · exact hr.distinct k k' d' hd hd'
    · exact absurd (hde ▸ hd) (hnew k)
    · exact absurd hd' (hnew k')
    · rfl

/-- What entering a decision does to a table. -/
structure Entered (n : Nat) (t : Table) (d : Decision) (r : Nat × Table) : Prop where
  good : r.2.Good n
  extend : Extends t.decisions r.2.decisions
  lt : r.1 < r.2.decisions.size + 2
  above : ∀ l, l < d.level → Above r.2.decisions l r.1
  result_eq : ∀ x, result r.2.decisions r.1 x = result t.decisions (d.next (x d.level)) x

theorem Table.Good.enter {t : Table} (hg : t.Good n) (he : Enterable n t.decisions d) :
    Entered n t d (t.enter d) := by
  have ho := hg.toOrdered
  unfold Table.enter
  split
  · rename_i heq
    have hnext (b : Bool) : d.next b = d.low := by
      cases b with
      | false => rfl
      | true => exact heq
    exact {
      good := hg
      extend := Extends.refl _
      lt := he.next_lt false
      above := fun l hl => (he.next_above false).of_le (Nat.le_of_lt hl)
      result_eq := fun x => by rw [hnext] }
  · rename_i hne
    split
    · rename_i k hk
      have hat := (hg.entries_iff d k).mp hk
      exact {
        good := hg
        extend := Extends.refl _
        lt := (lt_of_at? hat).2
        above := fun l hl d' hd' => by simp_all
        result_eq := fun x => result_of_some ho hat x }
    · rename_i hnone
      have hnew (k : Nat) : at? t.decisions k ≠ some d := by
        intro hat
        have := (hg.entries_iff d k).mpr hat
        simp [hnone] at this
      have hr := hg.toReduced.push he hne hnew
      have hx := Extends.push t.decisions d
      refine {
        good := ⟨hr, fun d' k => ?_⟩
        extend := hx
        lt := by simp
        above := fun l hl d' hd' => ?_
        result_eq := fun x => ?_ }
      · rw [Std.TreeMap.getElem?_insert]
        by_cases hdd : d = d'
        · subst hdd
          simp only [order_self, if_true, Option.some.injEq]
          constructor
          · rintro rfl
            exact at?_push_last d
          · intro hat
            exact hr.distinct _ _ d (at?_push_last d) hat
        · have hne' : order d d' ≠ .eq := fun h => hdd (eq_of_order_eq h)
          rw [if_neg hne', hg.entries_iff]
          constructor
          · intro hat
            rwa [hx.at?_eq k (lt_of_at? hat).2]
          · intro hat
            rcases at?_push_cases hat with ⟨-, hat⟩ | ⟨-, h⟩
            · exact hat
            · exact absurd h hdd
      · rw [at?_push_last, Option.some.injEq] at hd'
        exact hd' ▸ hl
      · rw [result_of_some hr.toOrdered (at?_push_last d)]
        exact hx.result_eq ho hr.toOrdered (he.next_lt _) x

/-! ### Walking through two tables -/

/-- Entry `k` combines entry `i` of one table with entry `j` of another. -/
structure Combines (op : Bool → Bool → Bool) (ds es ts : Array Decision) (i j k : Nat) : Prop where
  lt : k < ts.size + 2
  result_eq : ∀ x, result ts k x = op (result ds i x) (result es j x)
  above : ∀ l, Above ds l i → Above es l j → Above ts l k

/-- A good table in which every pair found has the entry that combines it. -/
structure Combination.Good (n : Nat) (op : Bool → Bool → Bool) (ds es : Array Decision)
    (c : Combination) : Prop where
  table : c.table.Good n
  found : ∀ i j k, c.found[(i, j)]? = some k → Combines op ds es c.table.decisions i j k

variable {op : Bool → Bool → Bool} {ts us : Array Decision} {i j : Nat}

theorem Combines.extend (h : Combines op ds es ts i j k) (hx : Extends ts us)
    (ho : Ordered n ts) (ho' : Ordered n us) : Combines op ds es us i j k where
  lt := Nat.lt_of_lt_of_le h.lt (Nat.add_le_add_right hx.size_le 2)
  result_eq x := (hx.result_eq ho ho' h.lt x).trans (h.result_eq x)
  above l hi hj := (hx.above h.lt).mpr (h.above l hi hj)

theorem Combination.Good.empty : Combination.Good n op ds es {} where
  table := Table.Good.empty
  found i j k hk := by simp at hk

theorem answer?_eq_some {b : Bool} (h : answer? ds k = some b) (x : Nat → Bool) :
    result ds k x = b := by
  unfold answer? at h
  split at h
  · rename_i hat
    rw [result_of_none hat]
    exact Option.some.inj h
  · cases h

theorem at?_answer (b : Bool) : at? ds (answer b) = none := by
  cases b <;> simp [at?, answer]

theorem result_answer (b : Bool) (x : Nat → Bool) : result ds (answer b) x = b := by
  rw [result_of_none (at?_answer b)]
  cases b <;> rfl

theorem combines_answer {b : Bool} (h : ∀ x, op (result ds i x) (result es j x) = b) :
    Combines op ds es ts i j (answer b) where
  lt := by
    cases b <;> simp [answer]
  result_eq x := by rw [result_answer, h]
  above l _ _ d hd := by simp [at?_answer] at hd

theorem settled?_eq_some {a b : Option Bool} {v u w : Bool} (h : settled? op a b = some v)
    (ha : ∀ c, a = some c → u = c) (hb : ∀ c, b = some c → w = c) : op u w = v := by
  cases a with
  | none =>
    cases b with
    | none => cases h
    | some c =>
      obtain rfl := hb c rfl
      simp only [settled?, Option.ite_none_right_eq_some, Option.some.injEq] at h
      cases u with
      | false => exact h.2
      | true => exact h.1.symm.trans h.2
  | some c =>
    obtain rfl := ha c rfl
    cases b with
    | none =>
      simp only [settled?, Option.ite_none_right_eq_some, Option.some.injEq] at h
      cases w with
      | false => exact h.2
      | true => exact h.1.symm.trans h.2
    | some c' =>
      obtain rfl := hb c' rfl
      exact Option.some.inj h

theorem first?_eq_some {a b : Option Decision} (h : first? a b = some d) :
    (a = some d ∨ b = some d) ∧ (∀ c, a = some c → d.level ≤ c.level) ∧
      ∀ c, b = some c → d.level ≤ c.level := by
  cases a with
  | none =>
    cases b with
    | none => cases h
    | some c => simp_all [first?]
  | some c =>
    cases b with
    | none => simp_all [first?]
    | some c' =>
      simp only [first?, Option.some.injEq] at h
      split at h
      · subst h
        simp
        omega
      · subst h
        simp
        omega

theorem result_follow (ho : Ordered n ds) (v i : Nat) (x : Nat → Bool) :
    result ds (follow ds v (x v) i) x = result ds i x := by
  unfold follow
  split
  · rfl
  · rename_i d hd
    split
    · rename_i hv
      rw [result_of_some ho hd, hv]
    · rfl

theorem above_follow (ho : Ordered n ds) (hl : ∀ c, at? ds i = some c → l ≤ c.level) (b : Bool) :
    Above ds l (follow ds l b i) := by
  unfold follow
  split
  · rename_i hnone
    intro c hc
    simp [hnone] at hc
  · rename_i c hc
    split
    · rename_i hcl
      exact hcl ▸ ho.next_above i c hc b
    · rename_i hcl
      intro c' hc'
      obtain rfl : c = c' := Option.some.inj (hc.symm.trans hc')
      have hle := hl c hc
      omega

/-- How far an entry is from the answers. -/
def rank (ds : Array Decision) (k : Nat) : Nat :=
  if (at? ds k).isSome then k - 1 else 0

theorem rank_le_size (ds : Array Decision) (k : Nat) : rank ds k ≤ ds.size := by
  unfold rank
  split
  · rename_i h
    obtain ⟨d, hd⟩ := Option.isSome_iff_exists.mp h
    have := lt_of_at? hd
    omega
  · omega

theorem rank_next (ho : Ordered n ds) (hd : at? ds k = some d) (b : Bool) :
    rank ds (d.next b) < rank ds k := by
  have hlt := ho.next_lt k d hd b
  have hk := lt_of_at? hd
  simp only [rank, hd, Option.isSome_some, if_true]
  split
  · rename_i h
    obtain ⟨d', hd'⟩ := Option.isSome_iff_exists.mp h
    have := lt_of_at? hd'
    omega
  · omega

theorem rank_follow_le (ho : Ordered n ds) (v : Nat) (b : Bool) (i : Nat) :
    rank ds (follow ds v b i) ≤ rank ds i := by
  unfold follow
  split
  · exact Nat.le_refl _
  · split
    · exact Nat.le_of_lt (rank_next ho ‹_› b)
    · exact Nat.le_refl _

theorem rank_follow_lt (ho : Ordered n ds) (hd : at? ds i = some d) (b : Bool) :
    rank ds (follow ds d.level b i) < rank ds i := by
  simp only [follow, hd, if_true]
  exact rank_next ho hd b

/-- The walk through two tables keeps what it has found and finds what it looks for. -/
structure Walked (n : Nat) (op : Bool → Bool → Bool) (ds es : Array Decision) (i j : Nat)
    (c : Combination) (r : Nat × Combination) : Prop where
  good : r.2.Good n op ds es
  extend : Extends c.table.decisions r.2.table.decisions
  combines : Combines op ds es r.2.table.decisions i j r.1

/-- Both sides of the decision that comes first are combined, and the decision between
them is entered. -/
theorem Walked.join (ho : Ordered n ds) (ho' : Ordered n es)
    {c : Combination} {r₁ r₂ : Nat × Combination}
    (hfirst : first? (at? ds i) (at? es j) = some d)
    (high : Walked n op ds es (follow ds d.level true i) (follow es d.level true j) c r₁)
    (low : Walked n op ds es (follow ds d.level false i) (follow es d.level false j) r₁.2 r₂) :
    Walked n op ds es i j c
      (let (k, table) := r₂.2.table.enter { d with high := r₁.1, low := r₂.1 }
       (k, { table, found := r₂.2.found.insert (i, j) k })) := by
  obtain ⟨hone, hmin, hmin'⟩ := first?_eq_some hfirst
  have hlev : d.level < n := by
    rcases hone with h | h
    · exact ho.level_lt i d h
    · exact ho'.level_lt j d h
  have high' := high.combines.extend low.extend high.good.table.toOrdered low.good.table.toOrdered
  have habove (b : Bool) := above_follow ho hmin b
  have habove' (b : Bool) := above_follow ho' hmin' b
  have hent : Enterable n r₂.2.table.decisions { d with high := r₁.1, low := r₂.1 } := by
    refine ⟨hlev, fun b => ?_, fun b => ?_⟩
    · cases b with
      | false => exact low.combines.lt
      | true => exact high'.lt
    · cases b with
      | false => exact low.combines.above _ (habove false) (habove' false)
      | true => exact high'.above _ (habove true) (habove' true)
  have hin := low.good.table.enter hent
  generalize r₂.2.table.enter { d with high := r₁.1, low := r₂.1 } = r₃ at hin ⊢
  have hcomb : Combines op ds es r₃.2.decisions i j r₃.1 := by
    refine ⟨hin.lt, fun x => ?_, fun l hi hj => ?_⟩
    · rw [hin.result_eq, ← result_follow ho d.level i x, ← result_follow ho' d.level j x]
      cases hb : x d.level with
      | false => exact low.combines.result_eq x
      | true => exact high'.result_eq x
    · apply hin.above
      rcases hone with h | h
      · exact hi d h
      · exact hj d h
  refine ⟨⟨hin.good, fun i' j' k' hk' => ?_⟩, (high.extend.trans low.extend).trans hin.extend,
    hcomb⟩
  rw [Std.TreeMap.getElem?_insert] at hk'
  split at hk'
  · rename_i heq
    obtain ⟨rfl, rfl⟩ := Prod.mk.inj (eq_of_pairOrder_eq heq)
    obtain rfl := Option.some.inj hk'
    exact hcomb
  · exact (low.good.found i' j' k' hk').extend hin.extend low.good.table.toOrdered
      hin.good.toOrdered

theorem combine_walked (ho : Ordered n ds) (ho' : Ordered n es)
    {fuel : Nat} {c : Combination} (hc : c.Good n op ds es)
    (hfuel : rank ds i + rank es j < fuel) :
    Walked n op ds es i j c (combine op ds es fuel i j c) := by
  induction fuel generalizing i j c with
  | zero => omega
  | succ fuel ih =>
    unfold combine
    split
    · rename_i v _ hv
      exact {
        good := hc
        extend := Extends.refl _
        combines := combines_answer fun x => settled?_eq_some hv
          (fun b hb => answer?_eq_some hb x) (fun b hb => answer?_eq_some hb x) }
    · rename_i hnone hfirst
      -- two answers settle every operation
      exfalso
      have hi : at? ds i = none := by
        cases hi : at? ds i <;> cases hj : at? es j <;> simp_all [first?]
      have hj : at? es j = none := by
        cases hj : at? es j <;> simp_all [first?]
      simp [answer?, hi, hj, settled?] at hnone
    · rename_i d hnone hfirst
      split
      · rename_i k hk
        exact { good := hc, extend := Extends.refl _, combines := hc.found i j k hk }
      · have hrank (b : Bool) : rank ds (follow ds d.level b i) + rank es (follow es d.level b j) <
            fuel := by
          have h1 := rank_follow_le ho d.level b i
          have h2 := rank_follow_le ho' d.level b j
          rcases (first?_eq_some hfirst).1 with h | h
          · have := rank_follow_lt ho h b
            omega
          · have := rank_follow_lt ho' h b
            omega
        have high := ih hc (hrank true)
        exact Walked.join ho ho' hfirst high (ih high.good (hrank false))

end MuProc.Decision
