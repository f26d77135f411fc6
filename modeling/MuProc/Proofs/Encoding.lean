import MuProc.Formula.Decode
import MuProc.Proofs.ByteStrings
import MuProc.Proofs.Folds

/-!
# Formulas written down and read back

A formula whose propositions, variables and binders have names can be written as a tree of
mappings with one operator each. Reading such a tree gives the formula back, wherever its nodes
stand, and lists of operands are grouped to the left. Reading gives no other formulas: whatever
the tree, and whichever path operators are expanded on the way, all names are there.
-/

namespace MuProc.Formula

open Yaml (Node)

/-- Propositions, variables and binders are not empty. Actions may be. -/
def Named : Formula → Prop
  | .tt | .ff => True
  | .atom p => p ≠ ""
  | .var x => x ≠ ""
  | .not f | .box _ f | .dia _ f => f.Named
  | .and f g | .or f g => f.Named ∧ g.Named
  | .mu x f | .nu x f => x ≠ "" ∧ f.Named

/-! ### Writing -/

def IsText (s : Name) (n : Node) : Prop :=
  n.kind = .scalar ∧ n.value = s

/-- The node is `{op: arg}`. -/
def IsOperator (op : String) (arg n : Node) : Prop :=
  n.kind = .mapping ∧ ∃ key, IsText op key ∧ n.content = [key, arg]

def IsList (ns : List Node) (n : Node) : Prop :=
  n.kind = .sequence ∧ n.content = ns

/-- The node is `{label: name, of: body}`, in this or the other order. An empty name may be left
out together with its label. -/
def IsLabelled (label : String) (name : Name) (body n : Node) : Prop :=
  n.kind = .mapping ∧ ∃ ofKey, IsText "of" ofKey ∧
    (name = "" ∧ n.content = [ofKey, body] ∨ ∃ key value, IsText label key ∧ IsText name value ∧
      (n.content = [key, value, ofKey, body] ∨ n.content = [ofKey, body, key, value]))

/-- The formula is written as the node, at whatever place in a document. -/
def Writes : Formula → Node → Prop
  | .tt, n => IsText "true" n ∧ n.tag = "!!bool"
  | .ff, n => IsText "false" n ∧ n.tag = "!!bool"
  | .atom p, n => ∃ arg, IsOperator "atomic" arg n ∧ IsText p arg
  | .var x, n => ∃ arg, IsOperator "var" arg n ∧ IsText x arg
  | .not f, n => ∃ arg, IsOperator "not" arg n ∧ f.Writes arg
  | .and f g, n => ∃ arg l r, IsOperator "and" arg n ∧ IsList [l, r] arg ∧ f.Writes l ∧ g.Writes r
  | .or f g, n => ∃ arg l r, IsOperator "or" arg n ∧ IsList [l, r] arg ∧ f.Writes l ∧ g.Writes r
  | .box a f, n =>
    ∃ arg body, IsOperator "box" arg n ∧ IsLabelled "action" a body arg ∧ f.Writes body
  | .dia a f, n =>
    ∃ arg body, IsOperator "diamond" arg n ∧ IsLabelled "action" a body arg ∧ f.Writes body
  | .mu x f, n => ∃ arg body, IsOperator "mu" arg n ∧ IsLabelled "var" x body arg ∧ f.Writes body
  | .nu x f, n => ∃ arg body, IsOperator "nu" arg n ∧ IsLabelled "var" x body arg ∧ f.Writes body

def textNode (s : Name) : Node :=
  .scalar "!!str" s 0 0

def operatorNode (op : String) (arg : Node) : Node :=
  .mapping [textNode op, arg] 0 0

def labelledNode (label : String) (name : Name) (body : Node) : Node :=
  let named := if name = "" then [] else [textNode label, textNode name]
  .mapping (named ++ [textNode "of", body]) 0 0

/-- A formula as a tree that stands in no document. -/
def toNode : Formula → Node
  | .tt => .scalar "!!bool" "true" 0 0
  | .ff => .scalar "!!bool" "false" 0 0
  | .atom p => operatorNode "atomic" (textNode p)
  | .var x => operatorNode "var" (textNode x)
  | .not f => operatorNode "not" f.toNode
  | .and f g => operatorNode "and" (.sequence [f.toNode, g.toNode] 0 0)
  | .or f g => operatorNode "or" (.sequence [f.toNode, g.toNode] 0 0)
  | .box a f => operatorNode "box" (labelledNode "action" a f.toNode)
  | .dia a f => operatorNode "diamond" (labelledNode "action" a f.toNode)
  | .mu x f => operatorNode "mu" (labelledNode "var" x f.toNode)
  | .nu x f => operatorNode "nu" (labelledNode "var" x f.toNode)

theorem isText_textNode (s : Name) : IsText s (textNode s) :=
  ⟨rfl, rfl⟩

theorem isOperator_operatorNode (op : String) (arg : Node) :
    IsOperator op arg (operatorNode op arg) :=
  ⟨rfl, textNode op, isText_textNode op, rfl⟩

theorem isLabelled_labelledNode (label : String) (name : Name) (body : Node) :
    IsLabelled label name body (labelledNode label name body) := by
  refine ⟨rfl, textNode "of", isText_textNode "of", ?_⟩
  by_cases hname : name = ""
  · exact .inl ⟨hname, by simp [labelledNode, Node.mapping, Node.content, hname]⟩
  · exact .inr ⟨textNode label, textNode name, isText_textNode label, isText_textNode name,
      .inl (by simp [labelledNode, Node.mapping, Node.content, hname])⟩

theorem writes_toNode (f : Formula) : f.Writes f.toNode := by
  have hop := isOperator_operatorNode
  have hlab := isLabelled_labelledNode
  induction f with
  | tt => exact ⟨⟨rfl, rfl⟩, rfl⟩
  | ff => exact ⟨⟨rfl, rfl⟩, rfl⟩
  | atom p => exact ⟨_, hop .., isText_textNode p⟩
  | var x => exact ⟨_, hop .., isText_textNode x⟩
  | not f ih => exact ⟨_, hop .., ih⟩
  | and f g ihf ihg => exact ⟨_, _, _, hop .., ⟨rfl, rfl⟩, ihf, ihg⟩
  | or f g ihf ihg => exact ⟨_, _, _, hop .., ⟨rfl, rfl⟩, ihf, ihg⟩
  | box a f ih => exact ⟨_, _, hop .., hlab .., ih⟩
  | dia a f ih => exact ⟨_, _, hop .., hlab .., ih⟩
  | mu x f ih => exact ⟨_, _, hop .., hlab .., ih⟩
  | nu x f ih => exact ⟨_, _, hop .., hlab .., ih⟩

/-! ### Reading an operator -/

variable {op label : String} {name : Name} {n arg : Node} {f : Formula}

theorem ofNodes_eq_mapM (ns : List Node) : ofNodes ns = ns.mapM ofNode := by
  induction ns with
  | nil => rfl
  | cons n ns ih => rw [ofNodes, ih, List.mapM_cons]

theorem ofNode_constant (hkind : n.kind = .scalar) (h : ofScalar n = .ok f) : ofNode n = .ok f := by
  obtain ⟨kind, tag, value, line, column, content, target⟩ := n
  obtain rfl : kind = .scalar := hkind
  rw [ofNode, h]

theorem ofNode_operator (h : IsOperator op arg n) : ∃ key, IsText op key ∧
    ofNode n = ofOperator key arg (fun _ => ofNode arg) (fun _ => ofNodes arg.content)
      (fun label => ofEntries label {} arg.content) := by
  obtain ⟨hkind, key, hkey, hcontent⟩ := h
  obtain ⟨kind, tag, value, line, column, content, target⟩ := n
  obtain rfl : kind = .mapping := hkind
  obtain rfl : content = [key, arg] := hcontent
  cases arg
  exact ⟨key, hkey, by rw [ofNode]; rfl⟩

theorem ofNode_name {make : Name → Formula} (hs : shape? op = some (.name make))
    (h : IsOperator op arg n) (harg : IsText name arg) (hname : name ≠ "") :
    ofNode n = .ok (make name) := by
  obtain ⟨key, hkey, hn⟩ := ofNode_operator h
  obtain ⟨hkind, rfl⟩ := harg
  simp only [hn, ofOperator, hkey.2, ByteString.text_ofText, hs, nameOf]
  rw [if_pos ⟨hkind, hname⟩]
  rfl

theorem ofNode_unary {make : Formula → Formula} (hs : shape? op = some (.unary make))
    (h : IsOperator op arg n) (harg : ofNode arg = .ok f) : ofNode n = .ok (make f) := by
  obtain ⟨key, hkey, hn⟩ := ofNode_operator h
  simp only [hn, ofOperator, hkey.2, ByteString.text_ofText, hs, harg]
  rfl

/-- Two operands or more are grouped to the left. -/
theorem ofNode_fold {make : Formula → Formula → Formula} (hs : shape? op = some (.fold make))
    (h : IsOperator op arg n) {n₁ n₂ : Node} {ns : List Node} (harg : IsList (n₁ :: n₂ :: ns) arg) :
    ofNode n = do
      let f ← ofNode n₁
      let fs ← (n₂ :: ns).mapM ofNode
      return fs.foldl make f := by
  obtain ⟨key, hkey, hn⟩ := ofNode_operator h
  obtain ⟨hkind, hcontent⟩ := harg
  have hcount : 2 ≤ (n₁ :: n₂ :: ns).length := by simp
  simp only [hn, ofOperator, hkey.2, ByteString.text_ofText, hs, hkind, hcontent, ofNodes_eq_mapM,
    if_pos hcount,
    ne_eq, not_true_eq_false, if_false]
  rw [List.mapM_cons]
  simp only [bind_assoc, pure_bind]

theorem ofEntries_labelled {body : Node} (hlabel : label ≠ "of")
    (h : IsLabelled label name body arg) (hbody : ofNode body = .ok f) :
    ∃ s, ofEntries label {} arg.content = .ok s ∧ s.body = some f ∧ s.label.getD "" = name := by
  obtain ⟨-, ofKey, ⟨-, hof⟩, ⟨rfl, hcontent⟩ | ⟨key, value, ⟨-, hkey⟩, ⟨hkind, hvalue⟩,
    hcontent | hcontent⟩⟩ := h
  all_goals rw [hcontent]
  · exact ⟨{ body := some f }, by simp [ofEntries, hof, hlabel.symm, hbody, Fold.ok_bind], rfl, rfl⟩
  · exact ⟨{ label := some name, body := some f },
      by simp [ofEntries, hof, hkey, hkind, hvalue, hlabel.symm, hbody, Fold.ok_bind], rfl, rfl⟩
  · exact ⟨{ label := some name, body := some f },
      by simp [ofEntries, hof, hkey, hkind, hvalue, hlabel.symm, hbody, Fold.ok_bind], rfl, rfl⟩

theorem ofNode_scoped {required : Bool} {make : Name → Formula → Formula}
    (hs : shape? op = some (.scoped label required make)) (hlabel : label ≠ "of")
    (h : IsOperator op arg n) {body : Node} (harg : IsLabelled label name body arg)
    (hbody : ofNode body = .ok f) (hname : required = true → name ≠ "") :
    ofNode n = .ok (make name f) := by
  obtain ⟨key, hkey, hn⟩ := ofNode_operator h
  obtain ⟨s, hentries, hf, hlab⟩ := ofEntries_labelled hlabel harg hbody
  have hpresent : ¬ (required = true ∧ name = "") := fun hmissing => hname hmissing.1 hmissing.2
  simp only [hn, ofOperator, hkey.2, ByteString.text_ofText, hs, harg.1, hentries, Fold.ok_bind,
    Scoped.finish, hf, hlab,
    if_neg hpresent, ne_eq, not_true_eq_false, if_false]

/-- A written formula is read back. -/
theorem ofNode_of_writes (hf : f.Named) (h : f.Writes n) : ofNode n = .ok f := by
  induction f generalizing n with
  | tt =>
    obtain ⟨⟨hkind, hvalue⟩, htag⟩ := h
    exact ofNode_constant hkind (by simp [ofScalar, hvalue, htag])
  | ff =>
    obtain ⟨⟨hkind, hvalue⟩, htag⟩ := h
    exact ofNode_constant hkind (by simp [ofScalar, hvalue, htag])
  | atom p =>
    obtain ⟨arg, hop, harg⟩ := h
    exact ofNode_name rfl hop harg hf
  | var x =>
    obtain ⟨arg, hop, harg⟩ := h
    exact ofNode_name rfl hop harg hf
  | not f ih =>
    obtain ⟨arg, hop, harg⟩ := h
    exact ofNode_unary rfl hop (ih hf harg)
  | and f g ihf ihg =>
    obtain ⟨arg, l, r, hop, harg, hl, hr⟩ := h
    rw [ofNode_fold rfl hop harg, ihf hf.1 hl, List.mapM_cons, ihg hf.2 hr]
    rfl
  | or f g ihf ihg =>
    obtain ⟨arg, l, r, hop, harg, hl, hr⟩ := h
    rw [ofNode_fold rfl hop harg, ihf hf.1 hl, List.mapM_cons, ihg hf.2 hr]
    rfl
  | box a f ih =>
    obtain ⟨arg, body, hop, harg, hbody⟩ := h
    exact ofNode_scoped rfl (by decide) hop harg (ih hf hbody) (by simp)
  | dia a f ih =>
    obtain ⟨arg, body, hop, harg, hbody⟩ := h
    exact ofNode_scoped rfl (by decide) hop harg (ih hf hbody) (by simp)
  | mu x f ih =>
    obtain ⟨arg, body, hop, harg, hbody⟩ := h
    exact ofNode_scoped rfl (by decide) hop harg (ih hf.2 hbody) fun _ => hf.1
  | nu x f ih =>
    obtain ⟨arg, body, hop, harg, hbody⟩ := h
    exact ofNode_scoped rfl (by decide) hop harg (ih hf.2 hbody) fun _ => hf.1

/-! ### Names of what is read -/

theorem fresh_ne_empty (fs : List Formula) : fresh fs ≠ "" := by
  have hcandidate (i : Nat) : candidate i ≠ "" := by
    rw [candidate, ← ByteString.ofText_append, ne_eq, ByteString.ofText_inj]
    simp
  have hfirst (used : Std.HashSet Name) (fuel i : Nat) : firstUnused used fuel i ≠ "" := by
    induction fuel generalizing i with
    | zero => exact hcandidate i
    | succ fuel ih =>
      rw [firstUnused]
      split
      · exact ih (i + 1)
      · exact hcandidate i
  exact hfirst _ _ 0

/-- An operator that is given named operands makes a named formula. -/
def Shape.Keeps : Shape → Prop
  | .name make => ∀ x : Name, x ≠ "" → (make x).Named
  | .unary make => ∀ f, f.Named → (make f).Named
  | .binary make | .fold make => ∀ f g, f.Named → g.Named → (make f g).Named
  | .scoped _ required make => ∀ (x : Name) f,
      (required = true → x ≠ "") → f.Named → (make x f).Named

theorem keeps_of_shape? {shape : Shape} (h : shape? op = some shape) : shape.Keeps := by
  unfold shape? at h
  split at h <;> cases h <;>
    simp [Shape.Keeps, Named, ax, ex, af, ef, ag, eg, implies, au, eu, aw, ew, progress, continues,
      fresh_ne_empty] <;> tauto

theorem named_foldl {make : Formula → Formula → Formula} {fs : List Formula}
    (hmake : ∀ f g, f.Named → g.Named → (make f g).Named) (hf : f.Named)
    (hfs : ∀ g ∈ fs, g.Named) : (fs.foldl make f).Named := by
  induction fs generalizing f with
  | nil => exact hf
  | cons g fs ih =>
    exact ih (hmake f g hf (hfs g (List.mem_cons_self ..)))
      fun g' hg' => hfs g' (List.mem_cons_of_mem _ hg')

theorem named_of_ofScalar (h : ofScalar n = .ok f) : f.Named := by
  unfold ofScalar at h
  split at h
  · exact Except.ok.inj h ▸ trivial
  split at h
  · exact Except.ok.inj h ▸ trivial
  split at h
  · cases h
  · rename_i hvalue
    exact Except.ok.inj h ▸ hvalue

theorem named_of_finish {s : Scoped} {required : Bool} {make : Name → Formula → Formula}
    (hmake : (Shape.scoped label required make).Keeps) (hs : ∀ f, s.body = some f → f.Named)
    (h : s.finish n label required make = .ok f) : f.Named := by
  unfold Scoped.finish at h
  split at h
  · cases h
  · rename_i g hg
    dsimp only at h
    split at h
    · cases h
    · rename_i hpresent
      obtain rfl := Except.ok.inj h
      exact hmake _ g (fun hreq hempty => hpresent ⟨hreq, hempty⟩) (hs g hg)

/-- An operator makes a named formula of what is read below it. -/
theorem named_of_ofOperator {key arg : Node} {whole : Unit → Except DecodeError Formula}
    {items : Unit → Except DecodeError (List Formula)}
    {entries : String → Except DecodeError Scoped}
    (hwhole : ∀ f, whole () = .ok f → f.Named)
    (hitems : ∀ fs, items () = .ok fs → ∀ f ∈ fs, f.Named)
    (hentries : ∀ label s, entries label = .ok s → ∀ f, s.body = some f → f.Named)
    (h : ofOperator key arg whole items entries = .ok f) : f.Named := by
  unfold ofOperator at h
  dsimp only at h
  split at h
  · cases h
  · rename_i make hs
    obtain ⟨x, hx, h⟩ := Fold.bind_eq_ok.mp h
    obtain rfl := Except.ok.inj h
    unfold nameOf at hx
    split at hx
    · rename_i hname
      exact keeps_of_shape? hs x (Except.ok.inj hx ▸ hname.2)
    · cases hx
  · rename_i make hs
    obtain ⟨g, hg, h⟩ := Fold.bind_eq_ok.mp h
    obtain rfl := Except.ok.inj h
    exact keeps_of_shape? hs g (hwhole g hg)
  · rename_i make hs
    split at h
    · cases h
    obtain ⟨fs, hfs, h⟩ := Fold.bind_eq_ok.mp h
    split at hfs
    · split at h
      · rename_i f₁ f₂
        obtain rfl := Except.ok.inj h
        exact keeps_of_shape? hs f₁ f₂ (hitems _ hfs f₁ (by simp)) (hitems _ hfs f₂ (by simp))
      · cases h
    · cases hfs
  · rename_i make hs
    split at h
    · cases h
    obtain ⟨fs, hfs, h⟩ := Fold.bind_eq_ok.mp h
    split at hfs
    · split at h
      · rename_i f₁ fs
        obtain rfl := Except.ok.inj h
        exact named_foldl (keeps_of_shape? hs) (hitems _ hfs f₁ (by simp))
          fun g hg => hitems _ hfs g (List.mem_cons_of_mem _ hg)
      · cases h
    · cases hfs
  · rename_i label required make hs
    split at h
    · cases h
    obtain ⟨s, hentry, h⟩ := Fold.bind_eq_ok.mp h
    exact named_of_finish (keeps_of_shape? hs) (hentries label s hentry) h

/-- Whatever the tree, the names of the formula are there. -/
theorem named_of_ofNode (n : Node) : ∀ f, ofNode n = .ok f → f.Named := by
  -- along the recursion of the reader, with all items of a list and the parts read so far
  refine ofNode.induct (fun n => ∀ f, ofNode n = .ok f → f.Named)
    (fun label s ns => (∀ f, s.body = some f → f.Named) →
      ∀ t, ofEntries label s ns = .ok t → ∀ f, t.body = some f → f.Named)
    (fun ns => ∀ fs, ofNodes ns = .ok fs → ∀ f ∈ fs, f.Named)
    ?document ?notOne ?aliased ?dangling ?scalar ?operator ?notOperator ?other ?entry ?noEntry
    ?nil ?cons n
  case document =>
    intro _ _ _ _ n _ ih f h
    rw [ofNode] at h
    exact ih f h
  case notOne =>
    intro t v l c ns a hne f h
    rw [ofNode] at h
    · cases h
    · exact hne
  case aliased =>
    intro _ _ _ _ _ n ih f h
    rw [ofNode] at h
    exact ih f h
  case dangling =>
    intro _ _ _ _ _ f h
    rw [ofNode] at h
    cases h
  case scalar =>
    intro t v l c ns a f h
    rw [ofNode] at h
    exact named_of_ofScalar h
  case operator =>
    intro _ _ _ _ key k t v l c ns a _ hwhole hitems hentries f h
    rw [ofNode] at h
    refine named_of_ofOperator hwhole hitems (fun label s hs => ?_) h
    exact hentries label (by simp) s hs
  case notOperator =>
    intro t v l c ns a hne f h
    rw [ofNode] at h
    · cases h
    · exact hne
  case other =>
    intro k t v l c ns a _ _ _ _ _ _ _ f h
    rw [ofNode] at h
    · cases h
    all_goals assumption
  case entry =>
    intro label s key value rest ih ihrest hs t h
    rw [ofEntries] at h
    obtain ⟨s', hs', h⟩ := Fold.bind_eq_ok.mp h
    refine ihrest s' (fun f hf => ?_) t h
    split at hs'
    · split at hs'
      · obtain rfl := Except.ok.inj hs'
        exact hs f hf
      · cases hs'
    split at hs'
    · obtain ⟨g, hg, hs'⟩ := Fold.bind_eq_ok.mp hs'
      obtain rfl := Except.ok.inj hs'
      exact Option.some.inj hf ▸ ih g hg
    · cases hs'
  case noEntry =>
    intro ns label s hne hs t h
    rw [ofEntries] at h
    · obtain rfl := Except.ok.inj h
      exact hs
    · exact hne
  case nil =>
    intro fs h
    obtain rfl := Except.ok.inj h
    simp
  case cons =>
    intro n ns ih ihs fs h
    rw [ofNodes] at h
    simp only [Fold.bind_eq_ok] at h
    obtain ⟨f, hf, gs, hgs, h⟩ := h
    obtain rfl := Except.ok.inj h
    exact List.forall_mem_cons.mpr ⟨ih f hf, ihs gs hgs⟩

/-- Reading undoes writing for every formula with names, lists of two operands or more are grouped
to the left, and only formulas with names are read. -/
theorem ofNode_inverts :
    (∀ f : Formula, f.Named →
      ofNode f.toNode = .ok f ∧ ∀ n, f.Writes n → ofNode n = .ok f) ∧
    (∀ op make, (op, make) ∈ [("and", Formula.and), ("or", Formula.or)] →
      ∀ n arg n₁ n₂ ns, IsOperator op arg n → IsList (n₁ :: n₂ :: ns) arg →
        ofNode n = do
          let f ← ofNode n₁
          let fs ← (n₂ :: ns).mapM ofNode
          return fs.foldl make f) ∧
    ∀ n f, ofNode n = .ok f → f.Named := by
  refine ⟨fun f hf => ⟨ofNode_of_writes hf f.writes_toNode, fun n => ofNode_of_writes hf⟩, ?_,
    named_of_ofNode⟩
  intro op make hmem n arg n₁ n₂ ns hop harg
  have hs : shape? op = some (.fold make) := by
    simp only [List.mem_cons, Prod.mk.injEq, List.not_mem_nil, or_false] at hmem
    rcases hmem with ⟨rfl, rfl⟩ | ⟨rfl, rfl⟩
    · rfl
    · rfl
  exact ofNode_fold hs hop harg

/-- A proposition spelled like a constant, an action that is left out and three operands. -/
theorem ofNode_inverts_three :
    ofNode (toNode (.mu "X" (.or (.atom "true") (.dia "" (.var "X"))))) =
      .ok (.mu "X" (.or (.atom "true") (.dia "" (.var "X")))) ∧
    ofNode (operatorNode "and" (.sequence [toNode .tt, textNode "true", textNode "q"] 0 0)) =
      .ok (.and (.and .tt (.atom "true")) (.atom "q")) ∧
    Named (.and (.and .tt (.atom "true")) (.atom "q")) := by
  obtain ⟨hread, hfold, hnamed⟩ := ofNode_inverts
  have hthree : ofNode (operatorNode "and"
      (.sequence [toNode .tt, textNode "true", textNode "q"] 0 0)) =
      .ok (.and (.and .tt (.atom "true")) (.atom "q")) := by
    rw [hfold "and" .and (by simp) _ _ _ _ _ (isOperator_operatorNode ..) ⟨rfl, rfl⟩]
    rfl
  exact ⟨(hread _ (by simp [Named])).1, hthree, hnamed _ _ hthree⟩

end MuProc.Formula
