import MuProc.Proofs.Encoding
import Mathlib.Logic.Relation

/-!
# Aliases in written formulas

A tree can be read with its aliases, or after each of them has been replaced by what it stands
for. The reader follows an alias where a formula is expected. Names, lists of operands and labelled
operands have to be written out, and a key is compared as it is spelled. So if the keys
are spelled like what they stand for, the first reading gives a formula exactly if the second one
gives it and all other aliases stand for formulas.
-/

namespace MuProc

namespace Yaml.Node

mutual

/-- The tree in which every alias is replaced by its target, at any depth. -/
def resolved : Node → Node
  | mk .alias _ _ _ _ _ (some n) => resolved n
  | mk k tag v l c ns t => mk k tag v l c (resolvedAll ns) t
termination_by structural n => n

def resolvedAll : List Node → List Node
  | [] => []
  | n :: ns => resolved n :: resolvedAll ns
termination_by structural ns => ns

end

theorem resolvedAll_eq_map (ns : List Node) : resolvedAll ns = ns.map resolved := by
  induction ns with
  | nil => rfl
  | cons n ns ih => rw [resolvedAll, ih, List.map_cons]

/-- Induction on trees: a node may rely on its content and on its target. -/
theorem induction {P : Node → Prop}
    (h : ∀ n, (∀ m ∈ n.content, P m) → (∀ m, n.target = some m → P m) → P n) (n : Node) : P n := by
  refine @Node.rec P (fun ns => ∀ m ∈ ns, P m) (fun t => ∀ m, t = some m → P m) ?node ?nil ?cons
    ?none ?some n
  case node =>
    intro kind tag value line column content target hcontent htarget
    exact h (mk kind tag value line column content target) hcontent htarget
  case nil => simp
  case cons => exact fun n ns hn hns => List.forall_mem_cons.mpr ⟨hn, hns⟩
  case none => simp
  case some => exact fun n hn m hm => Option.some.inj hm ▸ hn

variable {n : Node}

theorem resolved_eq (h : n.kind = .alias → n.target = none) :
    n.resolved = mk n.kind n.tag n.value n.line n.column (n.content.map resolved) n.target := by
  obtain ⟨kind, tag, value, line, column, content, target⟩ := n
  rw [resolved, resolvedAll_eq_map]
  · rfl
  · rintro m rfl rfl
    cases h rfl

theorem kind_resolved (h : n.kind ≠ .alias) : n.resolved.kind = n.kind := by
  rw [resolved_eq fun halias => absurd halias h, kind]

theorem value_resolved (h : n.kind ≠ .alias) : n.resolved.value = n.value := by
  rw [resolved_eq fun halias => absurd halias h, value]

theorem content_resolved (h : n.kind ≠ .alias) : n.resolved.content = n.content.map resolved := by
  rw [resolved_eq fun halias => absurd halias h, content]

end Yaml.Node

namespace Formula

open Yaml (Node)

/-! ### Roles -/

/-- What a node is read as. -/
inductive Role where
  | formula
  /-- The operands of an operator that takes several. -/
  | operands
  /-- An operand with a label for a name. -/
  | labelled (label : String)
  /-- A proposition, a variable, an action or the name of a binder. -/
  | name
  | key
deriving DecidableEq

def Shape.role : Shape → Role
  | .name _ => .name
  | .unary _ => .formula
  | .binary _ | .fold _ => .operands
  | .scoped label .. => .labelled label

/-- The keys of a mapping with their values. -/
def entriesOf : List Node → List (Node × Node)
  | key :: value :: rest => (key, value) :: entriesOf rest
  | _ => []

/-- To read a node in a role, another node is read in a role of its own. -/
inductive Reads : Role × Node → Role × Node → Prop
  | document {n m : Node} (hkind : n.kind = .document) (hcontent : n.content = [m]) :
      Reads (.formula, n) (.formula, m)
  | aliased {n m : Node} (hkind : n.kind = .alias) (htarget : n.target = some m) :
      Reads (.formula, n) (.formula, m)
  | operator {n key arg : Node} (hkind : n.kind = .mapping) (hcontent : n.content = [key, arg]) :
      Reads (.formula, n) (.key, key)
  | operand {n key arg : Node} {shape : Shape} (hkind : n.kind = .mapping)
      (hcontent : n.content = [key, arg]) (hshape : shape? key.value.text = some shape) :
      Reads (.formula, n) (shape.role, arg)
  | item {n m : Node} (hm : m ∈ n.content) : Reads (.operands, n) (.formula, m)
  | label {n key value : Node} {label : String} (hentry : (key, value) ∈ entriesOf n.content) :
      Reads (.labelled label, n) (.key, key)
  | labelName {n key value : Node} {label : String} (hentry : (key, value) ∈ entriesOf n.content)
      (hkey : key.value = label) : Reads (.labelled label, n) (.name, value)
  | body {n key value : Node} {label : String} (hentry : (key, value) ∈ entriesOf n.content)
      (hkey : key.value ≠ label) (hof : key.value = "of") :
      Reads (.labelled label, n) (.formula, value)

/-- The node `m` is read in a role on the way, if the tree `n` is read as a formula. -/
def ReadAs (n : Node) (role : Role) (m : Node) : Prop :=
  Relation.ReflTransGen Reads (.formula, n) (role, m)

/-- A property of all nodes that are read on the way, in their roles. -/
def Throughout (P : Role → Node → Prop) (x : Role × Node) : Prop :=
  ∀ role m, Relation.ReflTransGen Reads x (role, m) → P role m

variable {P : Role → Node → Prop} {n m key arg : Node} {label : String} {f : Formula}

theorem throughout_iff {x : Role × Node} :
    Throughout P x ↔ P x.1 x.2 ∧ ∀ y, Reads x y → Throughout P y := by
  constructor
  · exact fun h => ⟨h _ _ .refl, fun y hxy role m hm => h role m (.head hxy hm)⟩
  · rintro ⟨hself, hrest⟩ role m hm
    rcases hm.cases_head with rfl | ⟨y, hxy, hm⟩
    · exact hself
    · exact hrest y hxy role m hm

theorem throughout_name : Throughout P (.name, n) ↔ P .name n := by
  rw [throughout_iff]
  exact and_iff_left fun y hy => nomatch hy

theorem throughout_key : Throughout P (.key, n) ↔ P .key n := by
  rw [throughout_iff]
  exact and_iff_left fun y hy => nomatch hy

theorem throughout_operands : Throughout P (.operands, n) ↔
    P .operands n ∧ ∀ m ∈ n.content, Throughout P (.formula, m) := by
  rw [throughout_iff]
  refine and_congr_right fun _ => ⟨fun h m hm => h _ (.item hm), fun h y hy => ?_⟩
  cases hy with
  | item hm => exact h _ hm

/-- A property of all nodes that are read in the entries of a labelled operand. -/
def ThroughoutEntries (P : Role → Node → Prop) (label : String) (ns : List Node) : Prop :=
  ∀ e ∈ entriesOf ns, P .key e.1 ∧ (e.1.value = label → P .name e.2) ∧
    (e.1.value ≠ label → e.1.value = "of" → Throughout P (.formula, e.2))

theorem throughout_labelled : Throughout P (.labelled label, n) ↔
    P (.labelled label) n ∧ ThroughoutEntries P label n.content := by
  rw [throughout_iff]
  refine and_congr_right fun _ => ⟨fun h e he => ?_, fun h y hy => ?_⟩
  · exact ⟨throughout_key.mp (h _ (.label he)),
      fun hkey => throughout_name.mp (h _ (.labelName he hkey)),
      fun hkey hof => h _ (.body he hkey hof)⟩
  · cases hy with
    | label he => exact throughout_key.mpr (h _ he).1
    | labelName he hkey => exact throughout_name.mpr ((h _ he).2.1 hkey)
    | body he hkey hof => exact (h _ he).2.2 hkey hof

theorem throughoutEntries_cons {value : Node} {rest : List Node} :
    ThroughoutEntries P label (key :: value :: rest) ↔
      (P .key key ∧ (key.value = label → P .name value) ∧
        (key.value ≠ label → key.value = "of" → Throughout P (.formula, value))) ∧
      ThroughoutEntries P label rest := by
  rw [ThroughoutEntries, entriesOf, List.forall_mem_cons]
  rfl

theorem throughout_document (hkind : n.kind = .document) (hcontent : n.content = [m]) :
    Throughout P (.formula, n) ↔ P .formula n ∧ Throughout P (.formula, m) := by
  rw [throughout_iff]
  refine and_congr_right fun _ => ⟨fun h => h _ (.document hkind hcontent), fun h y hy => ?_⟩
  cases hy with
  | document _ hcontent' =>
    obtain rfl : m = _ := by simpa using hcontent.symm.trans hcontent'
    exact h
  | aliased hkind' => simp [hkind] at hkind'
  | operator hkind' => simp [hkind] at hkind'
  | operand hkind' => simp [hkind] at hkind'

theorem throughout_aliased (hkind : n.kind = .alias) (htarget : n.target = some m) :
    Throughout P (.formula, n) ↔ P .formula n ∧ Throughout P (.formula, m) := by
  rw [throughout_iff]
  refine and_congr_right fun _ => ⟨fun h => h _ (.aliased hkind htarget), fun h y hy => ?_⟩
  cases hy with
  | document hkind' => simp [hkind] at hkind'
  | aliased _ htarget' =>
    obtain rfl : m = _ := Option.some.inj (htarget.symm.trans htarget')
    exact h
  | operator hkind' => simp [hkind] at hkind'
  | operand hkind' => simp [hkind] at hkind'

theorem throughout_operator (hkind : n.kind = .mapping) (hcontent : n.content = [key, arg]) :
    Throughout P (.formula, n) ↔ P .formula n ∧ P .key key ∧
      ∀ shape, shape? key.value.text = some shape → Throughout P (shape.role, arg) := by
  rw [throughout_iff]
  refine and_congr_right fun _ => ⟨fun h => ?_, fun ⟨hkey, harg⟩ y hy => ?_⟩
  · exact ⟨throughout_key.mp (h _ (.operator hkind hcontent)),
      fun shape hshape => h _ (.operand hkind hcontent hshape)⟩
  · cases hy with
    | document hkind' => simp [hkind] at hkind'
    | aliased hkind' => simp [hkind] at hkind'
    | operator _ hcontent' =>
      obtain ⟨rfl, rfl⟩ : key = _ ∧ arg = _ := by simpa using hcontent.symm.trans hcontent'
      exact throughout_key.mpr hkey
    | operand _ hcontent' hshape =>
      obtain ⟨rfl, rfl⟩ : key = _ ∧ arg = _ := by simpa using hcontent.symm.trans hcontent'
      exact harg _ hshape

/-! ### Formulas that are read -/

theorem length_of_ofNodes {ns : List Node} {fs : List Formula} (h : ofNodes ns = .ok fs) :
    fs.length = ns.length := by
  induction ns generalizing fs with
  | nil =>
    obtain rfl := Except.ok.inj h
    rfl
  | cons n ns ih =>
    rw [ofNodes] at h
    simp only [Fold.bind_eq_ok] at h
    obtain ⟨g, -, gs, hgs, h⟩ := h
    obtain rfl := Except.ok.inj h
    rw [List.length_cons, List.length_cons, ih hgs]

/-- The node is a list of operands with the given property. -/
def Lists (Q : List Formula → Prop) (arg : Node) : Prop :=
  arg.kind = .sequence ∧ ∃ fs, ofNodes arg.content = .ok fs ∧ Q fs

/-- What an operator makes of the node below it, if that is as the operator asks. -/
def Shape.Makes (arg : Node) (f : Formula) : Shape → Prop
  | .name make => arg.kind = .scalar ∧ arg.value ≠ "" ∧ make arg.value = f
  | .unary make => ∃ g, ofNode arg = .ok g ∧ make g = f
  | .binary make => Lists (fun fs => ∃ g h, fs = [g, h] ∧ make g h = f) arg
  | .fold make => Lists (fun fs => ∃ g h gs, fs = g :: h :: gs ∧ (h :: gs).foldl make g = f) arg
  | .scoped label required make => arg.kind = .mapping ∧
    ∃ s g, ofEntries label {} arg.content = .ok s ∧ s.body = some g ∧
      (required = true → s.label.getD "" ≠ "") ∧ make (s.label.getD "") g = f

theorem nameOf_eq_ok_iff {x : Name} :
    nameOf n = .ok x ↔ n.kind = .scalar ∧ n.value ≠ "" ∧ n.value = x := by
  unfold nameOf
  split
  · rename_i h
    simp [h]
  · rename_i h
    simpa [misread] using fun hkind hvalue _ => h ⟨hkind, hvalue⟩

theorem finish_eq_ok_iff {s : Scoped} {required : Bool} {make : Name → Formula → Formula} :
    s.finish n label required make = .ok f ↔ ∃ g, s.body = some g ∧
      (required = true → s.label.getD "" ≠ "") ∧ make (s.label.getD "") g = f := by
  unfold Scoped.finish
  cases hbody : s.body with
  | none => simp [misread]
  | some g =>
    by_cases hmissing : required = true ∧ s.label.getD "" = ""
    · simp [misread, hmissing]
    · have hpresent : required = true → s.label.getD "" ≠ "" :=
        fun hreq hname => hmissing ⟨hreq, hname⟩
      simp only [if_neg hmissing, Except.ok.injEq, Option.some.injEq, exists_eq_left',
        and_iff_right hpresent]

theorem ofNode_mapping (hkind : n.kind = .mapping) (hcontent : n.content = [key, arg]) :
    ofNode n = .ok f ↔ ∃ shape, shape? key.value.text = some shape ∧ shape.Makes arg f := by
  obtain ⟨kind, tag, value, line, column, content, target⟩ := n
  obtain rfl : kind = .mapping := hkind
  obtain rfl : content = [key, arg] := hcontent
  have hn : ofNode (.mk .mapping tag value line column [key, arg] target) =
      ofOperator key arg (fun _ => ofNode arg) (fun _ => ofNodes arg.content)
        (fun label => ofEntries label {} arg.content) := by
    cases arg
    rw [ofNode]
    rfl
  rw [hn, ofOperator]
  cases hshape : shape? key.value.text with
  | none => simp [misread]
  | some shape =>
    simp only [Option.some.injEq, exists_eq_left']
    rcases shape with make | make | make | make | ⟨label, required, make⟩
    · simp [Shape.Makes, Fold.bind_eq_ok, nameOf_eq_ok_iff, and_assoc]
    · simp [Shape.Makes, Fold.bind_eq_ok]
    · by_cases harg : arg.kind = .sequence
      · cases hitems : ofNodes arg.content with
        | error e =>
          by_cases hcount : arg.content.length = 2 <;>
            simp [Shape.Makes, Lists, misread, Fold.bind_eq_ok, harg, hitems, hcount]
        | ok fs =>
          have hlen := length_of_ofNodes hitems
          rcases fs with _ | ⟨g, _ | ⟨h, _ | ⟨h', gs⟩⟩⟩ <;>
            simp [Shape.Makes, Lists, misread, Fold.bind_eq_ok, harg, hitems, ← hlen]
      · simp [Shape.Makes, Lists, misread, harg]
    · by_cases harg : arg.kind = .sequence
      · cases hitems : ofNodes arg.content with
        | error e =>
          by_cases hcount : 2 ≤ arg.content.length <;>
            simp [Shape.Makes, Lists, misread, Fold.bind_eq_ok, harg, hitems, hcount]
        | ok fs =>
          have hlen := length_of_ofNodes hitems
          rcases fs with _ | ⟨g, _ | ⟨h, gs⟩⟩ <;>
            simp [Shape.Makes, Lists, misread, Fold.bind_eq_ok, harg, hitems, ← hlen]
      · simp [Shape.Makes, Lists, misread, harg]
    · by_cases harg : arg.kind = .mapping
      · simp [Shape.Makes, Fold.bind_eq_ok, finish_eq_ok_iff, harg]
      · simp [Shape.Makes, misread, harg]

/-! ### With aliases and without -/

/-- In the roles other than those of a formula and of a key, the node is written out. -/
def WrittenOut (role : Role) (m : Node) : Prop :=
  m.kind = .alias → role = .formula ∨ role = .key

/-- A key is spelled like what it stands for. -/
def Spelled (role : Role) (m : Node) : Prop :=
  role = .key → m.resolved.value = m.value

theorem writtenOut_key : WrittenOut .key n :=
  fun _ => .inr rfl

theorem writtenOut_formula : WrittenOut .formula n :=
  fun _ => .inl rfl

theorem writtenOut_iff (role : Role) (hformula : role ≠ .formula) (hkey : role ≠ .key) :
    WrittenOut role n ↔ n.kind ≠ .alias := by
  simp [WrittenOut, hformula, hkey]

/-- If the keys are spelled out, the aliases make no difference except that they have to stand for
formulas. -/
def Agrees (n : Node) : Prop :=
  Throughout Spelled (.formula, n) → ∀ f, ofNode n = .ok f ↔
    ofNode n.resolved = .ok f ∧ Throughout WrittenOut (.formula, n)

theorem ofNodes_resolved {ns : List Node} (h : ∀ m ∈ ns, Agrees m)
    (hs : ∀ m ∈ ns, Throughout Spelled (.formula, m)) (fs : List Formula) :
    ofNodes ns = .ok fs ↔ ofNodes (ns.map Node.resolved) = .ok fs ∧
      ∀ m ∈ ns, Throughout WrittenOut (.formula, m) := by
  induction ns generalizing fs with
  | nil => simp [ofNodes]
  | cons n ns ih =>
    rw [List.forall_mem_cons] at h hs
    simp only [List.map_cons, ofNodes, Fold.bind_eq_ok, h.1 hs.1, ih h.2 hs.2,
      List.forall_mem_cons]
    constructor
    · rintro ⟨f, ⟨hf, hout⟩, gs, ⟨hgs, houts⟩, hfs⟩
      exact ⟨⟨f, hf, gs, hgs, hfs⟩, hout, houts⟩
    · rintro ⟨⟨f, hf, gs, hgs, hfs⟩, hout, houts⟩
      exact ⟨f, ⟨hf, hout⟩, gs, ⟨hgs, houts⟩, hfs⟩

/-- What one entry adds to the parts of a labelled operand. -/
theorem ofEntries_cons_eq_ok_iff {s t : Scoped} {value : Node} {rest : List Node} :
    ofEntries label s (key :: value :: rest) = .ok t ↔
      if key.value = label then
        value.kind = .scalar ∧ ofEntries label { s with label := some value.value } rest = .ok t
      else key.value = "of" ∧
        ∃ f, ofNode value = .ok f ∧ ofEntries label { s with body := some f } rest = .ok t := by
  rw [ofEntries, Fold.bind_eq_ok]
  by_cases hkey : key.value = label
  · by_cases hkind : value.kind = .scalar
    · simp [hkey, hkind]
    · simp [hkey, hkind, misread]
  · by_cases hof : key.value = "of"
    · simp only [if_neg hkey, if_pos hof, Fold.bind_eq_ok, and_iff_right hof]
      constructor
      · rintro ⟨s', ⟨f, hf, hs'⟩, ht⟩
        obtain rfl := Except.ok.inj hs'
        exact ⟨f, hf, ht⟩
      · rintro ⟨f, hf, ht⟩
        exact ⟨_, ⟨f, hf, rfl⟩, ht⟩
    · simp [hkey, hof, misread]

theorem ofEntries_resolved {s : Scoped} {ns : List Node} (h : ∀ m ∈ ns, Agrees m)
    (hs : ThroughoutEntries Spelled label ns) (t : Scoped) :
    ofEntries label s ns = .ok t ↔ ofEntries label s (ns.map Node.resolved) = .ok t ∧
      ThroughoutEntries WrittenOut label ns := by
  induction ns using entriesOf.induct generalizing s with
  | case1 key value rest ih =>
    rw [List.forall_mem_cons, List.forall_mem_cons] at h
    rw [throughoutEntries_cons] at hs
    obtain ⟨⟨hkey, -, hvalue⟩, hrest⟩ := hs
    simp only [List.map_cons, ofEntries_cons_eq_ok_iff, throughoutEntries_cons, hkey rfl,
      ih h.2.2 hrest, and_iff_right writtenOut_key]
    by_cases hlabel : key.value = label
    · simp only [if_pos hlabel, writtenOut_iff .name (by simp) (by simp)]
      by_cases halias : value.kind = .alias
      · simp [hlabel, halias]
      · rw [Node.kind_resolved halias, Node.value_resolved halias]
        simp [hlabel, halias, and_assoc]
    · by_cases hof : key.value = "of"
      · simp only [if_neg hlabel, h.2.1 (hvalue hlabel hof)]
        constructor
        · rintro ⟨-, f, ⟨hf, hout⟩, ht, houts⟩
          exact ⟨⟨hof, f, hf, ht⟩, ⟨fun hkey => absurd hkey hlabel, fun _ _ => hout⟩, houts⟩
        · rintro ⟨⟨-, f, hf, ht⟩, ⟨-, hout⟩, houts⟩
          exact ⟨hof, f, ⟨hf, hout hlabel hof⟩, ht, houts⟩
      · simp [hlabel, hof]
  | case2 ns hne =>
    rcases ns with _ | ⟨n, _ | ⟨m, ms⟩⟩
    · simp [ofEntries, ThroughoutEntries, entriesOf]
    · simp [ofEntries, ThroughoutEntries, entriesOf]
    · exact absurd rfl (hne n m ms)

theorem lists_resolved {Q : List Formula → Prop} (hitems : ∀ m ∈ arg.content, Agrees m)
    (hs : Throughout Spelled (.operands, arg)) :
    Lists Q arg ↔ Lists Q arg.resolved ∧ Throughout WrittenOut (.operands, arg) := by
  rw [throughout_operands] at hs ⊢
  rw [writtenOut_iff .operands (by simp) (by simp), Lists, Lists]
  by_cases halias : arg.kind = .alias
  · simp [halias]
  · simp only [Node.kind_resolved halias, Node.content_resolved halias,
      ofNodes_resolved hitems hs.2, ne_eq, halias, not_false_eq_true, true_and]
    tauto

/-- An operator makes the same of an operand without aliases. -/
theorem makes_resolved {shape : Shape} (harg : Agrees arg) (hitems : ∀ m ∈ arg.content, Agrees m)
    (hs : Throughout Spelled (shape.role, arg)) :
    shape.Makes arg f ↔ shape.Makes arg.resolved f ∧ Throughout WrittenOut (shape.role, arg) := by
  rcases shape with make | make | make | make | ⟨label, required, make⟩ <;>
    simp only [Shape.role] at hs ⊢
  · rw [throughout_name, writtenOut_iff .name (by simp) (by simp)]
    by_cases halias : arg.kind = .alias
    · simp [Shape.Makes, halias]
    · simp [Shape.Makes, halias, Node.kind_resolved halias, Node.value_resolved halias]
  · by_cases hout : Throughout WrittenOut (.formula, arg) <;> simp [Shape.Makes, harg hs, hout]
  · exact lists_resolved hitems hs
  · exact lists_resolved hitems hs
  · rw [throughout_labelled] at hs ⊢
    rw [writtenOut_iff (.labelled label) (by simp) (by simp)]
    by_cases halias : arg.kind = .alias
    · simp [Shape.Makes, halias]
    · simp only [Shape.Makes, Node.kind_resolved halias, Node.content_resolved halias,
        ofEntries_resolved hitems hs.2, ne_eq, halias, not_false_eq_true, true_and]
      tauto

/-- Nothing is read below the node: it holds no formula that it stands for, and no operator. -/
structure Bare (n : Node) : Prop where
  document : n.kind = .document → n.content.length ≠ 1
  target : n.kind = .alias → n.target = none
  operator : n.kind = .mapping → n.content.length ≠ 2

theorem Bare.ofNode_eq_ok_iff (h : Bare n) :
    ofNode n = .ok f ↔ n.kind = .scalar ∧ ofScalar n = .ok f := by
  obtain ⟨kind, tag, value, line, column, content, target⟩ := n
  match kind with
  | .document =>
    have hcontent : ∀ m, content = [m] → False := by
      rintro m rfl
      exact h.document rfl rfl
    rw [ofNode]
    · simp [misread, Node.kind]
    · exact hcontent
  | .sequence => simp [ofNode, misread, Node.kind]
  | .mapping =>
    have hcontent : ∀ key k t v l c ns a, content = [key, .mk k t v l c ns a] → False := by
      rintro key k t v l c ns a rfl
      exact h.operator rfl rfl
    rw [ofNode]
    · simp [misread, Node.kind]
    · exact hcontent
  | .scalar => simp [ofNode, Node.kind]
  | .alias =>
    obtain rfl : target = none := h.target rfl
    simp [ofNode, Node.kind]
  | .other => simp [ofNode, misread, Node.kind]

theorem Bare.throughout_iff (h : Bare n) : Throughout P (.formula, n) ↔ P .formula n := by
  rw [Formula.throughout_iff]
  refine and_iff_left fun y hy => ?_
  cases hy with
  | document hkind hcontent => exact absurd (by rw [hcontent]; rfl) (h.document hkind)
  | aliased hkind htarget => cases (h.target hkind).symm.trans htarget
  | operator hkind hcontent => exact absurd (by rw [hcontent]; rfl) (h.operator hkind)
  | operand hkind hcontent => exact absurd (by rw [hcontent]; rfl) (h.operator hkind)

theorem Bare.agrees (h : Bare n) : Agrees n := by
  have hlength : (n.content.map Node.resolved).length = n.content.length := List.length_map ..
  have hresolved : Bare n.resolved := by
    rw [Node.resolved_eq h.target]
    exact ⟨fun hkind => hlength ▸ h.document hkind, h.target,
      fun hkind => hlength ▸ h.operator hkind⟩
  intro _ f
  rw [h.throughout_iff, and_iff_left writtenOut_formula, h.ofNode_eq_ok_iff,
    hresolved.ofNode_eq_ok_iff, Node.resolved_eq h.target]
  rfl

theorem agrees_operator (hkind : n.kind = .mapping) (hcontent : n.content = [key, arg])
    (harg : Agrees arg) (hitems : ∀ m ∈ arg.content, Agrees m) : Agrees n := by
  have halias : n.kind ≠ .alias := by simp [hkind]
  have hkind' : n.resolved.kind = .mapping := (Node.kind_resolved halias).trans hkind
  have hcontent' : n.resolved.content = [key.resolved, arg.resolved] := by
    rw [Node.content_resolved halias, hcontent]
    rfl
  intro hs f
  rw [throughout_operator hkind hcontent] at hs ⊢
  rw [ofNode_mapping hkind hcontent, ofNode_mapping hkind' hcontent', hs.2.1 rfl]
  cases hshape : shape? key.value.text with
  | none => simp
  | some shape =>
    simp [makes_resolved harg hitems (hs.2.2 shape hshape), writtenOut_formula, writtenOut_key]

theorem agrees_document (hkind : n.kind = .document) (hcontent : n.content = [m])
    (hm : Agrees m) : Agrees n := by
  intro hs f
  rw [throughout_document hkind hcontent] at hs ⊢
  obtain ⟨kind, tag, value, line, column, content, target⟩ := n
  obtain rfl : kind = .document := hkind
  obtain rfl : content = [m] := hcontent
  rw [Node.resolved, Node.resolvedAll, Node.resolvedAll, ofNode, ofNode,
    and_iff_right writtenOut_formula]
  · exact hm hs.2 f
  · simp

theorem agrees_aliased (hkind : n.kind = .alias) (htarget : n.target = some m) (hm : Agrees m) :
    Agrees n := by
  intro hs f
  rw [throughout_aliased hkind htarget] at hs ⊢
  obtain ⟨kind, tag, value, line, column, content, target⟩ := n
  obtain rfl : kind = .alias := hkind
  obtain rfl : target = some m := htarget
  rw [Node.resolved, ofNode, and_iff_right writtenOut_formula]
  exact hm hs.2 f

/-- The ways to read further from a node, if there is one. -/
theorem bare_or_reads (n : Node) : Bare n ∨ (∃ m, n.kind = .document ∧ n.content = [m]) ∨
    (∃ m, n.kind = .alias ∧ n.target = some m) ∨
    ∃ key arg, n.kind = .mapping ∧ n.content = [key, arg] := by
  by_contra! h
  obtain ⟨hbare, hdocument, htarget, hoperator⟩ := h
  refine hbare ⟨fun hkind hlength => ?_, fun hkind => ?_, fun hkind hlength => ?_⟩
  · obtain ⟨m, hm⟩ := List.length_eq_one_iff.mp hlength
    exact hdocument m hkind hm
  · exact Option.eq_none_iff_forall_ne_some.mpr fun m => htarget m hkind
  · obtain ⟨key, arg, hcontent⟩ := List.length_eq_two.mp hlength
    exact hoperator key arg hkind hcontent

/-- Both readings agree on every tree. -/
theorem agrees (n : Node) : Agrees n := by
  -- the operands of an operator may lie two levels below it, so the content comes along
  suffices h : Agrees n ∧ ∀ m ∈ n.content, Agrees m from h.1
  induction n using Node.induction with
  | h n hcontent htarget =>
    refine ⟨?_, fun m hm => (hcontent m hm).1⟩
    rcases bare_or_reads n with hbare | ⟨m, hkind, hm⟩ | ⟨m, hkind, hm⟩ | ⟨key, arg, hkind, harg⟩
    · exact hbare.agrees
    · exact agrees_document hkind hm (hcontent m (by simp [hm])).1
    · exact agrees_aliased hkind hm (htarget m hm).1
    · obtain ⟨hself, hitems⟩ := hcontent arg (by simp [harg])
      exact agrees_operator hkind harg hself hitems

/-- If every key is spelled like what it stands for, a tree is read as a formula exactly if it is
read as that formula without aliases and none of them stands for a name, a list of operands or a
labelled operand. -/
theorem ofNode_resolves (n : Node) (hkeys : ∀ m, ReadAs n .key m → m.resolved.value = m.value)
    (f : Formula) : ofNode n = .ok f ↔ ofNode n.resolved = .ok f ∧
      ∀ role m, ReadAs n role m → m.kind = .alias → role = .formula ∨ role = .key := by
  refine agrees n ?_ f
  rintro role m hm rfl
  exact hkeys m hm

theorem spelled_operatorNode {op : String} {shape : Shape} (hshape : shape? op = some shape)
    (harg : Throughout Spelled (shape.role, arg)) :
    Throughout Spelled (.formula, operatorNode op arg) := by
  rw [throughout_operator rfl rfl]
  refine ⟨nofun, fun _ => rfl, fun shape' hshape' => ?_⟩
  have hvalue : (textNode op).value.text = op := ByteString.text_ofText op
  rw [hvalue] at hshape'
  obtain rfl := Option.some.inj (hshape.symm.trans hshape')
  exact harg

/-- An alias that stands for the operand of one of two operands. -/
theorem ofNode_resolves_operand : ∃ p n : Node,
    p = operatorNode "atomic" (textNode "p") ∧
    n = operatorNode "or" (.sequence [p, operatorNode "not" (.aliasOf "x" p 0 0)] 0 0) ∧
    (∀ m, ReadAs n .key m → m.resolved.value = m.value) ∧
    ofNode n = .ok (.or (.atom "p") (.not (.atom "p"))) ∧
    ofNode n.resolved = .ok (.or (.atom "p") (.not (.atom "p"))) ∧
    ∀ role m, ReadAs n role m → m.kind = .alias → role = .formula ∨ role = .key := by
  let p : Node := operatorNode "atomic" (textNode "p")
  let n : Node := operatorNode "or" (.sequence [p, operatorNode "not" (.aliasOf "x" p 0 0)] 0 0)
  have hp : Throughout Spelled (.formula, p) :=
    spelled_operatorNode rfl (throughout_name.mpr nofun)
  have hnot : Throughout Spelled (.formula, operatorNode "not" (.aliasOf "x" p 0 0)) :=
    spelled_operatorNode rfl ((throughout_aliased rfl rfl).mpr ⟨nofun, hp⟩)
  have hlist : Throughout Spelled
      (.operands, .sequence [p, operatorNode "not" (.aliasOf "x" p 0 0)] 0 0) :=
    throughout_operands.mpr ⟨nofun, by simp [Node.sequence, Node.content, hp, hnot]⟩
  have hn : Throughout Spelled (.formula, n) := by
    refine spelled_operatorNode rfl ?_
    exact hlist
  have hkeys (m : Node) (hm : ReadAs n .key m) : m.resolved.value = m.value := hn .key m hm rfl
  exact ⟨p, n, rfl, rfl, hkeys, rfl, (ofNode_resolves n hkeys _).mp rfl⟩

/-- A name that is given as an alias is refused, although it could be read without. -/
theorem ofNode_alias_refused : ∃ n : Node,
    n = operatorNode "atomic" (.aliasOf "x" (textNode "p") 1 10) ∧
    ofNode n = .error (.misread 1 10 .expectedName) ∧ ofNode n.resolved = .ok (.atom "p") :=
  ⟨_, rfl, rfl, rfl⟩

end Formula

end MuProc
