import MuProc.Proofs.Aliases

/-!
# Aliases as keys

A key of a mapping is read as it is spelled. A key that is an alias is spelled like its anchor and
not like the node that it stands for, so it makes no difference, to the formula or to the error,
if a plain key is written in its place.
-/

namespace MuProc

namespace Yaml.Node

/-- An alias as a plain text; other keys stay as they are. -/
def plainKey (key : Node) : Node :=
  if key.kind = .alias then scalar "!!str" key.value key.line key.column else key

mutual

/-- The tree with plain texts for all keys that are aliases. -/
def plainKeys : Node → Node
  | mk .mapping tag v l c ns t => mk .mapping tag v l c (plainEntries ns) t
  | mk .alias tag v l c ns (some n) => mk .alias tag v l c ns (some (plainKeys n))
  | mk k tag v l c ns t => mk k tag v l c (plainKeysAll ns) t
termination_by structural n => n

def plainKeysAll : List Node → List Node
  | [] => []
  | n :: ns => plainKeys n :: plainKeysAll ns
termination_by structural ns => ns

/-- Keys and values in turn. -/
def plainEntries : List Node → List Node
  | key :: value :: rest => plainKey key :: plainKeys value :: plainEntries rest
  | ns => ns
termination_by structural ns => ns

end

/-- Two nodes look alike from above: what is below them is not looked at. -/
structure Alike (n m : Node) : Prop where
  kind : n.kind = m.kind
  value : n.value = m.value
  line : n.line = m.line
  column : n.column = m.column
  length : n.content.length = m.content.length

theorem value_plainKey (key : Node) : key.plainKey.value = key.value := by
  rw [plainKey]
  split <;> rfl

theorem line_plainKey (key : Node) : key.plainKey.line = key.line := by
  rw [plainKey]
  split <;> rfl

theorem column_plainKey (key : Node) : key.plainKey.column = key.column := by
  rw [plainKey]
  split <;> rfl

theorem length_plainKeysAll (ns : List Node) : (plainKeysAll ns).length = ns.length := by
  induction ns with
  | nil => rfl
  | cons n ns ih => rw [plainKeysAll, List.length_cons, ih, List.length_cons]

theorem length_plainEntries : (ns : List Node) → (plainEntries ns).length = ns.length
  | [] => rfl
  | [_] => rfl
  | _ :: _ :: rest => by
    rw [plainEntries, List.length_cons, List.length_cons, length_plainEntries rest,
      List.length_cons, List.length_cons]

theorem alike_plainKeys (n : Node) : Alike n.plainKeys n := by
  obtain ⟨kind, tag, value, line, column, content, target⟩ := n
  rw [plainKeys.eq_def]
  split
  · next h =>
    obtain ⟨rfl, rfl, rfl, rfl, rfl, rfl, rfl⟩ := Node.mk.inj h
    exact ⟨rfl, rfl, rfl, rfl, length_plainEntries _⟩
  · next h =>
    obtain ⟨rfl, rfl, rfl, rfl, rfl, rfl, rfl⟩ := Node.mk.inj h
    exact ⟨rfl, rfl, rfl, rfl, rfl⟩
  · next h =>
    obtain ⟨rfl, rfl, rfl, rfl, rfl, rfl, rfl⟩ := Node.mk.inj h
    exact ⟨rfl, rfl, rfl, rfl, length_plainKeysAll _⟩

end Yaml.Node

namespace Formula

open Yaml (Node)

open Yaml.Node (plainKeysAll plainEntries value_plainKey line_plainKey column_plainKey)

theorem misread_congr {α : Type} {n m : Node} (hline : n.line = m.line)
    (hcolumn : n.column = m.column) (cause : Misread) :
    (misread n cause : Except DecodeError α) = misread m cause := by
  rw [misread, misread, hline, hcolumn]

theorem ofNodes_plainKeysAll {ns : List Node} (h : ∀ m ∈ ns, ofNode m.plainKeys = ofNode m) :
    ofNodes (plainKeysAll ns) = ofNodes ns := by
  induction ns with
  | nil => rfl
  | cons n ns ih =>
    obtain ⟨hn, hns⟩ := List.forall_mem_cons.mp h
    rw [plainKeysAll, ofNodes, hn, ih hns, ofNodes]

theorem ofEntries_plainEntries (label : String) (s : Scoped) :
    (ns : List Node) → (∀ m ∈ ns, ofNode m.plainKeys = ofNode m) →
      ofEntries label s (plainEntries ns) = ofEntries label s ns
  | [], _ => rfl
  | [_], _ => rfl
  | key :: value :: rest, h => by
    obtain ⟨-, h⟩ := List.forall_mem_cons.mp h
    obtain ⟨hvalue, hrest⟩ := List.forall_mem_cons.mp h
    have halike := value.alike_plainKeys
    have hafter (s : Scoped) := ofEntries_plainEntries label s rest hrest
    rw [plainEntries, ofEntries, ofEntries, value_plainKey, hvalue, halike.kind, halike.value,
      misread_congr halike.line halike.column,
      misread_congr (line_plainKey key) (column_plainKey key)]
    simp only [hafter]

/-- An operator is read alike, as long as what its kind of operand asks for is read alike. -/
theorem ofOperator_congr {key key' arg arg' : Node}
    {whole whole' : Unit → Except DecodeError Formula}
    {items items' : Unit → Except DecodeError (List Formula)}
    {entries entries' : String → Except DecodeError Scoped} (hvalue : key.value = key'.value)
    (hline : key.line = key'.line) (hcolumn : key.column = key'.column) (harg : arg.Alike arg')
    (hwhole : whole = whole') (hitems : arg.kind = .sequence → items = items')
    (hentries : arg.kind = .mapping → entries = entries') :
    ofOperator key arg whole items entries = ofOperator key' arg' whole' items' entries' := by
  subst hwhole
  have hname : nameOf arg = nameOf arg' := by
    rw [nameOf, nameOf, harg.kind, harg.value, misread_congr harg.line harg.column]
  have hfault {α : Type} (cause : Misread) :
      (misread arg cause : Except DecodeError α) = misread arg' cause :=
    misread_congr harg.line harg.column cause
  have hfinish (s : Scoped) (label : String) (required : Bool)
      (make : Name → Formula → Formula) :
      s.finish arg label required make = s.finish arg' label required make := by
    rw [Scoped.finish, Scoped.finish, hfault, hfault]
  simp only [ofOperator, ← hvalue]
  cases shape? key.value.text with
  | none => exact misread_congr hline hcolumn _
  | some shape =>
    cases shape with
    | name make => simp only [hname]
    | unary make => rfl
    | binary make =>
      by_cases hkind : arg.kind = .sequence
      · simp only [← harg.kind, hkind, hitems hkind, harg.length, hfault]
      · simp only [← harg.kind, ne_eq, hkind, not_false_eq_true, if_true, hfault]
    | fold make =>
      by_cases hkind : arg.kind = .sequence
      · simp only [← harg.kind, hkind, hitems hkind, harg.length, hfault]
      · simp only [← harg.kind, ne_eq, hkind, not_false_eq_true, if_true, hfault]
    | «scoped» label required make =>
      by_cases hkind : arg.kind = .mapping
      · simp only [← harg.kind, hkind, hentries hkind, hfinish, hfault]
      · simp only [← harg.kind, ne_eq, hkind, not_false_eq_true, if_true, hfault]

theorem ofNode_operator_eq (tag : String) (value : ByteString) (line column : Int)
    (key arg : Node) (target : Option Node) :
    ofNode (.mk .mapping tag value line column [key, arg] target) =
      ofOperator key arg (fun _ => ofNode arg) (fun _ => ofNodes arg.content)
        (fun label => ofEntries label {} arg.content) := by
  cases arg
  rw [ofNode]
  rfl

theorem ofNode_of_length_ne {tag : String} {value : ByteString} {line column : Int}
    {content : List Node} {target : Option Node} (h : content.length ≠ 2) :
    ofNode (.mk .mapping tag value line column content target) =
      .error (.misread line column (.operatorCount (content.length / 2))) := by
  rw [ofNode]
  · rfl
  · rintro key k t v l c ns a rfl
    exact h rfl

/-- A key that is an alias is read as the text that its anchor is spelled like. -/
theorem ofNode_plainKeys (n : Node) : ofNode n.plainKeys = ofNode n := by
  -- the operands of an operator may lie two levels below it, so the content comes along
  suffices h : ofNode n.plainKeys = ofNode n ∧ ∀ m ∈ n.content, ofNode m.plainKeys = ofNode m
    from h.1
  induction n using Node.induction with
  | h n hcontent htarget =>
    refine ⟨?_, fun m hm => (hcontent m hm).1⟩
    obtain ⟨kind, tag, value, line, column, content, target⟩ := n
    cases kind with
    | document =>
      match content with
      | [m] => exact (hcontent m (List.mem_singleton_self m)).1
      | [] => rfl
      | _ :: _ :: _ => rfl
    | mapping =>
      by_cases hlength : content.length = 2
      · obtain ⟨key, arg, rfl⟩ := List.length_eq_two.mp hlength
        obtain ⟨harg, hitems⟩ := hcontent arg (by simp [Node.content])
        show ofNode (.mk .mapping tag value line column [key.plainKey, arg.plainKeys] target) = _
        rw [ofNode_operator_eq, ofNode_operator_eq]
        refine ofOperator_congr (value_plainKey key) (line_plainKey key) (column_plainKey key)
          arg.alike_plainKeys (funext fun _ => harg) (fun hkind => ?_) (fun hkind => ?_)
        · rw [arg.alike_plainKeys.kind] at hkind
          obtain ⟨kind, _, _, _, _, content, _⟩ := arg
          obtain rfl : kind = .sequence := hkind
          exact funext fun _ => ofNodes_plainKeysAll hitems
        · rw [arg.alike_plainKeys.kind] at hkind
          obtain ⟨kind, _, _, _, _, content, _⟩ := arg
          obtain rfl : kind = .mapping := hkind
          exact funext fun label => ofEntries_plainEntries label {} content hitems
      · have hentries := Node.length_plainEntries content
        rw [Node.plainKeys, ofNode_of_length_ne hlength, ofNode_of_length_ne (hentries ▸ hlength),
          hentries]
    | «alias» =>
      cases target with
      | none => rfl
      | some m => exact (htarget m rfl).1
    | scalar => rfl
    | sequence => rfl
    | other => rfl

/-- An alias as an operator: it is spelled like one operator and stands for another one, and the
formula is that of the first. -/
theorem ofNode_alias_key : ∃ n : Node,
    n = .mapping [.aliasOf "or" (textNode "and") 1 2,
      .sequence [operatorNode "atomic" (textNode "p"), operatorNode "atomic" (textNode "q")] 1 7]
        1 1 ∧
    ofNode n = .ok (.or (.atom "p") (.atom "q")) ∧
    ofNode n.resolved = .ok (.and (.atom "p") (.atom "q")) :=
  ⟨_, rfl, rfl, rfl⟩

end Formula

end MuProc
