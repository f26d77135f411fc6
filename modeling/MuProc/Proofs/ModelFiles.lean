import MuProc.File.Spec
import MuProc.Proofs.ByteStrings
import MuProc.Proofs.Cycles
import Mathlib.Data.List.Nodup

/-!
# Models described by files

A file describes a model exactly if its fields are as they should be, every property has a
formula, the processes have distinct names and the system that is written there is valid. The model
then has the processes of the file in their order, with their propositions, and with their rules
step by step. The checks of the fields and the validation of the system overlap: once the fields
are as they should be, every kind can be read, and validation can only find that a process
is not defined or that recursion is not guarded.
-/

namespace MuProc

/-! ### Fields -/

/-- What the fields of a step have to be like. -/
structure StepSpec.Conforms (s : StepSpec) : Prop where
  action : s.call = "" → s.action ≠ ""
  call : s.call ≠ "" → s.action = ""
  kind : s.kind ≠ "" → s.kind = "may" ∨ s.kind = "must"

/-- What the fields of a process have to be like. -/
structure ProcessSpec.Conforms (p : ProcessSpec) : Prop where
  name : p.name ≠ ""
  propositions : ∀ q ∈ p.propositions, q ≠ ""
  rules : ∀ r ∈ p.rules, r ≠ [] ∧ ∀ s ∈ r, s.Conforms

/-- What the fields of a file have to be like. -/
structure ModelFile.Conforms (f : ModelFile) : Prop where
  name : f.name ≠ ""
  initial : f.initial ≠ ""
  processes : ∃ ps, f.processes = some ps ∧ ps ≠ [] ∧ ∀ p ∈ ps, p.Conforms
  properties : ∀ p ∈ f.properties, p.name ≠ ""

theorem requireText_eq_nil_iff {path field : String} (value : ByteString) :
    requireText path field value = [] ↔ value ≠ "" := by
  unfold requireText
  split <;> simp_all

theorem violationsOf_eq_nil_iff {α : Type} {check : Nat → α → List Violation} {P : α → Prop}
    (h : ∀ i a, check i a = [] ↔ P a) (l : List α) :
    violationsOf check l = [] ↔ ∀ a ∈ l, P a := by
  rw [violationsOf, List.flatMap_eq_nil_iff]
  constructor
  · intro hall a ha
    obtain ⟨i, hi⟩ := List.getElem?_of_mem ha
    exact (h i a).mp (hall (a, i) (List.mem_zipIdx_iff_getElem?.mpr hi))
  · rintro hall ⟨a, i⟩ hmem
    exact (h i a).mpr (hall a (List.fst_mem_of_mem_zipIdx hmem))

theorem StepSpec.violations_eq_nil_iff {path : String} (s : StepSpec) :
    s.violations path = [] ↔ s.Conforms := by
  have hkind : (s.kind = "" ∨ s.kind = "may" ∨ s.kind = "must") ↔
      (s.kind ≠ "" → s.kind = "may" ∨ s.kind = "must") := by
    by_cases hempty : s.kind = "" <;> simp [hempty]
  rw [violations, List.append_eq_nil_iff]
  constructor
  · rintro ⟨haction, hk⟩
    refine ⟨fun hcall hempty => ?_, fun hcall => ?_, hkind.mp ?_⟩
    · simp [hcall, hempty] at haction
    · by_contra hne
      simp [hcall, hne] at haction
    · by_contra hne
      simp [hne] at hk
  · rintro ⟨haction, hcall, hk⟩
    refine ⟨?_, by simp [hkind.mpr hk]⟩
    by_cases hc : s.call = ""
    · simp [hc, haction hc]
    · simp [hc, hcall hc]

theorem ruleViolations_eq_nil_iff {path : String} {i : Nat} (rule : List StepSpec) :
    ruleViolations path i rule = [] ↔ rule ≠ [] ∧ ∀ s ∈ rule, s.Conforms := by
  rw [ruleViolations]
  by_cases hempty : rule = []
  · simp [hempty]
  · have hsteps : violationsOf (fun j (s : StepSpec) =>
        s.violations (path ++ memberName (memberName "Rules" i) j ++ ".")) rule = [] ↔
        ∀ s ∈ rule, s.Conforms :=
      violationsOf_eq_nil_iff (fun _ s => s.violations_eq_nil_iff) rule
    simpa [hempty] using hsteps

theorem ProcessSpec.violations_eq_nil_iff {path : String} (p : ProcessSpec) :
    p.violations path = [] ↔ p.Conforms := by
  have hprops : violationsOf (fun i (prop : Name) =>
      requireText path (memberName "Propositions" i) prop) p.propositions = [] ↔
      ∀ q ∈ p.propositions, q ≠ "" :=
    violationsOf_eq_nil_iff (fun _ q => requireText_eq_nil_iff q) _
  have hrules : violationsOf (ruleViolations path) p.rules = [] ↔ _ :=
    violationsOf_eq_nil_iff (fun _ r => ruleViolations_eq_nil_iff r) _
  rw [violations, List.append_eq_nil_iff, List.append_eq_nil_iff, requireText_eq_nil_iff, hprops,
    hrules]
  exact ⟨fun ⟨⟨hname, hprops⟩, hrules⟩ => ⟨hname, hprops, hrules⟩,
    fun h => ⟨⟨h.name, h.propositions⟩, h.rules⟩⟩

/-- No field violates a rule exactly if the fields are as they should be. -/
theorem ModelFile.violations_eq_nil_iff {f : ModelFile} : f.violations = [] ↔ f.Conforms := by
  have hname (path : String) (name : String) :
      requireText path "Name" name = [] ↔ name ≠ "" :=
    (requireText_eq_nil_iff name).trans (not_congr ByteString.ofText_inj)
  have hproperties : violationsOf (fun i (p : PropertySpec) =>
      requireText ("File." ++ memberName "Properties" i ++ ".") "Name" p.name) f.properties = [] ↔
      ∀ p ∈ f.properties, p.name ≠ "" :=
    violationsOf_eq_nil_iff (fun _ p => hname _ p.name) _
  have hspecs (ps : List ProcessSpec) : violationsOf (fun i (p : ProcessSpec) =>
      p.violations ("File." ++ memberName "Processes" i ++ ".")) ps = [] ↔ ∀ p ∈ ps, p.Conforms :=
    violationsOf_eq_nil_iff (fun _ p => p.violations_eq_nil_iff) _
  rw [violations, List.append_eq_nil_iff, List.append_eq_nil_iff, List.append_eq_nil_iff,
    requireText_eq_nil_iff, requireText_eq_nil_iff, hproperties, ne_eq, ByteString.ofText_inj]
  constructor
  · rintro ⟨⟨⟨hname, hinitial⟩, hprocesses⟩, hprops⟩
    refine ⟨hname, hinitial, ?_, hprops⟩
    split at hprocesses
    · cases hprocesses
    · cases hprocesses
    · rename_i ps hne hps
      exact ⟨ps, hps, hne, (hspecs ps).mp hprocesses⟩
  · rintro ⟨hname, hinitial, ⟨ps, hps, hne, hall⟩, hprops⟩
    refine ⟨⟨⟨hname, hinitial⟩, ?_⟩, hprops⟩
    obtain ⟨p, rest, rfl⟩ := List.exists_cons_of_ne_nil hne
    simpa [hps] using (hspecs _).mpr hall

/-! ### Steps, rules and processes -/

/-- The step that is written: a call if a callee is named, and an action otherwise, which may
happen if the file says so. -/
def StepSpec.step (s : StepSpec) : Step :=
  if s.call ≠ "" then .run s.call else .act s.action (if s.kind = "may" then .may else .must)

/-- The process that is written. -/
def ProcessSpec.definition (p : ProcessSpec) : Definition where
  name := p.name
  props := p.propositions
  rules := p.rules.map (·.map StepSpec.step)

theorem map_name_definition (ps : List ProcessSpec) :
    (ps.map ProcessSpec.definition).map (·.name) = ps.map (·.name) :=
  List.map_map ..

theorem Modality.ofText?_eq {kind : Name} (h : kind ≠ "" → kind = "may" ∨ kind = "must") :
    ofText? kind = some (if kind = "may" then .may else .must) := by
  by_cases hempty : kind = ""
  · subst hempty
    decide +kernel
  · rcases h hempty with rfl | rfl
    · decide +kernel
    · decide +kernel

theorem StepSpec.Conforms.step?_eq {s : StepSpec} (h : s.Conforms) : s.step? = some s.step := by
  unfold step? step
  split
  · rfl
  · rw [Modality.ofText?_eq h.kind]
    rfl

theorem stepsOf_eq {p : Name} {i j : Nat} {r : List StepSpec} (h : ∀ s ∈ r, s.Conforms) :
    stepsOf p i j r = .ok (r.map StepSpec.step) := by
  induction r generalizing j with
  | nil => rfl
  | cons s rest ih =>
    rw [List.forall_mem_cons] at h
    rw [stepsOf, h.1.step?_eq, ih h.2]
    rfl

theorem rulesOf_eq {p : Name} {i : Nat} {rules : List (List StepSpec)}
    (h : ∀ r ∈ rules, ∀ s ∈ r, s.Conforms) :
    rulesOf p i rules = .ok (rules.map (·.map StepSpec.step)) := by
  induction rules generalizing i with
  | nil => rfl
  | cons r rest ih =>
    rw [List.forall_mem_cons] at h
    rw [rulesOf, stepsOf_eq h.1, ih h.2]
    rfl

namespace Model

variable {m : Model} {p : Name}

theorem find?_eq_none_iff : m.find? p = none ↔ p ∉ m.defs.map (·.name) := by
  simp [find?]

theorem modify_new (hnew : p ∉ m.defs.map (·.name)) (f : Definition → Definition) :
    m.modify p f = { m with defs := m.defs ++ [f { name := p }] } := by
  rw [modify, find?_eq_none_iff.mpr hnew]
  rfl

/-- Changing the last definition, if no other one has its name. -/
theorem modify_last {d : Definition} {ds : List Definition} (hm : m.defs = ds ++ [d])
    (hnew : d.name ∉ ds.map (·.name)) (f : Definition → Definition) :
    m.modify d.name f = { m with defs := ds ++ [f d] } := by
  have hfound : (m.find? d.name).isSome = true := by
    rw [Option.isSome_iff_ne_none, Ne, find?_eq_none_iff, hm]
    simp
  have hothers (d' : Definition) (hd' : d' ∈ ds) : d'.name ≠ d.name :=
    fun heq => hnew (heq ▸ List.mem_map_of_mem hd')
  have hmap : ds.map (fun d' => if d'.name = d.name then f d' else d') = ds :=
    (List.map_congr_left fun d' hd' => if_neg (hothers d' hd')).trans (List.map_id ds)
  rw [modify, if_pos hfound, hm, List.map_append, hmap]
  simp

/-- A definition with a new name is added at the end as it is. -/
theorem add_new {d : Definition} (hnew : d.name ∉ m.defs.map (·.name)) :
    m.add d = { m with defs := m.defs ++ [d] } := by
  have hrules (rules before : List Rule) (m' : Model)
      (hm' : m'.defs = m.defs ++ [{ d with rules := before }]) :
      rules.foldl (fun m r => m.addRule d.name r) m' =
        { m' with defs := m.defs ++ [{ d with rules := before ++ rules }] } := by
    induction rules generalizing before m' with
    | nil => simp [← hm']
    | cons r rules ih =>
      rw [List.foldl_cons, addRule, modify_last hm' hnew, ih (before ++ [r]) _ rfl]
      simp
  rw [add, define, modify_new hnew, hrules d.rules [] _ (by simp)]
  simp

theorem addSpec_new {p : ProcessSpec} (hp : p.Conforms) (hnew : p.name ∉ m.defs.map (·.name)) :
    m.addSpec p = .ok { m with defs := m.defs ++ [p.definition] } := by
  have hadd : m.add p.definition = _ := add_new hnew
  rw [addSpec, find?_eq_none_iff.mpr hnew, rulesOf_eq fun r hr => (hp.rules r hr).2]
  exact congrArg Except.ok hadd

theorem addSpec_known {p : ProcessSpec} (hknown : p.name ∈ m.defs.map (·.name)) :
    m.addSpec p = .error { process := p.name, cause := .duplicate } := by
  have hfound : (m.find? p.name).isSome = true := by
    rw [Option.isSome_iff_ne_none, Ne, find?_eq_none_iff]
    exact not_not_intro hknown
  rw [addSpec, if_pos hfound]
  rfl

/-- Processes with distinct names are added one by one as they are. -/
theorem addSpecs_distinct {ps : List ProcessSpec} (hps : ∀ p ∈ ps, p.Conforms)
    (hnodup : (m.defs.map (·.name) ++ ps.map (·.name)).Nodup) :
    ps.foldlM addSpec m = .ok { m with defs := m.defs ++ ps.map ProcessSpec.definition } := by
  induction ps generalizing m with
  | nil => simp
  | cons p ps ih =>
    rw [List.forall_mem_cons] at hps
    rw [List.map_cons, List.append_cons] at hnodup
    have hnew : p.name ∉ m.defs.map (·.name) :=
      fun hmem => List.disjoint_of_nodup_append hnodup.of_append_left hmem (by simp)
    have hnext : (({ m with defs := m.defs ++ [p.definition] } : Model).defs.map (·.name) ++
        ps.map (·.name)).Nodup := by
      simpa [ProcessSpec.definition] using hnodup
    rw [List.foldlM_cons, addSpec_new hps.1 hnew, Fold.ok_bind, ih hps.2 hnext]
    simp

/-- A repeated name is the only thing that can go wrong. -/
theorem addSpecs_repeated {ps : List ProcessSpec} (hps : ∀ p ∈ ps, p.Conforms)
    (hm : (m.defs.map (·.name)).Nodup)
    (hrepeated : ¬ (m.defs.map (·.name) ++ ps.map (·.name)).Nodup) :
    ∃ p, ps.foldlM addSpec m = .error { process := p, cause := .duplicate } := by
  induction ps generalizing m with
  | nil => simp [hm] at hrepeated
  | cons p ps ih =>
    rw [List.forall_mem_cons] at hps
    by_cases hknown : p.name ∈ m.defs.map (·.name)
    · exact ⟨p.name, by rw [List.foldlM_cons, addSpec_known hknown]; rfl⟩
    · have hnext :
          (({ m with defs := m.defs ++ [p.definition] } : Model).defs.map (·.name)).Nodup := by
        rw [List.map_append, List.nodup_append]
        exact ⟨hm, by simp, by simpa [ProcessSpec.definition] using hknown⟩
      obtain ⟨q, hq⟩ := ih hps.2 hnext (by simpa [ProcessSpec.definition] using hrepeated)
      exact ⟨q, by rw [List.foldlM_cons, addSpec_new hps.1 hknown, Fold.ok_bind, hq]⟩

end Model

/-! ### Validation of what is written -/

namespace ProcessSystem

variable {sys : ProcessSystem} {p : Name} {defined : List Name} {e : SystemError}

theorem checkSteps_eq_error {i j : Nat} {steps : List Step}
    (h : checkSteps defined p i j steps = .error e) :
    ∃ s ∈ steps, stepFault defined s = some e.cause := by
  induction steps generalizing j with
  | nil => cases h
  | cons s rest ih =>
    rw [checkSteps] at h
    cases hfault : stepFault defined s with
    | some cause =>
      rw [hfault] at h
      obtain rfl := Except.error.inj h
      exact ⟨s, List.mem_cons_self .., hfault⟩
    | none =>
      rw [hfault] at h
      obtain ⟨s', hs', hcause⟩ := ih h
      exact ⟨s', List.mem_cons_of_mem _ hs', hcause⟩

theorem checkRules_eq_error {i : Nat} {rules : List Rule} (hrules : ∀ r ∈ rules, r ≠ [])
    (h : checkRules defined p i rules = .error e) :
    ∃ r ∈ rules, ∃ s ∈ r, stepFault defined s = some e.cause := by
  induction rules generalizing i with
  | nil => cases h
  | cons r rest ih =>
    rw [List.forall_mem_cons] at hrules
    rw [checkRules, if_neg (by simpa using hrules.1)] at h
    rcases Fold.bind_eq_error.mp h with hsteps | ⟨_, -, hrest⟩
    · exact ⟨r, List.mem_cons_self .., checkSteps_eq_error hsteps⟩
    · obtain ⟨r', hr', hcause⟩ := ih hrules.2 hrest
      exact ⟨r', List.mem_cons_of_mem _ hr', hcause⟩

theorem forM_eq_error {α ε : Type} {l : List α} {f : α → Except ε Unit} {e : ε}
    (h : l.forM f = .error e) : ∃ a ∈ l, f a = .error e := by
  induction l with
  | nil => cases h
  | cons a l ih =>
    rcases Fold.bind_eq_error.mp h with ha | ⟨_, -, hl⟩
    · exact ⟨a, List.mem_cons_self .., ha⟩
    · obtain ⟨b, hb, hfail⟩ := ih hl
      exact ⟨b, List.mem_cons_of_mem _ hb, hfail⟩

/-- With names and rules as they should be, a system is refused for its initial process, for a
step or for recursion that is not guarded. -/
theorem cause_of_validate (hnames : checkNames [] sys.processes = .ok ())
    (hinitial : sys.initial ≠ "")
    (hrules : ∀ p ∈ sys.processes, ∀ r ∈ sys.rules p, r ≠ []) (h : sys.validate = .error e) :
    e.cause = .undefinedInitial ∨
    (∃ p ∈ sys.processes, ∃ r ∈ sys.rules p, ∃ s ∈ r, stepFault sys.processes s = some e.cause) ∨
    ∃ q, e.cause = .unguarded q := by
  rw [validate, hnames, Fold.ok_bind] at h
  rcases Fold.bind_eq_error.mp h with hfail | ⟨_, hok, h⟩
  · rw [checkInitial, if_neg hinitial] at hfail
    split at hfail
    · cases hfail
    · obtain rfl := Except.error.inj hfail
      exact .inl rfl
  rcases Fold.bind_eq_error.mp h with hsteps | ⟨_, hsteps, hguarded⟩
  · obtain ⟨p, hp, hfail⟩ := forM_eq_error hsteps
    exact .inr (.inl ⟨p, hp, checkRules_eq_error (hrules p hp) hfail⟩)
  · have hwf := wellFormed_iff_checks.mpr ⟨hnames, hok, hsteps⟩
    obtain ⟨q, rfl, -⟩ := hwf.onCycle_of_search hguarded
    exact .inr (.inr ⟨q, rfl⟩)

end ProcessSystem

/-- The only fault that a step can have is a callee that is not defined. -/
theorem StepSpec.Conforms.fault {s : StepSpec} (h : s.Conforms) {defined : List Name}
    {cause : Invalid} (hfault : ProcessSystem.stepFault defined s.step = some cause) :
    cause = .undefinedCall s.call := by
  by_cases hcall : s.call = ""
  · have hstep : s.step = .act s.action (if s.kind = "may" then .may else .must) :=
      if_neg (not_not_intro hcall)
    by_cases hmay : s.kind = "may" <;>
      simp [hstep, ProcessSystem.stepFault, Step.act, h.action hcall, hmay] at hfault
  · have hstep : s.step = .run s.call := if_pos hcall
    by_cases hmem : s.call ∈ defined
    · simp [hstep, ProcessSystem.stepFault, Step.run, hcall, hmem] at hfault
    · simpa [hstep, ProcessSystem.stepFault, Step.run, hcall, hmem, eq_comm] using hfault

theorem find?_of_nodup {ds : List Definition} (hnodup : (ds.map (·.name)).Nodup) {d : Definition}
    (hd : d ∈ ds) : ds.find? (·.name = d.name) = some d := by
  induction ds with
  | nil => cases hd
  | cons d' ds ih =>
    rw [List.map_cons, List.nodup_cons] at hnodup
    rcases List.mem_cons.mp hd with rfl | hd
    · simp
    · have hne : d'.name ≠ d.name := fun heq => hnodup.1 (heq ▸ List.mem_map_of_mem hd)
      rw [List.find?_cons_of_neg (by simpa using hne), ih hnodup.2 hd]

namespace ModelFile

/-- The processes that are written; none if the list of them is missing. -/
def specs (f : ModelFile) : List ProcessSpec :=
  f.processes.getD []

/-- The model that is written. -/
def model (f : ModelFile) : Model where
  name := f.name
  initial := f.initial
  defs := f.specs.map ProcessSpec.definition

variable {f : ModelFile}

theorem Conforms.specs (h : f.Conforms) : ∀ p ∈ f.specs, p.Conforms := by
  obtain ⟨ps, hps, -, hall⟩ := h.processes
  simpa [ModelFile.specs, hps] using hall

theorem processes_model (f : ModelFile) : f.model.system.processes = f.specs.map (·.name) :=
  map_name_definition f.specs

theorem definition_model (hnodup : (f.specs.map (·.name)).Nodup) {p : ProcessSpec}
    (hp : p ∈ f.specs) : f.model.system.props p.name = p.propositions ∧
      f.model.system.rules p.name = p.rules.map (·.map StepSpec.step) := by
  rw [← map_name_definition] at hnodup
  have hfind : f.model.defs.find? (·.name = p.name) = some p.definition :=
    find?_of_nodup hnodup (List.mem_map_of_mem hp)
  simp [Model.system, ProcessSystem.ofDefinitions, hfind, ProcessSpec.definition]

/-- Every rule of a written model is the translation of one that has steps as they should be. -/
theorem Conforms.rule_model (h : f.Conforms) (hnodup : (f.specs.map (·.name)).Nodup) {p : Name}
    (hp : p ∈ f.model.system.processes) {r : Rule} (hr : r ∈ f.model.system.rules p) :
    ∃ steps : List StepSpec, steps ≠ [] ∧ (∀ s ∈ steps, s.Conforms) ∧
      steps.map StepSpec.step = r := by
  rw [processes_model] at hp
  obtain ⟨spec, hspec, rfl⟩ := List.mem_map.mp hp
  rw [(definition_model hnodup hspec).2] at hr
  obtain ⟨steps, hsteps, rfl⟩ := List.mem_map.mp hr
  obtain ⟨hne, hall⟩ := (h.specs spec hspec).rules steps hsteps
  exact ⟨steps, hne, hall, rfl⟩

/-- What validation can find about a written model. -/
theorem Conforms.cause_of_validate (h : f.Conforms) (hnodup : (f.specs.map (·.name)).Nodup)
    {e : SystemError} (he : f.model.system.validate = .error e) :
    e.cause = .undefinedInitial ∨ (∃ q, e.cause = .undefinedCall q) ∨
      ∃ q, e.cause = .unguarded q := by
  have hnames : ProcessSystem.checkNames [] f.model.system.processes = .ok () := by
    rw [ProcessSystem.checkNames_eq_ok_iff, processes_model]
    refine ⟨fun p hp => ⟨?_, by simp⟩, hnodup⟩
    obtain ⟨spec, hspec, rfl⟩ := List.mem_map.mp hp
    exact (h.specs spec hspec).name
  have hinitial : f.model.system.initial ≠ "" := h.initial
  have hrules : ∀ p ∈ f.model.system.processes, ∀ r ∈ f.model.system.rules p, r ≠ [] := by
    intro p hp r hr
    obtain ⟨steps, hne, -, rfl⟩ := h.rule_model hnodup hp hr
    simpa using hne
  rcases ProcessSystem.cause_of_validate hnames hinitial hrules he with
    hundefined | ⟨p, hp, r, hr, s, hs, hfault⟩ | hguarded
  · exact .inl hundefined
  · obtain ⟨steps, -, hall, rfl⟩ := h.rule_model hnodup hp hr
    obtain ⟨spec, hspec, rfl⟩ := List.mem_map.mp hs
    exact .inr (.inl ⟨spec.call, (hall spec hspec).fault hfault⟩)
  · exact .inr (.inr hguarded)

/-! ### The model of a file -/

/-- The model while its processes are added: it has none yet. -/
def start (f : ModelFile) : Model where
  name := f.name
  initial := f.initial

theorem propertiesOf_eq_error {ps : List PropertySpec} {e : FileError}
    (h : propertiesOf ps = .error e) : ∃ p ∈ ps, p.formula = none ∧ e = .noFormula p.name := by
  induction ps with
  | nil => cases h
  | cons p ps ih =>
    rw [propertiesOf, List.mapM_cons] at h
    rcases Fold.bind_eq_error.mp h with hp | ⟨_, -, h⟩
    · split at hp
      · cases hp
      · rename_i hformula
        exact ⟨p, List.mem_cons_self .., hformula, (Except.error.inj hp).symm⟩
    · rcases Fold.bind_eq_error.mp h with hps | ⟨_, -, h⟩
      · obtain ⟨q, hq, hmissing⟩ := ih hps
        exact ⟨q, List.mem_cons_of_mem _ hq, hmissing⟩
      · cases h

theorem formula_of_propertiesOf {ps : List PropertySpec} {properties : List Property}
    (h : propertiesOf ps = .ok properties) : ∀ p ∈ ps, p.formula ≠ none := by
  induction ps generalizing properties with
  | nil => simp
  | cons p ps ih =>
    rw [propertiesOf, List.mapM_cons] at h
    simp only [Fold.bind_eq_ok] at h
    obtain ⟨q, hq, qs, hqs, -⟩ := h
    refine List.forall_mem_cons.mpr ⟨fun hnone => ?_, ih hqs⟩
    simp [hnone] at hq

theorem Conforms.build_distinct (h : f.Conforms) (hnodup : (f.specs.map (·.name)).Nodup) :
    f.specs.foldlM Model.addSpec f.start = .ok f.model :=
  Model.addSpecs_distinct (m := f.start) h.specs hnodup

theorem Conforms.build_repeated (h : f.Conforms) (hrepeated : ¬ (f.specs.map (·.name)).Nodup) :
    ∃ p, f.specs.foldlM Model.addSpec f.start = .error { process := p, cause := .duplicate } :=
  Model.addSpecs_repeated (m := f.start) h.specs List.nodup_nil hrepeated

theorem Conforms.eq_model (h : f.Conforms) {m : Model}
    (hm : f.specs.foldlM Model.addSpec f.start = .ok m) :
    (f.specs.map (·.name)).Nodup ∧ m = f.model := by
  by_cases hnodup : (f.specs.map (·.name)).Nodup
  · exact ⟨hnodup, Except.ok.inj (hm.symm.trans (h.build_distinct hnodup))⟩
  · obtain ⟨p, hp⟩ := h.build_repeated hnodup
    cases hm.symm.trans hp

theorem spec_violations (h : ¬ f.Conforms) : f.spec = .error (.violations f.violations) := by
  have hne : f.violations ≠ [] := fun hnil => h (violations_eq_nil_iff.mp hnil)
  rw [spec, if_pos (by simpa using hne)]
  rfl

section

variable (h : f.Conforms)

include h

theorem Conforms.spec_eq : f.spec = do
    let properties ← propertiesOf f.properties
    let model ← (f.specs.foldlM Model.addSpec f.start).mapError .system
    model.system.validate.mapError .system
    return { description := "loaded from file", model, properties } := by
  rw [spec, violations_eq_nil_iff.mpr h]
  rfl

theorem Conforms.spec_missing {e : FileError} (hprops : propertiesOf f.properties = .error e) :
    f.spec = .error e := by
  rw [h.spec_eq, hprops]
  rfl

variable {properties : List Property} (hprops : propertiesOf f.properties = .ok properties)

include hprops

theorem Conforms.spec_repeated (hrepeated : ¬ (f.specs.map (·.name)).Nodup) :
    ∃ p, f.spec = .error (.system { process := p, cause := .duplicate }) := by
  obtain ⟨p, hp⟩ := h.build_repeated hrepeated
  exact ⟨p, by rw [h.spec_eq, hprops, hp]; rfl⟩

theorem Conforms.spec_valid (hnodup : (f.specs.map (·.name)).Nodup)
    (hvalid : f.model.system.validate = .ok ()) :
    f.spec = .ok { description := "loaded from file", model := f.model, properties } := by
  simp only [h.spec_eq, hprops, h.build_distinct hnodup, hvalid, Except.mapError, Fold.ok_bind]
  rfl

theorem Conforms.spec_invalid {e : SystemError} (hnodup : (f.specs.map (·.name)).Nodup)
    (hinvalid : f.model.system.validate = .error e) : f.spec = .error (.system e) := by
  simp only [h.spec_eq, hprops, h.build_distinct hnodup, hinvalid, Except.mapError, Fold.ok_bind]
  rfl

end

/-- What can become of a file, and when. -/
inductive Becomes (f : ModelFile) : Except FileError Spec → Prop
  | violated (h : ¬ f.Conforms) : Becomes f (.error (.violations f.violations))
  | missing (h : f.Conforms) {p : PropertySpec} (hp : p ∈ f.properties)
      (hformula : p.formula = none) : Becomes f (.error (.noFormula p.name))
  | repeated (h : f.Conforms) (hformula : ∀ p ∈ f.properties, p.formula ≠ none)
      (hnodup : ¬ (f.specs.map (·.name)).Nodup) (p : Name) :
      Becomes f (.error (.system { process := p, cause := .duplicate }))
  | invalid (h : f.Conforms) (hformula : ∀ p ∈ f.properties, p.formula ≠ none)
      (hnodup : (f.specs.map (·.name)).Nodup) {e : SystemError}
      (he : f.model.system.validate = .error e) : Becomes f (.error (.system e))
  | valid (h : f.Conforms) (hformula : ∀ p ∈ f.properties, p.formula ≠ none)
      (hnodup : (f.specs.map (·.name)).Nodup) (hvalid : f.model.system.validate = .ok ())
      (properties : List Property) :
      Becomes f (.ok { description := "loaded from file", model := f.model, properties })

theorem spec_becomes (f : ModelFile) : f.Becomes f.spec := by
  by_cases h : f.Conforms
  swap
  · rw [spec_violations h]
    exact .violated h
  cases hprops : propertiesOf f.properties with
  | error e =>
    obtain ⟨p, hp, hformula, rfl⟩ := propertiesOf_eq_error hprops
    rw [h.spec_missing hprops]
    exact .missing h hp hformula
  | ok properties =>
    have hformula := formula_of_propertiesOf hprops
    by_cases hnodup : (f.specs.map (·.name)).Nodup
    swap
    · obtain ⟨p, hp⟩ := h.spec_repeated hprops hnodup
      rw [hp]
      exact .repeated h hformula hnodup p
    cases hvalid : f.model.system.validate with
    | error e =>
      rw [h.spec_invalid hprops hnodup hvalid]
      exact .invalid h hformula hnodup hvalid
    | ok u =>
      rw [h.spec_valid hprops hnodup hvalid]
      exact .valid h hformula hnodup hvalid properties

/-- A file describes a model exactly if its fields are as they should be, every property has a
formula, the processes have distinct names and the written system is valid. The model has the
processes of the file, with their propositions and with their rules step by step. Once the fields
are as they should be, every kind can be read, and what validation finds in the model that has been
built is an initial process or a callee that is not defined, or recursion that is not guarded. -/
theorem spec_translates (f : ModelFile) :
    ((∃ s, f.spec = .ok s) ↔ f.Conforms ∧ (∀ p ∈ f.properties, p.formula ≠ none) ∧
      (f.specs.map (·.name)).Nodup ∧ f.model.system.validate = .ok ()) ∧
    (∀ s, f.spec = .ok s → s.model.system.initial = f.initial ∧
      s.model.system.processes = f.specs.map (·.name) ∧
      ∀ p ∈ f.specs, s.model.system.props p.name = p.propositions ∧
        s.model.system.rules p.name = p.rules.map (·.map StepSpec.step)) ∧
    (f.Conforms →
      (∀ p ∈ f.specs, ∀ r ∈ p.rules, ∀ s ∈ r, Modality.ofText? s.kind ≠ none) ∧
      (∀ m, f.specs.foldlM Model.addSpec f.start = .ok m → ∀ e, m.system.validate = .error e →
        e.cause = .undefinedInitial ∨ (∃ q, e.cause = .undefinedCall q) ∨
          ∃ q, e.cause = .unguarded q)) ∧
    ∀ e, f.spec = .error (.system e) →
      ¬ (f.specs.map (·.name)).Nodup ∧ e.cause = .duplicate ∨
      (f.specs.map (·.name)).Nodup ∧ (e.cause = .undefinedInitial ∨
        (∃ q, e.cause = .undefinedCall q) ∨ ∃ q, e.cause = .unguarded q) := by
  refine ⟨⟨fun ⟨s, hs⟩ => ?_, fun ⟨h, hformula, hnodup, hvalid⟩ => ?_⟩, fun s hs => ?_,
    fun h => ⟨fun p hp r hr s hs => ?_, fun m hm e he => ?_⟩, fun e he => ?_⟩
  · have hbecomes := f.spec_becomes
    rw [hs] at hbecomes
    cases hbecomes with
    | valid h hformula hnodup hvalid => exact ⟨h, hformula, hnodup, hvalid⟩
  · have hbecomes := f.spec_becomes
    generalize f.spec = outcome at hbecomes ⊢
    cases hbecomes with
    | violated hnot => exact absurd h hnot
    | missing _ hp hnone => exact absurd hnone (hformula _ hp)
    | repeated _ _ hrepeated => exact absurd hnodup hrepeated
    | invalid _ _ _ hinvalid => cases hvalid.symm.trans hinvalid
    | valid => exact ⟨_, rfl⟩
  · have hbecomes := f.spec_becomes
    rw [hs] at hbecomes
    cases hbecomes with
    | valid _ _ hnodup =>
      exact ⟨rfl, processes_model f, fun p hp => definition_model hnodup hp⟩
  · rw [Modality.ofText?_eq (((h.specs p hp).rules r hr).2 s hs).kind]
    simp
  · obtain ⟨hnodup, rfl⟩ := h.eq_model hm
    exact h.cause_of_validate hnodup he
  · have hbecomes := f.spec_becomes
    rw [he] at hbecomes
    cases hbecomes with
    | repeated _ _ hnodup => exact .inl ⟨hnodup, rfl⟩
    | invalid h _ hnodup hinvalid => exact .inr ⟨hnodup, h.cause_of_validate hnodup hinvalid⟩

/-- Two processes that call each other, with a kind that is left out, and a property. -/
theorem spec_translates_mutual : ∃ f : ModelFile,
    f = { name := "M", initial := "P",
          processes := some [
            { name := "P", propositions := ["q", "p"],
              rules := [[{ action := "a", kind := "may" }, { call := "Q" }], [{ action := "b" }]] },
            { name := "Q", rules := [[{ action := "c", kind := "must" }, { call := "P" }]] }],
          properties := [{ name := "live", formula := some (.dia "a" .tt) }] } ∧
    f.Conforms ∧ ∃ s, f.spec = .ok s ∧ s.model.system.processes = [("P" : Name), ("Q" : Name)] ∧
      s.model.system.props "P" = [("q" : Name), ("p" : Name)] ∧
      s.model.system.rules "P" = [[.act "a" .may, .run "Q"], [.act "b" .must]] := by
  refine ⟨_, rfl, ?_⟩
  generalize hf : ModelFile.mk _ _ _ _ = f
  have hconforms : f.Conforms := violations_eq_nil_iff.mp (by subst hf; rfl)
  obtain ⟨hok, hmodel, -, -⟩ := spec_translates f
  obtain ⟨s, hs⟩ := hok.mpr ⟨hconforms, by subst hf; simp, by subst hf; decide, by subst hf; rfl⟩
  obtain ⟨-, hprocesses, hall⟩ := hmodel s hs
  subst hf
  obtain ⟨hprops, hrules⟩ := hall _ (List.mem_cons_self ..)
  exact ⟨hconforms, s, hs, hprocesses, hprops, hrules⟩

end ModelFile

end MuProc
