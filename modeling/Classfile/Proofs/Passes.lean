import Classfile.Proofs.EntryTracing

/-!
Passes over a whole class leave a class that can be read back, and reading it back and relaxing it
again changes nothing.

`Class.Holds` carries what is known of the body of each method along a pass: tracing keeps all bodies
ready, and relaxing turns one body after the other from a ready into a finished one.
-/

namespace Classfile

namespace Task

variable {S A : Type}

/-- What each test keeps, filtering a list keeps. -/
theorem Leads.filterM {relation : S → S → Prop} {test : A → Task S Bool} (items : List A)
    (leads : ∀ item, (test item).Leads relation) (reflexive : ∀ state, relation state state)
    (transitive : ∀ first second third, relation first second → relation second third →
      relation first third) : (items.filterM test).Leads relation := by
  have gathered (items chosen : List A) : (items.filterAuxM test chosen).Leads relation := by
    induction items generalizing chosen with
    | nil =>
      intro before value after ran
      obtain ⟨_, rfl⟩ := pure_eq_ok_iff.mp ran
      exact reflexive _
    | cons item items inductionHypothesis =>
      exact (leads item).bind (fun _ => inductionHypothesis _) transitive
  refine (gathered items []).bind (fun chosen before value after ran => ?_) transitive
  obtain ⟨_, rfl⟩ := pure_eq_ok_iff.mp ran
  exact reflexive _

end Task

/-- An attribute can be read with every pool that extends the one it was read with. -/
theorem Attribute.Readable.extends {raw : Attribute} {pool grown : Pool} (readable : raw.Readable pool)
    (built : pool.Built) (extended : pool.Extends grown) : raw.Readable grown := by
  obtain ⟨⟨name, named, known⟩, sized⟩ := readable
  exact ⟨⟨name, extended.text built named, known⟩, sized⟩

/-- The attribute of a method is legible with every pool that extends the one it was legible
with. -/
theorem MethodAttribute.Legible.extends {entry : MethodAttribute} {pool grown : Pool}
    {context : MethodContext} (legible : entry.Legible pool context) (built : pool.Built)
    (extended : pool.Extends grown) : entry.Legible grown context := by
  cases entry with
  | code body => exact ⟨extended.text built legible.1, legible.2⟩
  | other raw =>
    obtain ⟨readable, notCode⟩ := legible
    refine ⟨readable.extends built extended, ?_⟩
    obtain ⟨name, named, -⟩ := readable.named
    rw [extended.text built named, ← named]
    exact notCode

/-- The attribute holds the code of a method. -/
def MethodAttribute.isCode (entry : MethodAttribute) : Bool := entry.body?.isSome

namespace Method

section

variable {method : Method} {pool grown : Pool} {classIndex : ConstantIndex}

/-- A method is legible with every pool that extends the one it was legible with. -/
theorem Legible.extends (legible : method.Legible pool classIndex) (built : pool.Built)
    (extended : pool.Extends grown) : method.Legible grown classIndex := by
  obtain ⟨context, known, entries⟩ := legible.attributes
  refine ⟨⟨context, ?_, fun entry present => (entries entry present).extends built extended⟩,
    legible.count⟩
  simp only [Method.context, Method.descriptor, Method.name, exceptBind_eq_ok_iff] at known ⊢
  obtain ⟨descriptor, described, name, named, made⟩ := known
  exact ⟨descriptor, extended.text built described, name, extended.text built named, made⟩

/-- Replacing the body adds no attribute but the new body. -/
theorem mem_replaceCode {body : Body} {attributes : List MethodAttribute} {entry : MethodAttribute}
    (present : entry ∈ replaceCode body attributes) : entry = .code body ∨ entry ∈ attributes := by
  induction attributes with
  | nil => cases present
  | cons first rest inductionHypothesis =>
    cases first with
    | code old =>
      rcases List.mem_cons.mp present with same | later
      · exact .inl same
      · exact .inr (List.mem_cons_of_mem _ later)
    | other raw =>
      rcases List.mem_cons.mp present with rfl | later
      · exact .inr List.mem_cons_self
      · exact (inductionHypothesis later).imp_right (List.mem_cons_of_mem _)

theorem length_replaceCode (body : Body) (attributes : List MethodAttribute) :
    (replaceCode body attributes).length = attributes.length := by
  induction attributes with
  | nil => rfl
  | cons first rest inductionHypothesis =>
    cases first with
    | code old => rfl
    | other raw => rw [replaceCode, List.length_cons, inductionHypothesis, List.length_cons]

/-- Replacing the body keeps the number of bodies. -/
theorem countP_replaceCode (body : Body) (attributes : List MethodAttribute) :
    (replaceCode body attributes).countP MethodAttribute.isCode =
      attributes.countP MethodAttribute.isCode := by
  induction attributes with
  | nil => rfl
  | cons first rest inductionHypothesis =>
    cases first with
    | code old => rfl
    | other raw => rw [replaceCode, List.countP_cons, inductionHypothesis, List.countP_cons]

/-- A method has the body that it was given. -/
theorem code?_setCode {old : Body} (known : method.code? = some old) (body : Body) :
    (method.setCode body).code? = some body := by
  have replaced (attributes : List MethodAttribute)
      (found : attributes.findSome? MethodAttribute.body? = some old) :
      (replaceCode body attributes).findSome? MethodAttribute.body? = some body := by
    induction attributes with
    | nil => cases found
    | cons first rest inductionHypothesis =>
      cases first with
      | code other => rfl
      | other raw => exact inductionHypothesis found
  exact replaced method.attributes known

/-- A method stays legible with another body of the same name and context. -/
theorem Legible.setCode (legible : method.Legible pool classIndex) {old body : Body}
    (known : method.code? = some old) (named : body.nameIndex = old.nameIndex)
    (owned : body.context = old.context) : (method.setCode body).Legible pool classIndex := by
  obtain ⟨context, made, entries⟩ := legible.attributes
  refine ⟨⟨context, made, fun entry present => ?_⟩, ?_⟩
  · rcases mem_replaceCode present with rfl | kept
    · obtain ⟨text, context⟩ := entries _ (mem_of_code? known)
      exact ⟨named ▸ text, owned ▸ context⟩
    · exact entries entry kept
  · rw [Method.setCode, length_replaceCode]
    exact legible.count

/-- The only code of a method is its body. -/
theorem code?_of_mem {body : Body} (present : .code body ∈ method.attributes)
    (single : method.attributes.countP MethodAttribute.isCode ≤ 1) : method.code? = some body := by
  have found (attributes : List MethodAttribute) (present : .code body ∈ attributes)
      (single : attributes.countP MethodAttribute.isCode ≤ 1) :
      attributes.findSome? MethodAttribute.body? = some body := by
    induction attributes with
    | nil => cases present
    | cons first rest inductionHypothesis =>
      cases first with
      | code other =>
        rcases List.mem_cons.mp present with same | later
        · cases same
          rfl
        · rw [List.countP_cons_of_pos rfl] at single
          have none : rest.countP MethodAttribute.isCode = 0 := by omega
          exact absurd rfl (List.countP_eq_zero.mp none _ later)
      | other raw =>
        rw [List.countP_cons_of_neg (by simp [MethodAttribute.isCode, MethodAttribute.body?])] at single
        exact inductionHypothesis (List.mem_of_ne_of_mem (by simp) present) single
  exact found method.attributes present single

end

end Method

namespace Class

/-- A legible class whose methods have one body at most, of which something holds. -/
structure Holds (holds : Nat → Pool → Body → Prop) (classFile : Class) : Prop where
  legible : classFile.Legible
  single : ∀ method ∈ classFile.methods.toList, method.attributes.countP MethodAttribute.isCode ≤ 1
  bodies : ∀ index body, classFile.code? index = some body → holds index classFile.pool body

section Holds

variable {classFile : Class} {index : Nat} {body : Body} {edit : Edit}

/-- Setting the body of a method leaves the other methods as they are. -/
theorem getElem?_setCode (classFile : Class) (index : Nat) (edit : Edit) (other : Nat) :
    (classFile.setCode index edit).methods[other]? =
      if index = other then classFile.methods[other]?.map (·.setCode edit.body)
      else classFile.methods[other]? :=
  Array.getElem?_modify

/-- The methods of a class with another body are legible, each in the pool of the edit. -/
theorem Legible.setCode (legible : classFile.Legible) (known : classFile.code? index = some body)
    (retains : Edit.Retains ⟨body, classFile.pool⟩ edit) : (classFile.setCode index edit).Legible := by
  have built := legible.built
  have extended := retains.grown
  refine ⟨(extended built).1, legible.superClass, legible.interfaceCount, legible.fieldCount, ?_, ?_, ?_,
    legible.attributeCount, fun raw present => (legible.attributes raw present).extends built extended⟩
  · intro field present
    obtain ⟨count, readable⟩ := legible.fields field present
    exact ⟨count, fun raw member => (readable raw member).extends built extended⟩
  · rw [Class.setCode, Array.size_modify]
    exact legible.methodCount
  · intro method present
    obtain ⟨other, located⟩ := Array.getElem?_of_mem (Array.mem_toList_iff.mp present)
    have old {method : Method} (located : classFile.methods[other]? = some method) :
        method.Legible edit.pool classFile.thisClass :=
      (legible.methods method (Array.mem_toList_iff.mpr (Array.mem_of_getElem? located))).extends built
        extended
    rw [getElem?_setCode] at located
    split at located
    · rename_i same
      obtain ⟨original, locatedOld, rfl⟩ := Option.map_eq_some_iff.mp located
      rw [code?, same, locatedOld] at known
      exact (old locatedOld).setCode known retains.named retains.owned
    · exact old located

/-- Methods have one body at most after one of them was replaced. -/
theorem single_setCode
    (single : ∀ method ∈ classFile.methods.toList,
      method.attributes.countP MethodAttribute.isCode ≤ 1) :
    ∀ method ∈ (classFile.setCode index edit).methods.toList,
      method.attributes.countP MethodAttribute.isCode ≤ 1 := by
  intro method present
  obtain ⟨other, located⟩ := Array.getElem?_of_mem (Array.mem_toList_iff.mp present)
  have old {method : Method} (located : classFile.methods[other]? = some method) :=
    single method (Array.mem_toList_iff.mpr (Array.mem_of_getElem? located))
  rw [getElem?_setCode] at located
  split at located
  · obtain ⟨original, locatedOld, rfl⟩ := Option.map_eq_some_iff.mp located
    rw [Method.setCode, Method.countP_replaceCode]
    exact old locatedOld
  · exact old located

/-- One body is exchanged for another one, and the others stay in the pool that has grown. -/
theorem Holds.setCode {holds held : Nat → Pool → Body → Prop} (all : Holds holds classFile)
    (known : classFile.code? index = some body)
    (retains : Edit.Retains ⟨body, classFile.pool⟩ edit) (done : held index edit.pool edit.body)
    (others : ∀ other unchanged, other ≠ index → holds other classFile.pool unchanged →
      held other edit.pool unchanged) : Holds held (classFile.setCode index edit) := by
  refine ⟨all.legible.setCode known retains, single_setCode all.single, ?_⟩
  intro other result found
  rw [code?, getElem?_setCode] at found
  split at found
  · rename_i same
    subst same
    obtain ⟨method, located, code⟩ := Option.bind_eq_some_iff.mp known
    rw [located, Option.map_some, Option.bind_some, Method.code?_setCode code] at found
    cases found
    exact done
  · rename_i different
    exact others other result (Ne.symm different) (all.bodies other result found)

/-- A task on a method without a body does nothing, and otherwise it works on the body and the
pool. -/
theorem onCode_eq_ok_iff {A : Type} {task : Task Edit A} {result : Option A}
    {before after : Logged Class} :
    onCode index task before = .ok result after ↔
      (before.state.code? index = none ∧ result = none ∧ after = before) ∨
        ∃ body value inner, before.state.code? index = some body ∧
          task ⟨⟨body, before.state.pool⟩, before.events⟩ = .ok value inner ∧
          result = some value ∧ after = ⟨before.state.setCode index inner.state, inner.events⟩ := by
  simp only [onCode, Task.bind_eq_ok_iff, Task.read_eq_ok_iff]
  constructor
  · rintro ⟨_, _, ⟨rfl, rfl⟩, ran⟩
    cases known : before.state.code? index with
    | none =>
      simp only [known, Task.pure_eq_ok_iff] at ran
      exact .inl ⟨rfl, ran.1.symm, ran.2.symm⟩
    | some body =>
      simp only [known, Task.bind_eq_ok_iff, Task.focus_eq_ok_iff, Task.pure_eq_ok_iff] at ran
      obtain ⟨value, _, ⟨inner, ranTask, rfl⟩, rfl, rfl⟩ := ran
      exact .inr ⟨body, value, inner, rfl, ranTask, rfl, rfl⟩
  · rintro (⟨missing, rfl, rfl⟩ | ⟨body, value, inner, known, ranTask, rfl, rfl⟩)
    · refine ⟨_, _, ⟨rfl, rfl⟩, ?_⟩
      simp only [missing, Task.pure_eq_ok_iff, and_self]
    · refine ⟨_, _, ⟨rfl, rfl⟩, ?_⟩
      simp only [known, Task.bind_eq_ok_iff, Task.focus_eq_ok_iff, Task.pure_eq_ok_iff]
      exact ⟨value, _, ⟨inner, ranTask, rfl⟩, rfl, rfl⟩

end Holds

/-- Every body of a class is ready. -/
def Ready (classFile : Class) : Prop := classFile.Holds fun _ pool body => body.Ready pool

/-- What can become of a method and of its class when the method is traced. -/
inductive TraceStep (settings : TraceSettings) (className : String) (index : Nat) (before : Class) :
    Bool → Class → Prop
  | absent (missing : before.methods[index]? = none) :
      TraceStep settings className index before false before
  | passed {method : Method} {name : String} (located : before.methods[index]? = some method)
      (named : method.name before.pool = .ok name)
      (untraced : (settings.selects name && method.code?.isSome) = false) :
      TraceStep settings className index before false before
  | entered {method : Method} {name descriptor : String} {body : Body} {events : Array Event}
      {after : Logged Edit} (located : before.methods[index]? = some method)
      (named : method.name before.pool = .ok name) (selected : settings.selects name = true)
      (described : method.descriptor before.pool = .ok descriptor) (known : method.code? = some body)
      (ran : Edit.traceEntry settings (className ++ "." ++ name ++ descriptor)
        ⟨⟨body, before.pool⟩, events⟩ = .ok () after) :
      TraceStep settings className index before true (before.setCode index after.state)

/-- Tracing a method takes one of the steps that are listed. -/
theorem traceStep_of_traceMethod {settings : TraceSettings} {className : String} {index : Nat}
    {before after : Logged Class} {chosen : Bool}
    (ran : traceMethod settings className index before = .ok chosen after) :
    TraceStep settings className index before.state chosen after.state := by
  simp only [traceMethod, Task.bind_eq_ok_iff, Task.read_eq_ok_iff] at ran
  obtain ⟨_, _, ⟨rfl, rfl⟩, ran⟩ := ran
  cases located : before.state.methods[index]? with
  | none =>
    simp only [located, Task.pure_eq_ok_iff] at ran
    obtain ⟨rfl, rfl⟩ := ran
    exact .absent located
  | some method =>
    simp only [located, Task.bind_eq_ok_iff, Task.ofExcept_eq_ok_iff] at ran
    obtain ⟨name, _, ⟨named, rfl⟩, ran⟩ := ran
    split at ran
    · rename_i selected
      simp only [Task.bind_eq_ok_iff, Task.ofExcept_eq_ok_iff] at ran
      obtain ⟨descriptor, _, ⟨described, rfl⟩, result, middle, entered, ran⟩ := ran
      rcases onCode_eq_ok_iff.mp entered with ⟨missing, rfl, same⟩ |
        ⟨body, _, inner, known, traced, rfl, rfl⟩
      · -- A selected method without code is passed by, whether or not that is reported.
        have answered : chosen = false ∧ after.state = before.state := by
          simp only [same] at ran
          split at ran
          · simp only [Task.bind_eq_ok_iff, Task.report_eq_ok_iff, Task.pure_eq_ok_iff] at ran
            obtain ⟨_, _, rfl, rfl, rfl⟩ := ran
            exact ⟨rfl, rfl⟩
          · obtain ⟨rfl, rfl⟩ := Task.pure_eq_ok_iff.mp ran
            exact ⟨rfl, rfl⟩
        rw [code?, located, Option.bind_some] at missing
        rw [answered.1, answered.2]
        exact .passed located named (by rw [missing, Option.isSome_none, Bool.and_false])
      · rw [code?, located, Option.bind_some] at known
        obtain ⟨rfl, rfl⟩ := Task.pure_eq_ok_iff.mp ran
        exact .entered located named selected described known traced
    · rename_i unselected
      obtain ⟨rfl, rfl⟩ := Task.pure_eq_ok_iff.mp ran
      exact .passed located named (by rw [Bool.eq_false_of_not_eq_true unselected, Bool.false_and])

/-- A class is ready after a method was traced if it was before. -/
theorem TraceStep.ready {settings : TraceSettings} {className : String} {index : Nat}
    {before after : Class} {chosen : Bool}
    (step : TraceStep settings className index before chosen after) (ready : before.Ready) :
    after.Ready := by
  cases step with
  | absent missing => exact ready
  | passed located named untraced => exact ready
  | @entered method name descriptor body events inner located named selected described known ran =>
    have coded : before.code? index = some body := by
      rw [code?, located, Option.bind_some, known]
    have prepared := Edit.leads_traceEntry settings _ _ _ _ ran
    have built := ready.legible.built
    exact Holds.setCode ready coded prepared.toRetains
      (prepared.ready built (ready.bodies index body coded))
      fun other unchanged _ kept => kept.extends built prepared.grown

/-- Tracing a method leaves a class ready. -/
theorem leads_traceMethod (settings : TraceSettings) (className : String) (index : Nat) :
    (traceMethod settings className index).Leads fun before after => before.Ready → after.Ready :=
  fun _ _ _ ran => (traceStep_of_traceMethod ran).ready

/-- Tracing goes over the methods twice. -/
theorem passes_of_traceEntries {settings : TraceSettings} {count : Nat} {before after : Logged Class}
    (ran : traceEntries settings before = .ok count after) :
    ∃ className traced middle events, before.state.name = .ok className ∧
      (List.range before.state.methods.size).filterM (traceMethod settings className) before =
        .ok traced middle ∧
      relaxAll ⟨middle.state, events⟩ = .ok () after ∧ count = traced.length := by
  simp only [traceEntries, Task.bind_eq_ok_iff, Task.read_eq_ok_iff, Task.ofExcept_eq_ok_iff] at ran
  obtain ⟨_, _, ⟨rfl, rfl⟩, className, _, ⟨named, rfl⟩, traced, middle, filtered, ran⟩ := ran
  split at ran
  · simp only [Task.bind_eq_ok_iff, Task.report_eq_ok_iff, Task.pure_eq_ok_iff] at ran
    obtain ⟨_, _, rfl, _, _, relaxed, rfl, rfl⟩ := ran
    exact ⟨className, traced, middle, _, named, filtered, relaxed, rfl⟩
  · simp only [Task.bind_eq_ok_iff, Task.pure_eq_ok_iff] at ran
    obtain ⟨_, _, relaxed, rfl, rfl⟩ := ran
    exact ⟨className, traced, middle, _, named, filtered, relaxed, rfl⟩

/-- The bodies of the methods that are still to be relaxed are ready, and the others are finished. -/
def Pending (items : List Nat) (classFile : Class) : Prop :=
  items.Nodup ∧ classFile.Holds fun index pool body =>
    if index ∈ items then body.Ready pool else body.Finished pool

/-- A method that has been relaxed is not pending anymore. -/
theorem pending_of_onCode {index : Nat} {items : List Nat} {before after : Logged Class}
    {result : Option Unit} (pending : Pending (index :: items) before.state)
    (ran : onCode index Edit.relaxReporting before = .ok result after) : Pending items after.state := by
  obtain ⟨distinct, all⟩ := pending
  obtain ⟨fresh, distinctRest⟩ := List.nodup_cons.mp distinct
  refine ⟨distinctRest, ?_⟩
  rcases onCode_eq_ok_iff.mp ran with ⟨missing, _, rfl⟩ | ⟨body, _, inner, known, relaxed, _, rfl⟩
  · refine ⟨all.legible, all.single, fun other body known => ?_⟩
    have held := all.bodies other body known
    have different : other ≠ index := by
      rintro rfl
      rw [missing] at known
      cases known
    simpa [List.mem_cons, different] using held
  · have built := all.legible.built
    have ready := all.bodies index body known
    rw [if_pos List.mem_cons_self] at ready
    obtain ⟨retains, finished⟩ := Edit.finished_of_relaxReporting ready built relaxed
    -- The relaxed body is finished from now on: its method does not come up again.
    refine all.setCode known retains ?_ ?_
    · rw [if_neg fresh]
      exact finished
    · intro other unchanged different held
      simp only [List.mem_cons, different, false_or] at held
      split at held
      · rename_i later
        rw [if_pos later]
        exact held.extends built retains.grown
      · rename_i earlier
        rw [if_neg earlier]
        exact held.extends built retains.grown

/-- No method is pending once all of them have been relaxed. -/
theorem pending_of_forM {items : List Nat} {before after : Logged Class}
    (pending : Pending items before.state)
    (ran : (items.forM fun index => discard (onCode index Edit.relaxReporting)) before = .ok () after) :
    Pending [] after.state := by
  induction items generalizing before with
  | nil =>
    cases ran
    exact pending
  | cons index items inductionHypothesis =>
    obtain ⟨middle, first, continued⟩ := Task.forM_cons_eq_ok_iff.mp ran
    obtain ⟨_, relaxed⟩ := Task.discard_eq_ok_iff.mp first
    exact inductionHypothesis (pending_of_onCode pending relaxed) continued

/-- Relaxing all bodies of a ready class finishes them. -/
theorem finished_of_relaxAll {classFile : Class} {events : Array Event} {after : Logged Class}
    (ready : classFile.Ready) (ran : relaxAll ⟨classFile, events⟩ = .ok () after) :
    after.state.Holds fun _ pool body => body.Finished pool := by
  simp only [relaxAll, Task.bind_eq_ok_iff, Task.read_eq_ok_iff] at ran
  obtain ⟨_, _, ⟨rfl, rfl⟩, ran⟩ := ran
  have start : Pending (List.range classFile.methods.size) classFile := by
    refine ⟨List.nodup_range, ready.legible, ready.single, fun index body known => ?_⟩
    obtain ⟨method, located, _⟩ := Option.bind_eq_some_iff.mp known
    rw [if_pos (List.mem_range.mpr (Array.getElem?_eq_some_iff.mp located).1)]
    exact ready.bodies index body known
  obtain ⟨-, all⟩ := @pending_of_forM _ ⟨classFile, events⟩ _ start ran
  exact ⟨all.legible, all.single, fun index body known => by simpa using all.bodies index body known⟩

/-- Tracing a ready class and relaxing it finishes all bodies. -/
theorem finished_of_traceEntries {settings : TraceSettings} {count : Nat} {classFile : Class}
    {events : Array Event} {after : Logged Class} (ready : classFile.Ready)
    (ran : traceEntries settings ⟨classFile, events⟩ = .ok count after) :
    after.state.Holds fun _ pool body => body.Finished pool := by
  obtain ⟨className, traced, middle, reported, _, filtered, relaxed, _⟩ := passes_of_traceEntries ran
  have kept := Task.Leads.filterM (List.range classFile.methods.size)
    (leads_traceMethod settings className) (fun _ ready => ready)
    (fun _ _ _ first second ready => second (first ready)) _ _ _ filtered ready
  exact finished_of_relaxAll kept relaxed

/-- Each method has one body at most, each body one table of frames at most, and the states that the
frames describe can be written. -/
structure Regular (classFile : Class) : Prop where
  codes : ∀ method ∈ classFile.methods.toList, method.attributes.countP MethodAttribute.isCode ≤ 1
  frameTables : ∀ method ∈ classFile.methods.toList, ∀ body, .code body ∈ method.attributes →
    body.attributes.countP (fun entry => entry.table.isFrames) ≤ 1
  states : ∀ method ∈ classFile.methods.toList, ∀ body, .code body ∈ method.attributes →
    body.StatesCounted

/-- The code of each method is smaller than 2^31 bytes. -/
def Bounded (classFile : Class) : Prop :=
  ∀ method ∈ classFile.methods.toList, ∀ body, .code body ∈ method.attributes → body.byteSize < 2 ^ 31

/-- The class is written as bytes that are all read again, and relaxing the class that is read and
writing it gives the same bytes. -/
def Stable (classFile : Class) : Prop :=
  ∃ bytes, classFile.toBytes = .ok bytes ∧ ∀ events, ∃ reread reported,
    Class.read ⟨bytes, events⟩ = .ok reread ⟨[], reported⟩ ∧
      ∀ earlier, ∃ relaxed, relaxAll ⟨reread, earlier⟩ = .ok () relaxed ∧
        relaxed.state.toBytes = .ok bytes

/-- A regular class is ready when it is read. -/
theorem ready_of_read {input : Bytes} {events : Array Event} {classFile : Class} {after : Logged Bytes}
    (ran : Class.read ⟨input, events⟩ = .ok classFile after) (regular : classFile.Regular) :
    classFile.Ready := by
  refine ⟨(parts_of_read ran).1, regular.codes, fun index body known => ?_⟩
  obtain ⟨slots, code, ranges, attributes, formed⟩ := fresh_of_read ran index body known
  obtain ⟨method, located, found⟩ := Option.bind_eq_some_iff.mp known
  have present := Array.mem_toList_iff.mpr (Array.mem_of_getElem? located)
  have member := Method.mem_of_code? found
  exact formed.ready (regular.frameTables method present body member)
    (regular.states method present body member)

/-- A class whose bodies are all finished is stable. -/
theorem Holds.stable {classFile : Class} (all : classFile.Holds fun _ pool body => body.Finished pool)
    (bounded : classFile.Bounded) : classFile.Stable := by
  have finished : classFile.Finished := by
    intro method present body member
    refine ⟨?_, bounded method present body member⟩
    obtain ⟨index, located⟩ := Array.getElem?_of_mem (Array.mem_toList_iff.mp present)
    -- Passes see the first code of a method, and there is no other.
    apply all.bodies index
    rw [code?, located, Option.bind_some]
    exact Method.code?_of_mem member (all.single method present)
  obtain ⟨bytes, written, again, accepts⟩ := finished.accepts_read all.legible
  refine ⟨bytes, written, fun events => ?_⟩
  obtain ⟨reported, read⟩ := accepts [] events
  rw [List.append_nil] at read
  exact ⟨classFile.renumbered, reported, read, fun earlier =>
    ⟨_, finished.relaxAll_renumbered earlier, again⟩⟩

/-- The class that tracing or relaxing makes of a regular class that was read can be written, read
back as a whole and relaxed again, which gives the same bytes. -/
theorem stable_of_read {input : Bytes} {events : Array Event} {classFile : Class}
    {after : Logged Bytes} (ran : Class.read ⟨input, events⟩ = .ok classFile after)
    (regular : classFile.Regular) (earlier : Array Event) :
    (∀ settings count traced, traceEntries settings ⟨classFile, earlier⟩ = .ok count traced →
      traced.state.Bounded → traced.state.Stable) ∧
    (∀ relaxed, relaxAll ⟨classFile, earlier⟩ = .ok () relaxed →
      relaxed.state.Bounded → relaxed.state.Stable) := by
  have ready := ready_of_read ran regular
  constructor
  · intro settings count traced tracing bounded
    exact (finished_of_traceEntries ready tracing).stable bounded
  · intro relaxed relaxing bounded
    exact (finished_of_relaxAll ready relaxing).stable bounded

end Class

/-- A static method that returns at once. -/
def Body.bareReturn : Body where
  nameIndex := 1
  maxStack := 0
  maxLocals := 0
  slots := #[some ⟨.simple .returnVoid, 0⟩]
  order := #[⟨0⟩]
  codeLength := 1
  ranges := []
  attributes := []
  context := some ⟨5, "()V", true, false⟩

namespace Body

/-- The method that prints a message and returns, with the positions of its instructions. -/
def announcedReturn (field method : ConstantIndex) (load : Instruction Jump)
    (loaded called returned : Nat) : Body :=
  { bareReturn with
    maxStack := 2
    slots := #[some ⟨.simple .returnVoid, returned⟩, some ⟨.constant .getstatic field, 0⟩,
      some ⟨load, loaded⟩, some ⟨.constant .invokevirtual method, called⟩]
    order := #[⟨1⟩, ⟨2⟩, ⟨3⟩, ⟨0⟩]
    codeLength := returned + 1 }

/-- Tracing the method prepends the three instructions that print the message. -/
theorem traced_bareReturn (field text method : ConstantIndex) :
    bareReturn.traced field text method =
      announcedReturn field method (Cursor.loading text) 0 0 0 := by
  simp [traced, printing, splice, bareReturn, nextHandle, bciAtPosition, slot?, announcedReturn]
  rfl

/-- Computing the layout of a body without frames places its instructions and resolves its jumps. -/
theorem sync_of_unframed {body placed : Body} (events : Array Event)
    (resolved : body.place.resolveJumps = .ok placed) (unframed : placed.frames? = none) :
    sync ⟨body, events⟩ = .ok () ⟨placed, events⟩ := by
  have read : (Task.read : Task Body Body) ⟨body, events⟩ = .ok body ⟨body, events⟩ := rfl
  rw [sync, Task.bind_of_eq_ok read,
    Task.bind_of_eq_ok (Task.ofExcept_eq_ok_iff.mpr ⟨resolved, rfl⟩)]
  simp only [unframed]
  rfl

/-- The layout of the traced method depends on the width of the load only. -/
theorem sync_announcedReturn {field method : ConstantIndex} {load : Instruction Jump} {width : Nat}
    (plain : load.labels = []) (fixed : ∀ bci, load.alignedAt bci = load) (wide : load.width = width)
    (events : Array Event) :
    sync ⟨announcedReturn field method load 0 0 0, events⟩ =
      .ok () ⟨announcedReturn field method load 3 (3 + width) (6 + width), events⟩ := by
  have placed : (announcedReturn field method load 0 0 0).place =
      announcedReturn field method load 3 (3 + width) (6 + width) := by
    have aligned (opcode : Opcode) (index : ConstantIndex) (bci : Nat) :
        (Instruction.constant opcode index : Instruction Jump).alignedAt bci =
          .constant opcode index := rfl
    have ending (bci : Nat) : (Instruction.simple .returnVoid : Instruction Jump).alignedAt bci =
        .simple .returnVoid := rfl
    have constantWidth (opcode : Opcode) (index : ConstantIndex) :
        (Instruction.constant opcode index : Instruction Jump).width = 3 := rfl
    have endingWidth : (Instruction.simple .returnVoid : Instruction Jump).width = 1 := rfl
    simp [place, Placement.place, announcedReturn, bareReturn, fixed, wide, aligned, ending,
      constantWidth, endingWidth]
    omega
  have measured : (announcedReturn field method load 3 (3 + width) (6 + width)).JumpsMeasured := by
    intro handle slot found jump present
    have member := Array.mem_of_getElem? (Option.join_eq_some_iff.mp found)
    simp only [announcedReturn, List.mem_toArray, List.mem_cons, Option.some.injEq,
      List.not_mem_nil, or_false] at member
    rcases member with rfl | rfl | rfl | rfl
    · cases present
    · cases present
    · exact absurd present (plain ▸ List.not_mem_nil)
    · cases present
  refine sync_of_unframed events ?_ rfl
  rw [placed]
  exact resolveJumps_of_measured measured

/-- The traced method is laid out within ten bytes of code. -/
theorem exists_sync_traced_bareReturn (field text method : ConstantIndex) (events : Array Event) :
    ∃ placed, sync ⟨bareReturn.traced field text method, events⟩ = .ok () ⟨placed, events⟩ ∧
      placed.oversized = [] ∧ placed.codeLength ≤ 10 ∧ placed.byteSize ≤ 28 := by
  -- The length depends on whether the index of the message fits in a byte.
  rw [traced_bareReturn, Cursor.loading]
  split
  · let placed := announcedReturn field method (.loadConstant text.toUInt8) 3 5 8
    have length : placed.codeLength = 9 := rfl
    have size : placed.byteSize = 27 := rfl
    exact ⟨placed, sync_announcedReturn rfl (fun _ => rfl) rfl events, rfl, by omega, by omega⟩
  · let placed := announcedReturn field method (.constant .ldcW text) 3 6 9
    have length : placed.codeLength = 10 := rfl
    have size : placed.byteSize = 28 := rfl
    exact ⟨placed, sync_announcedReturn rfl (fun _ => rfl) rfl events, rfl, by omega, by omega⟩

end Body

namespace Edit

/-- Relaxing a body whose branches are in reach computes its layout and no more. -/
theorem relaxReporting_of_settled {body placed : Body} (pool : Pool) {events reported : Array Event}
    (synced : Body.sync ⟨body, events⟩ = .ok () ⟨placed, reported⟩) (reached : placed.oversized = [])
    (short : placed.codeLength ≤ maxCodeLength) :
    ∃ final, relaxReporting ⟨⟨body, pool⟩, events⟩ = .ok () ⟨⟨placed, pool⟩, final⟩ := by
  have relaxed := relax_of_settled pool synced reached
  rw [if_neg (Nat.not_lt.mpr short)] at relaxed
  have read (body : Body) (events : Array Event) :
      body! ⟨⟨body, pool⟩, events⟩ = .ok body ⟨⟨body, pool⟩, events⟩ := rfl
  rw [relaxReporting, Task.bind_of_eq_ok (read ..), Task.bind_of_eq_ok relaxed,
    Task.bind_of_eq_ok (read ..)]
  split
  · exact ⟨_, rfl⟩
  · exact ⟨_, rfl⟩

end Edit

namespace Class

/-- The class has one method, with this body and no other attribute. -/
def Holding (body : Body) (classFile : Class) : Prop :=
  ∃ method, classFile.methods = #[method] ∧ method.attributes = [.code body]

namespace Holding

variable {body : Body} {classFile : Class}

theorem code? (holding : Holding body classFile) : classFile.code? 0 = some body := by
  obtain ⟨method, methods, attributes⟩ := holding
  simp [Class.code?, Method.code?, methods, attributes, MethodAttribute.body?]

theorem size (holding : Holding body classFile) : classFile.methods.size = 1 := by
  obtain ⟨method, methods, _⟩ := holding
  rw [methods]
  rfl

/-- The class holds the body that its method was given. -/
theorem setCode (holding : Holding body classFile) (edit : Edit) :
    Holding edit.body (classFile.setCode 0 edit) := by
  obtain ⟨method, methods, attributes⟩ := holding
  refine ⟨method.setCode edit.body, by simp [Class.setCode, methods], ?_⟩
  rw [Method.setCode, attributes]
  rfl

/-- A class that holds a small body is bounded. -/
theorem bounded (holding : Holding body classFile) (small : body.byteSize < 2 ^ 31) :
    classFile.Bounded := by
  obtain ⟨method, methods, attributes⟩ := holding
  simpa [Bounded, methods, attributes] using small

/-- Relaxing the class relaxes its only body. -/
theorem relaxAll (holding : Holding body classFile) {events reported : Array Event} {edit : Edit}
    (relaxed : Edit.relaxReporting ⟨⟨body, classFile.pool⟩, events⟩ = .ok () ⟨edit, reported⟩) :
    ∃ after, Class.relaxAll ⟨classFile, events⟩ = .ok () after ∧ Holding edit.body after.state := by
  have ran : discard (onCode 0 Edit.relaxReporting) ⟨classFile, events⟩ =
      .ok () ⟨classFile.setCode 0 edit, reported⟩ :=
    Task.discard_eq_ok_iff.mpr
      ⟨_, onCode_eq_ok_iff.mpr (.inr ⟨body, (), _, holding.code?, relaxed, rfl, rfl⟩)⟩
  have read : (Task.read : Task Class Class) ⟨classFile, events⟩ =
      .ok classFile ⟨classFile, events⟩ := rfl
  refine ⟨⟨classFile.setCode 0 edit, reported⟩, ?_, holding.setCode edit⟩
  rw [Class.relaxAll, Task.bind_of_eq_ok read, holding.size]
  exact Task.forM_cons_eq_ok_iff.mpr ⟨_, ran, rfl⟩

/-- Tracing the class traces and relaxes its only body. -/
theorem traceEntries (holding : Holding body classFile) {settings : TraceSettings} {method : Method}
    {className name descriptor : String} {events reported final : Array Event} {edit result : Edit}
    (known : classFile.methods[0]? = some method) (owner : classFile.name = .ok className)
    (named : method.name classFile.pool = .ok name) (selected : settings.selects name)
    (described : method.descriptor classFile.pool = .ok descriptor)
    (entered : Edit.traceEntry settings (className ++ "." ++ name ++ descriptor)
      ⟨⟨body, classFile.pool⟩, events⟩ = .ok () ⟨edit, reported⟩)
    (relaxed : Edit.relaxReporting ⟨edit, reported⟩ = .ok () ⟨result, final⟩) :
    ∃ after, Class.traceEntries settings ⟨classFile, events⟩ = .ok 1 after ∧
      Holding result.body after.state := by
  have read : (Task.read : Task Class Class) ⟨classFile, events⟩ =
      .ok classFile ⟨classFile, events⟩ := rfl
  have chosen : traceMethod settings className 0 ⟨classFile, events⟩ =
      .ok true ⟨classFile.setCode 0 edit, reported⟩ := by
    have ran : onCode 0 (Edit.traceEntry settings (className ++ "." ++ name ++ descriptor))
        ⟨classFile, events⟩ = .ok (some ()) ⟨classFile.setCode 0 edit, reported⟩ :=
      onCode_eq_ok_iff.mpr (.inr ⟨body, (), _, holding.code?, entered, rfl, rfl⟩)
    rw [traceMethod, Task.bind_of_eq_ok read]
    simp only [known]
    rw [Task.bind_of_eq_ok (Task.ofExcept_eq_ok_iff.mpr ⟨named, rfl⟩), if_pos selected,
      Task.bind_of_eq_ok (Task.ofExcept_eq_ok_iff.mpr ⟨described, rfl⟩), Task.bind_of_eq_ok ran]
    rfl
  have filtered : ((List.range classFile.methods.size).filterM (traceMethod settings className))
      ⟨classFile, events⟩ = .ok [0] ⟨classFile.setCode 0 edit, reported⟩ := by
    rw [holding.size]
    exact Task.bind_eq_ok_iff.mpr ⟨_, _, Task.bind_eq_ok_iff.mpr ⟨_, _, chosen, rfl⟩, rfl⟩
  obtain ⟨after, relaxedAll, kept⟩ := (holding.setCode edit).relaxAll relaxed
  refine ⟨after, ?_, kept⟩
  rw [Class.traceEntries, Task.bind_of_eq_ok read,
    Task.bind_of_eq_ok (Task.ofExcept_eq_ok_iff.mpr ⟨owner, rfl⟩), Task.bind_of_eq_ok filtered]
  exact Task.bind_eq_ok_iff.mpr ⟨_, _, relaxedAll, rfl⟩

end Holding

/-- A class with a method that returns at once. -/
def bareReturn : Bytes :=
  [0xCA, 0xFE, 0xBA, 0xBE, 0, 0, 0, 52, 0, 6,
    1, 0, 4, 0x43, 0x6F, 0x64, 0x65, 1, 0, 1, 0x6D, 1, 0, 3, 0x28, 0x29, 0x56,
    1, 0, 1, 0x41, 7, 0, 4,
    0, 0x21, 0, 5, 0, 0, 0, 0, 0, 0,
    0, 1, 0, 8, 0, 2, 0, 3, 0, 1,
    0, 1, 0, 0, 0, 13, 0, 0, 0, 0, 0, 0, 0, 1, 0xB1, 0, 0, 0, 0,
    0, 0]

set_option maxRecDepth 8000 in
/-- The bytes of the class are read as a class with the method that returns at once. -/
theorem read_bareReturn : ∃ classFile after method,
    Class.read ⟨bareReturn, #[]⟩ = .ok classFile after ∧ classFile.methods = #[method] ∧
      method.attributes = [.code Body.bareReturn] ∧ classFile.pool.table.extent = 6 ∧
      classFile.name = .ok "A" ∧ method.name classFile.pool = .ok "m" ∧
      method.descriptor classFile.pool = .ok "()V" := by
  simp only [Class.read, Method.read, MethodAttribute.read, Body.read, Array.mapM_eq_mapM_toList]
  exact ⟨_, _, _, rfl, rfl, rfl, rfl, rfl, rfl, rfl⟩

theorem stable_of_read_bareReturn : ∃ classFile after traced relaxed,
    Class.read ⟨bareReturn, #[]⟩ = .ok classFile after ∧ classFile.Regular ∧
      (traceEntries {} ⟨classFile, #[]⟩ = .ok 1 traced ∧ traced.state.Bounded ∧
        traced.state.Stable) ∧
      (relaxAll ⟨classFile, #[]⟩ = .ok () relaxed ∧ relaxed.state.Bounded ∧
        relaxed.state.Stable) := by
  obtain ⟨classFile, after, method, ran, methods, attributes, extent, className, name, descriptor⟩ :=
    read_bareReturn
  have holding : Holding Body.bareReturn classFile := ⟨method, methods, attributes⟩
  have regular : classFile.Regular := by
    refine ⟨?_, ?_, ?_⟩
    · simp [methods, attributes, MethodAttribute.isCode, MethodAttribute.body?]
    · simp [methods, attributes, Body.bareReturn]
    · simp [methods, attributes, Body.bareReturn, Body.StatesCounted, Body.frames?]
  obtain ⟨field, text, invoked, grown, entered⟩ := @Edit.exists_traceEntry {} "A.m()V" Body.bareReturn
    classFile.pool #[] (by omega) (by decide +kernel) (by decide +kernel) (by decide +kernel)
  obtain ⟨placed, synced, reached, short, small⟩ :=
    Body.exists_sync_traced_bareReturn field text invoked #[.entryTraced "A.m()V"]
  obtain ⟨final, relaxed⟩ := Edit.relaxReporting_of_settled grown synced reached
    (le_trans short (by decide))
  have known : classFile.methods[0]? = some method := by rw [methods]; rfl
  obtain ⟨traced, tracing, tracedHolding⟩ :=
    holding.traceEntries known className name rfl descriptor entered relaxed
  have kept : Body.sync ⟨Body.bareReturn, #[]⟩ = .ok () ⟨Body.bareReturn, #[]⟩ := by
    rw [Body.sync_eq_layOut]
    rfl
  obtain ⟨_, unchanged⟩ := Edit.relaxReporting_of_settled classFile.pool kept rfl (by decide)
  obtain ⟨relaxed, relaxing, relaxedHolding⟩ := holding.relaxAll unchanged
  have tracedBounded := tracedHolding.bounded (lt_of_le_of_lt small (by decide))
  have relaxedBounded := @Holding.bounded Body.bareReturn _ relaxedHolding (by decide)
  obtain ⟨afterTracing, afterRelaxing⟩ := stable_of_read ran regular #[]
  exact ⟨classFile, after, traced, relaxed, ran, regular,
    ⟨tracing, tracedBounded, afterTracing {} 1 traced tracing tracedBounded⟩,
    ⟨relaxing, relaxedBounded, afterRelaxing relaxed relaxing relaxedBounded⟩⟩

end Class

end Classfile
