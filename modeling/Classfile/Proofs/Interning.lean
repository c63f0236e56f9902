import Classfile.Code.Frame
import Classfile.Proofs.Running
import Classfile.Proofs.Searching

/-!
Interning never changes the meaning of an index.

`Pool.Built` are the pools that there are: those filled by pushing constants onto the empty one.
Whatever is interned, a built pool stays one, and each constant is found where it was before.
-/

namespace Classfile

namespace Interning

variable {A B : Type}

theorem bind_eq_ok_iff {first : Interning A} {next : A → Interning B} {before after : Pool}
    {value : B} :
    (first >>= next) before = .ok value after ↔
      ∃ found middle, first before = .ok found middle ∧ next found middle = .ok value after := by
  change EStateM.bind first next before = _ ↔ _
  cases ran : first before with
  | ok found middle => simp [EStateM.bind, ran]
  | error error middle => simp [EStateM.bind, ran]

theorem pure_eq_ok_iff {value result : A} {before after : Pool} :
    (pure value : Interning A) before = .ok result after ↔ value = result ∧ before = after := by
  change EStateM.pure value before = _ ↔ _
  simp [EStateM.pure]

theorem throw_eq_ok_iff {error : Error} {result : A} {before after : Pool} :
    (throw error : Interning A) before = .ok result after ↔ False := by
  change EStateM.Result.error error before = .ok result after ↔ _
  simp

end Interning

/-- Every constant takes at least one index. -/
theorem Constant.width_pos (constant : Constant) : 0 < constant.width := by
  cases constant <;> simp [width]

namespace Pool

/-- A constant is pushed unless the pool refuses it. -/
theorem push_eq_ok_iff {pool result : Pool} {constant : Constant} :
    pool.push constant = .ok result ↔
      pool.refusal? constant = none ∧ result = pool.append constant := by
  rw [push]
  cases pool.refusal? constant with
  | none => simp [eq_comm]
  | some error => simp

/-- Constants were pushed onto the empty pool one after the other. -/
inductive Built : Pool → Prop
  | empty : Built Pool.empty
  | push {pool later : Pool} {constant : Constant} (built : Built pool)
      (pushed : pool.push constant = .ok later) : Built later

/-- Constants that are pushed onto a built pool leave a built one. -/
theorem Built.of_pushed {constants : List Constant} {start result : Pool} (built : start.Built)
    (pushed : constants.foldlM Pool.push start = .ok result) : result.Built :=
  foldlM_invariant Built (fun _ _ _ _ earlier first => earlier.push first) built pushed

/-- A pool with the names of tables of code, and the name and type of a variable. -/
def tableNames : Pool :=
  ["Code", "StackMapTable", "LineNumberTable", "LocalVariableTable", "count", "I"].foldl
    (fun pool text => pool.append (.utf8 (ModifiedUtf8.encode text))) empty

theorem built_tableNames : tableNames.Built := by
  have pushed : (["Code", "StackMapTable", "LineNumberTable", "LocalVariableTable", "count", "I"].map
      fun text => Constant.utf8 (ModifiedUtf8.encode text)).foldlM push empty = .ok tableNames := rfl
  exact Built.empty.of_pushed pushed

/-- Each constant starts where the one before it ends. -/
theorem Built.increasing {pool : Pool} (built : pool.Built) : pool.table.Increasing := by
  induction built with
  | empty => exact OffsetTable.Increasing.startingAt 1
  | @push pool later constant built pushed inductionHypothesis =>
    obtain ⟨_, rfl⟩ := push_eq_ok_iff.mp pushed
    exact inductionHypothesis.push constant constant.width_pos

/-- A built pool has a constant at each index where one starts. -/
theorem get_eq_ok_iff {pool : Pool} (built : pool.Built) {index : ConstantIndex}
    {constant : Constant} :
    pool.get index = .ok constant ↔
      ∃ entry : Nat, pool.table.entries[entry]? = some (index.toNat, constant) := by
  have found (entry : Nat) (other : Constant) :=
    OffsetTable.lookup_eq_found_iff built.increasing index.toNat entry other
  rw [get]
  constructor
  · intro same
    split at same
    · rename_i entry other located
      cases same
      exact ⟨entry, (found entry constant).mp located⟩
    · cases same
  · intro ⟨entry, located⟩
    rw [(found entry constant).mpr located]

/-- The later pool is built if the earlier one is, and then it finds all that the earlier one
finds. -/
def Extends (before after : Pool) : Prop :=
  before.Built → after.Built ∧
    ∀ index constant, before.get index = .ok constant → after.get index = .ok constant

theorem Extends.refl (pool : Pool) : pool.Extends pool :=
  fun built => ⟨built, fun _ _ found => found⟩

theorem Extends.trans {before middle after : Pool} (first : before.Extends middle)
    (second : middle.Extends after) : before.Extends after := by
  intro built
  have earlier := first built
  have later := second earlier.1
  exact ⟨later.1, fun index constant found => later.2 index constant (earlier.2 index constant found)⟩

/-- Pushing a constant extends a pool. -/
theorem extends_of_push {pool later : Pool} {constant : Constant}
    (pushed : pool.push constant = .ok later) : pool.Extends later := by
  intro built
  have builtLater := built.push pushed
  refine ⟨builtLater, fun index other found => ?_⟩
  rw [get_eq_ok_iff builtLater]
  obtain ⟨entry, located⟩ := (get_eq_ok_iff built).mp found
  obtain ⟨_, rfl⟩ := push_eq_ok_iff.mp pushed
  have inside := (Array.getElem?_eq_some_iff.mp located).1
  refine ⟨entry, ?_⟩
  simp only [append, OffsetTable.push]
  rw [Array.getElem?_push_lt inside, ← located, Array.getElem?_eq_getElem inside]

/-- A text is found in every pool that extends the one it was found in. -/
theorem Extends.text {before after : Pool} (grown : before.Extends after) (built : before.Built)
    {index : ConstantIndex} {text : String} (named : before.text index = .ok text) :
    after.text index = .ok text := by
  simp only [Pool.text, utf8, exceptBind_eq_ok_iff] at named ⊢
  obtain ⟨bytes, ⟨constant, found, chosen⟩, decoded⟩ := named
  exact ⟨bytes, ⟨constant, (grown built).2 index constant found, chosen⟩, decoded⟩

/-- Interning a constant extends a pool. -/
theorem extends_of_intern {before after : Pool} {constant : Constant} {index : ConstantIndex}
    (interned : intern constant before = .ok index after) : before.Extends after := by
  rw [intern] at interned
  split at interned
  · cases interned
    exact Extends.refl _
  · split at interned
    · cases interned
    · rename_i allowed
      cases interned
      have pushed : before.push constant = .ok (before.append constant) := by rw [push, allowed]
      exact extends_of_push pushed

theorem extends_of_internClass {before after : Pool} {name : String} {index : ConstantIndex}
    (interned : internClass name before = .ok index after) : before.Extends after := by
  rw [internClass, Interning.bind_eq_ok_iff] at interned
  obtain ⟨text, middle, first, second⟩ := interned
  exact (extends_of_intern first).trans (extends_of_intern second)

end Pool

namespace Pool

/-- A constant that the earlier pool knows has the same first index in the later one. -/
def Remembers (before after : Pool) : Prop :=
  ∀ (constant : Constant) (index : ConstantIndex), before.firstIndex[constant]? = some index →
    after.firstIndex[constant]? = some index

theorem Remembers.refl (pool : Pool) : pool.Remembers pool := fun _ _ known => known

theorem Remembers.trans {before middle after : Pool} (first : before.Remembers middle)
    (second : middle.Remembers after) : before.Remembers after :=
  fun constant index known => second constant index (first constant index known)

/-- A pool remembers its constants when another is appended. -/
theorem remembers_append {pool : Pool} {constant : Constant} :
    pool.Remembers (pool.append constant) := by
  intro other index known
  rw [append, Std.HashMap.getElem?_insertIfNew, known]
  split
  · rename_i same
    have absent := Std.HashMap.getElem?_eq_none same.2
    rw [eq_of_beq same.1, known] at absent
    cases absent
  · rfl

/-- What is interned is known from then on. -/
theorem remembers_of_intern {before after : Pool} {constant : Constant} {index : ConstantIndex}
    (interned : intern constant before = .ok index after) :
    before.Remembers after ∧ after.firstIndex[constant]? = some index := by
  rw [intern] at interned
  split at interned
  · rename_i found
    cases interned
    exact ⟨Remembers.refl _, found⟩
  · rename_i unknown
    split at interned
    · cases interned
    · cases interned
      have absent : constant ∉ before.firstIndex := by
        rw [Std.HashMap.mem_iff_isSome_getElem?, unknown]
        exact Bool.false_ne_true
      refine ⟨remembers_append, ?_⟩
      rw [append, Std.HashMap.getElem?_insertIfNew, if_pos ⟨beq_self_eq_true _, absent⟩]

end Pool

namespace Interning

variable {A B : Type}

/-- Once it has succeeded, a task gives the same answer again and adds nothing, whatever was
interned in the meantime. -/
def Repeats (task : Interning A) : Prop :=
  ∀ before value after, task before = .ok value after → before.Remembers after ∧
    ∀ later, after.Remembers later → task later = .ok value later

theorem repeats_pure (value : A) : Repeats (pure value) := by
  intro before result after ran
  obtain ⟨rfl, rfl⟩ := pure_eq_ok_iff.mp ran
  exact ⟨Pool.Remembers.refl _, fun later _ => pure_eq_ok_iff.mpr ⟨rfl, rfl⟩⟩

/-- Two tasks that repeat do so one after the other. -/
theorem Repeats.bind {first : Interning A} {next : A → Interning B} (repeats : Repeats first)
    (continued : ∀ value, Repeats (next value)) : Repeats (first >>= next) := by
  intro before result after ran
  obtain ⟨value, middle, ranFirst, ranNext⟩ := bind_eq_ok_iff.mp ran
  obtain ⟨remembered, again⟩ := repeats _ _ _ ranFirst
  obtain ⟨rememberedNext, againNext⟩ := continued value _ _ _ ranNext
  refine ⟨remembered.trans rememberedNext, fun later grown => ?_⟩
  exact bind_eq_ok_iff.mpr ⟨value, later, again later (rememberedNext.trans grown), againNext later grown⟩

theorem repeats_mapM {act : A → Interning B} (items : List A) (each : ∀ item, Repeats (act item)) :
    Repeats (items.mapM act) := by
  induction items with
  | nil => exact repeats_pure []
  | cons item items inductionHypothesis =>
    rw [List.mapM_cons]
    exact (each item).bind fun value => inductionHypothesis.bind fun others => repeats_pure _

/-- A constant that was interned is found again. -/
theorem repeats_intern (constant : Constant) : Repeats (Pool.intern constant) := by
  intro before index after ran
  obtain ⟨remembered, known⟩ := Pool.remembers_of_intern ran
  refine ⟨remembered, fun later grown => ?_⟩
  rw [Pool.intern, grown constant index known]

theorem repeats_internClass (name : String) : Repeats (Pool.internClass name) :=
  (repeats_intern _).bind fun _ => repeats_intern _

/-- The verification type of a field is found again. -/
theorem repeats_ofFieldType (type : FieldType) : Repeats (VerificationType.ofFieldType type) := by
  cases type with
  | base letter => cases letter <;> exact repeats_pure _
  | object name => exact (repeats_internClass name).bind fun _ => repeats_pure _
  | array element => exact (repeats_internClass _).bind fun _ => repeats_pure _

end Interning

namespace VerificationType

/-- The type of a parameter names no instruction, and its class is interned. -/
theorem spec_of_ofFieldType {type : FieldType} {before after : Pool} {result : VerificationType}
    (made : ofFieldType type before = .ok result after) :
    before.Extends after ∧ result.creator? = none := by
  have plain {value : VerificationType} (none : value.creator? = none)
      (pure : (pure value : Interning VerificationType) before = .ok result after) :
      before.Extends after ∧ result.creator? = .none := by
    obtain ⟨rfl, rfl⟩ := Interning.pure_eq_ok_iff.mp pure
    exact ⟨Pool.Extends.refl _, none⟩
  have object {name : String}
      (made : (do return .object (← Pool.internClass name) : Interning VerificationType) before =
        .ok result after) : before.Extends after ∧ result.creator? = none := by
    obtain ⟨index, middle, interned, pure⟩ := Interning.bind_eq_ok_iff.mp made
    obtain ⟨rfl, rfl⟩ := Interning.pure_eq_ok_iff.mp pure
    exact ⟨Pool.extends_of_internClass interned, rfl⟩
  cases type with
  | base letter => cases letter <;> exact plain rfl made
  | object name => exact object made
  | array element => exact object made

/-- Each parameter gives one type, which names no creator. -/
theorem spec_of_mapM_ofFieldType {parameters : List FieldType} {before after : Pool}
    {types : List VerificationType} (made : parameters.mapM ofFieldType before = .ok types after) :
    before.Extends after ∧ types.length = parameters.length ∧
      ∀ type ∈ types, type.creator? = none := by
  induction parameters generalizing before types with
  | nil =>
    rw [List.mapM_nil] at made
    obtain ⟨rfl, rfl⟩ := Interning.pure_eq_ok_iff.mp made
    exact ⟨Pool.Extends.refl _, rfl, by simp⟩
  | cons parameter parameters inductionHypothesis =>
    rw [List.mapM_cons] at made
    obtain ⟨first, middle, one, rest⟩ := Interning.bind_eq_ok_iff.mp made
    obtain ⟨others, last, many, pure⟩ := Interning.bind_eq_ok_iff.mp rest
    obtain ⟨rfl, rfl⟩ := Interning.pure_eq_ok_iff.mp pure
    obtain ⟨grown, unnamed⟩ := spec_of_ofFieldType one
    obtain ⟨grownLater, count, unnamedLater⟩ := inductionHypothesis many
    refine ⟨grown.trans grownLater, by simp [count], ?_⟩
    intro type present
    rcases List.mem_cons.mp present with rfl | later
    · exact unnamed
    · exact unnamedLater type later

end VerificationType

namespace MethodContext

/-- The type of a receiver names no creator. -/
theorem creator?_of_receiver {context : MethodContext} {type : VerificationType}
    (present : type ∈ context.receiver) : type.creator? = none := by
  rw [receiver] at present
  split at present
  · cases present
  · split at present
    · rw [List.mem_singleton.mp present]
      rfl
    · rw [List.mem_singleton.mp present]
      rfl

/-- The state on entry has a local for the receiver and one for each parameter, and no instruction
created any of them. -/
theorem spec_of_entryFrame {context : MethodContext} {before after : Pool} {entry : FrameState}
    (entered : context.entryFrame before = .ok entry after) :
    before.Extends after ∧
      (∃ descriptor, MethodDescriptor.parse context.descriptor = .ok descriptor ∧
        entry.locals.length = context.receiver.length + descriptor.parameters.length) ∧
      entry.stack = [] ∧ ∀ type ∈ entry.locals, type.creator? = none := by
  rw [entryFrame] at entered
  cases parsed : MethodDescriptor.parse context.descriptor with
  | error cause =>
    rw [parsed] at entered
    exact (Interning.throw_eq_ok_iff.mp entered).elim
  | ok descriptor =>
    simp only [parsed] at entered
    obtain ⟨parameters, middle, made, pure⟩ := Interning.bind_eq_ok_iff.mp entered
    obtain ⟨rfl, rfl⟩ := Interning.pure_eq_ok_iff.mp pure
    obtain ⟨grown, count, unnamed⟩ := VerificationType.spec_of_mapM_ofFieldType made
    refine ⟨grown, ⟨descriptor, rfl, by simp [count]⟩, rfl, ?_⟩
    intro type present
    rcases List.mem_append.mp present with received | passed
    · exact creator?_of_receiver received
    · exact unnamed type passed

/-- The number of locals on entry does not depend on the pool. -/
theorem length_of_entryFrame {context : MethodContext} {before after other last : Pool}
    {entry again : FrameState} (entered : context.entryFrame before = .ok entry after)
    (enteredAgain : context.entryFrame other = .ok again last) :
    entry.locals.length = again.locals.length := by
  obtain ⟨-, ⟨descriptor, parsed, count⟩, -, -⟩ := spec_of_entryFrame entered
  obtain ⟨-, ⟨same, parsedAgain, countAgain⟩, -, -⟩ := spec_of_entryFrame enteredAgain
  rw [parsed, Except.ok.injEq] at parsedAgain
  rw [count, countAgain, parsedAgain]

/-- The state on entry is the same in the pool that it was interned in. -/
theorem entryFrame_again {context : MethodContext} {before after : Pool} {entry : FrameState}
    (entered : context.entryFrame before = .ok entry after) :
    context.entryFrame after = .ok entry after := by
  have repeats : Interning.Repeats context.entryFrame := by
    unfold entryFrame
    split
    · intro before value after ran
      exact (Interning.throw_eq_ok_iff.mp ran).elim
    · exact (Interning.repeats_mapM _ Interning.repeats_ofFieldType).bind
        fun _ => Interning.repeats_pure _
  exact (repeats _ _ _ entered).2 after (Pool.Remembers.refl after)

end MethodContext

end Classfile
