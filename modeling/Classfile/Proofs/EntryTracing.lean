import Classfile.Proofs.PoolHistory
import Classfile.Proofs.Readiness

/-!
Tracing the entry of a method.

Tracing keeps a body ready to be relaxed, and it can only fail for want of room in the pool: where the
constants fit, three instructions are spliced in at the start of the body.
-/

namespace Classfile

namespace Edit

/-- Interning keeps an edit ready. -/
theorem leads_onPool {A : Type} {interning : Interning A} (enlarges : interning.Enlarges) :
    (onPool interning).Leads Prepares := by
  intro before value after ran
  obtain ⟨pool, interned, rfl⟩ := onPool_eq_ok_iff.mp ran
  have extended := enlarges.toExtends interned
  exact ⟨⟨extended, rfl, rfl⟩, fun built ready => ready.extends built extended⟩

/-- The insertion of an instruction without labels keeps an edit ready. -/
theorem leads_insert {position : Nat} {instruction : Instruction Jump}
    (straight : instruction.labels = []) (fine : instruction.isWellFormed = true) :
    (change fun body => body.insert position instruction).Leads Prepares := by
  intro before value after ran
  obtain ⟨body, inserted, rfl⟩ := change_eq_ok_iff.mp ran
  rw [Body.insert] at inserted
  split at inserted
  · rename_i inside
    cases inserted
    exact ⟨⟨Pool.Extends.refl _, rfl, rfl⟩, fun built ready => ready.splice built inside straight fine⟩
  · cases inserted

end Edit

namespace Cursor

variable {A B : Type}

/-- A run at a cursor keeps the edit ready. -/
def Prepares (task : AtCursor A) : Prop :=
  task.Leads fun before after => Edit.Prepares before.edit after.edit

/-- Two tasks that keep an edit ready do so one after the other. -/
theorem Prepares.bind {task : AtCursor A} {next : A → AtCursor B} (prepares : Prepares task)
    (continued : ∀ value, Prepares (next value)) : Prepares (task >>= next) :=
  Task.Leads.bind prepares continued fun _ _ _ => Edit.Prepares.trans

theorem Prepares.discard {task : AtCursor A} (prepares : Prepares task) :
    Prepares (Functor.discard task) :=
  Task.Leads.discard prepares

/-- A task on the edit keeps it ready at a cursor as well. -/
theorem prepares_onEdit {task : Task Edit A} (leads : task.Leads Edit.Prepares) :
    Prepares (onEdit task) := by
  intro before value after ran
  obtain ⟨inner, ranTask, rfl⟩ := Task.focus_eq_ok_iff.mp ran
  exact leads _ _ _ ranTask

/-- Pushing an instruction without labels keeps an edit ready. -/
theorem prepares_push {instruction : Instruction Jump} (straight : instruction.labels = [])
    (fine : instruction.isWellFormed = true) : Prepares (push instruction) := by
  intro before value after ran
  simp only [push, Task.bind_eq_ok_iff, Task.read_eq_ok_iff, Task.write_eq_ok_iff,
    Task.pure_eq_ok_iff] at ran
  obtain ⟨_, _, ⟨rfl, rfl⟩, handle, middle, inserted, _, _, ⟨rfl, rfl⟩, _, _, rfl, rfl, rfl⟩ := ran
  have prepared := prepares_onEdit (Edit.leads_insert straight fine) _ _ _ inserted
  exact prepared

theorem prepares_loadConstant (index : ConstantIndex) : Prepares (loadConstant index) := by
  rw [loadConstant]
  split
  · exact prepares_push rfl rfl
  · exact prepares_push rfl rfl

theorem prepares_getStatic (owner name descriptor : String) :
    Prepares (getStatic owner name descriptor) :=
  (prepares_onEdit (Edit.leads_onPool (Pool.Request.field owner name descriptor).enlarges)).bind
    fun _ => prepares_push rfl rfl

theorem prepares_invokeVirtual (owner name descriptor : String) :
    Prepares (invokeVirtual owner name descriptor) :=
  (prepares_onEdit (Edit.leads_onPool (Pool.Request.method owner name descriptor).enlarges)).bind
    fun _ => prepares_push rfl rfl

theorem prepares_loadString (contents : String) : Prepares (loadString contents) :=
  (prepares_onEdit (Edit.leads_onPool (Pool.Request.string contents).enlarges)).bind
    fun index => prepares_loadConstant index

/-- A run at an anchor keeps an edit ready if its task does. -/
theorem leads_run {anchor : Anchor} {task : AtCursor A} (prepares : Prepares task) :
    (run anchor task).Leads Edit.Prepares := by
  intro before value after ran
  simp only [run, Task.bind_eq_ok_iff, Task.read_eq_ok_iff, Task.ofExcept_eq_ok_iff,
    Task.focus_eq_ok_iff] at ran
  obtain ⟨_, _, ⟨rfl, rfl⟩, position, _, ⟨_, rfl⟩, inner, ranTask, rfl⟩ := ran
  exact prepares _ _ _ ranTask

end Cursor

namespace Edit

/-- Tracing the entry keeps the body ready. -/
theorem leads_traceEntry (settings : TraceSettings) (message : String) :
    (traceEntry settings message).Leads Prepares := by
  have prologue : Cursor.Prepares (do
      discard (Cursor.getStatic settings.className settings.fieldName TraceSettings.fieldDescriptor)
      discard (Cursor.loadString message)
      discard (Cursor.invokeVirtual "java/io/PrintStream" "println" "(Ljava/lang/String;)V")) :=
    (Cursor.prepares_getStatic _ _ _).discard.bind fun _ =>
      (Cursor.prepares_loadString message).discard.bind fun _ =>
        (Cursor.prepares_invokeVirtual _ _ _).discard
  intro before value after ran
  simp only [traceEntry, Task.bind_eq_ok_iff, replace_eq_ok_iff, Except.ok.injEq,
    Task.report_eq_ok_iff] at ran
  obtain ⟨_, middle, spliced, _, _, ⟨_, rfl, rfl⟩, rfl⟩ := ran
  have prepared := Cursor.leads_run prologue _ _ _ spliced
  refine ⟨⟨prepared.grown, prepared.named, prepared.owned⟩, fun built ready => ?_⟩
  exact (prepared.ready built ready).setMaxStack (prepared.grown built).1 _

end Edit

namespace Interning

variable {A B : Type}

/-- With this many free indices interning succeeds and uses no more of them. -/
def Fits (room : Nat) (task : Interning A) : Prop :=
  ∀ pool : Pool, pool.table.extent + room < 65536 →
    ∃ value after, task pool = .ok value after ∧ after.table.extent ≤ pool.table.extent + room

/-- Two tasks one after the other need the room of both. -/
theorem Fits.bind {first : Interning A} {next : A → Interning B} {room more : Nat}
    (fits : Fits room first) (continued : ∀ value, Fits more (next value)) :
    Fits (room + more) (first >>= next) := by
  intro pool enough
  obtain ⟨found, middle, ranFirst, used⟩ := fits pool (by omega)
  obtain ⟨value, after, ranNext, usedNext⟩ := continued found middle (by omega)
  exact ⟨value, after, bind_eq_ok_iff.mpr ⟨found, middle, ranFirst, ranNext⟩, by omega⟩

/-- A constant needs room for one index. -/
theorem fits_intern {constant : Constant} (single : constant.width = 1)
    (short : ∀ bytes, constant = .utf8 bytes → bytes.length < 65536) :
    Fits 1 (Pool.intern constant) := by
  intro pool enough
  rw [Pool.intern]
  split
  · exact ⟨_, _, rfl, Nat.le_succ _⟩
  · have index : pool.nextIndex.toNat ≤ pool.table.extent := by
      rw [Pool.nextIndex, UInt16.toNat_ofNat']
      exact Nat.mod_le _ _
    have allowed : pool.refusal? constant = none := by
      unfold Pool.refusal?
      rw [if_neg (by omega)]
      cases constant with
      | utf8 bytes => exact if_neg (Nat.not_lt.mpr (Nat.le_of_lt_succ (short bytes rfl)))
      | _ => rfl
    rw [allowed]
    exact ⟨_, _, rfl, by rw [Pool.extent_append, single]⟩

theorem fits_internText {text : String} (short : (ModifiedUtf8.encode text).length < 65536) :
    Fits 1 (Pool.internText text) :=
  fits_intern rfl fun _ same => by
    cases same
    exact short

/-- A class needs room for two indices. -/
theorem fits_internClass {name : String} (short : (ModifiedUtf8.encode name).length < 65536) :
    Fits 2 (Pool.internClass name) :=
  (fits_internText short).bind fun _ => fits_intern rfl (by simp)

theorem fits_internString {contents : String}
    (short : (ModifiedUtf8.encode contents).length < 65536) : Fits 2 (Pool.internString contents) :=
  (fits_internText short).bind fun _ => fits_intern rfl (by simp)

theorem fits_internNameAndType {name descriptor : String}
    (shortName : (ModifiedUtf8.encode name).length < 65536)
    (shortDescriptor : (ModifiedUtf8.encode descriptor).length < 65536) :
    Fits 3 (Pool.internNameAndType name descriptor) :=
  (fits_internText shortName).bind fun _ => (fits_internText shortDescriptor).bind fun _ =>
    fits_intern rfl (by simp)

theorem fits_internField {owner name descriptor : String}
    (shortOwner : (ModifiedUtf8.encode owner).length < 65536)
    (shortName : (ModifiedUtf8.encode name).length < 65536)
    (shortDescriptor : (ModifiedUtf8.encode descriptor).length < 65536) :
    Fits 6 (Pool.internField owner name descriptor) :=
  (fits_internClass shortOwner).bind fun _ =>
    (fits_internNameAndType shortName shortDescriptor).bind fun _ => fits_intern rfl (by simp)

/-- A method needs room for six indices. -/
theorem fits_internMethod {owner name descriptor : String}
    (shortOwner : (ModifiedUtf8.encode owner).length < 65536)
    (shortName : (ModifiedUtf8.encode name).length < 65536)
    (shortDescriptor : (ModifiedUtf8.encode descriptor).length < 65536) :
    Fits 6 (Pool.internMethod owner name descriptor) :=
  (fits_internClass shortOwner).bind fun _ =>
    (fits_internNameAndType shortName shortDescriptor).bind fun _ => fits_intern rfl (by simp)

end Interning

namespace Cursor

/-- The instruction that loads a constant, in the short form if its index fits in a byte. -/
def loading (index : ConstantIndex) : Instruction Jump :=
  if index < 256 then .loadConstant index.toUInt8 else .constant .ldcW index

theorem loadConstant_eq (index : ConstantIndex) : loadConstant index = push (loading index) := by
  rw [loadConstant, loading]
  split <;> rfl

/-- An instruction with an interned operand is spliced in where there is room for the constants. -/
theorem exists_run_push {body : Body} {pool : Pool} {position room : Nat} {events : Array Event}
    {interning : Interning ConstantIndex} (fits : interning.Fits room)
    (enough : pool.table.extent + room < 65536) (make : ConstantIndex → Instruction Jump)
    (inside : position ≤ body.order.size) :
    ∃ index grown, grown.table.extent ≤ pool.table.extent + room ∧
      (discard (do push (make (← onPool interning))) : AtCursor PUnit)
        ⟨⟨⟨body, pool⟩, position⟩, events⟩ =
        .ok () ⟨⟨⟨body.splice position (make index) inside, grown⟩, position + 1⟩, events⟩ := by
  obtain ⟨index, grown, interned, used⟩ := fits pool enough
  have ran : onPool interning ⟨⟨⟨body, pool⟩, position⟩, events⟩ =
      .ok index ⟨⟨⟨body, grown⟩, position⟩, events⟩ := by
    simp only [onPool, onEdit, Task.focus_eq_ok_iff, Edit.onPool_eq_ok_iff]
    exact ⟨_, ⟨grown, interned, rfl⟩, rfl⟩
  refine ⟨index, grown, used, Task.discard_eq_ok_iff.mpr ⟨body.nextHandle, ?_⟩⟩
  rw [Task.bind_of_eq_ok ran]
  exact run_push (make index) inside

end Cursor

namespace Body

/-- A splice adds one instruction to the layout. -/
theorem size_splice {body : Body} {position : Nat} {instruction : Instruction Jump}
    (inside : position ≤ body.order.size) :
    (body.splice position instruction inside).order.size = body.order.size + 1 := by
  simp [splice]

/-- The body with the instructions that print a message before all others. -/
def printing (body : Body) (field message method : ConstantIndex) : Body :=
  let first := body.splice 0 (.constant .getstatic field) (Nat.zero_le _)
  let second := first.splice 1 (Cursor.loading message) (by simp [first, size_splice])
  second.splice 2 (.constant .invokevirtual method) (by simp [first, second, size_splice])

/-- The body as tracing leaves it, with room on the stack for what it prints. -/
def traced (body : Body) (field message method : ConstantIndex) : Body :=
  { body.printing field message method with maxStack := max body.maxStack traceStack }

end Body

/-- Tracing the entry succeeds if there is room for its constants. -/
theorem Edit.exists_traceEntry {settings : TraceSettings} {message : String} {body : Body} {pool : Pool}
    {events : Array Event} (room : pool.table.extent + 14 < 65536)
    (shortClass : (ModifiedUtf8.encode settings.className).length < 65536)
    (shortField : (ModifiedUtf8.encode settings.fieldName).length < 65536)
    (shortMessage : (ModifiedUtf8.encode message).length < 65536) :
    ∃ field text method grown, traceEntry settings message ⟨⟨body, pool⟩, events⟩ =
      .ok () ⟨⟨body.traced field text method, grown⟩, events.push (.entryTraced message)⟩ := by
  -- Six indices for the field, two for the message and six for the method it is passed to.
  have fieldFits := @Interning.fits_internField settings.className settings.fieldName
    TraceSettings.fieldDescriptor shortClass shortField (by decide +kernel)
  have methodFits := @Interning.fits_internMethod "java/io/PrintStream" "println"
    "(Ljava/lang/String;)V" (by decide +kernel) (by decide +kernel) (by decide +kernel)
  obtain ⟨field, first, usedFirst, ranFirst⟩ := @Cursor.exists_run_push body pool 0 6 events _ fieldFits
    (by omega) (.constant .getstatic) (Nat.zero_le _)
  obtain ⟨text, second, usedSecond, ranSecond⟩ := @Cursor.exists_run_push
    (body.splice 0 (.constant .getstatic field) (Nat.zero_le _)) first 1 2 events _
    (Interning.fits_internString shortMessage) (by omega) Cursor.loading (by simp [Body.size_splice])
  obtain ⟨method, third, _, ranThird⟩ := @Cursor.exists_run_push
    ((body.splice 0 (.constant .getstatic field) (Nat.zero_le _)).splice 1 (Cursor.loading text)
      (by simp [Body.size_splice])) second 2 6 events _ methodFits
    (by omega) (.constant .invokevirtual) (by simp [Body.size_splice])
  refine ⟨field, text, method, third, ?_⟩
  have loads : (discard (Cursor.loadString message) : AtCursor PUnit) =
      discard (do Cursor.push (Cursor.loading (← Cursor.onPool (Pool.internString message)))) := by
    rw [Cursor.loadString]
    simp only [Cursor.loadConstant_eq]
  have spliced : Cursor.run .atStart (do
      discard (Cursor.getStatic settings.className settings.fieldName TraceSettings.fieldDescriptor)
      discard (Cursor.loadString message)
      discard (Cursor.invokeVirtual "java/io/PrintStream" "println" "(Ljava/lang/String;)V"))
      ⟨⟨body, pool⟩, events⟩ = .ok () ⟨⟨body.printing field text method, third⟩, events⟩ := by
    rw [loads]
    refine Task.bind_eq_ok_iff.mpr ⟨_, _, rfl, Task.bind_eq_ok_iff.mpr ⟨0, _, rfl, ?_⟩⟩
    refine Task.focus_eq_ok_iff.mpr ⟨⟨⟨⟨body.printing field text method, third⟩, 3⟩, events⟩, ?_, rfl⟩
    exact Task.bind_eq_ok_iff.mpr ⟨_, _, ranFirst, Task.bind_eq_ok_iff.mpr ⟨_, _, ranSecond, ranThird⟩⟩
  rw [traceEntry, Task.bind_of_eq_ok spliced]
  rfl

end Classfile
