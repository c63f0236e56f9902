import Classfile.Proofs.Injection
import Classfile.Proofs.Passes
import Classfile.Proofs.Prologue
import Classfile.Proofs.RelaxFixedPoint

/-!
What tracing makes of a class.

In each selected method three instructions that print a message go before the others, and they stay
there when the bodies are relaxed. The pool that they refer to is shared by all methods and grows as
the pass goes on, so what holds of a method is always said of the pool as it is then, and kept when
the pool is enlarged.
-/

namespace Classfile

namespace Pool

/-- The constant at the index is what was requested, and lookups lead from it to the texts. -/
structure Request.Resolves (request : Request) (pool : Pool) (index : ConstantIndex) : Prop where
  entered : request.Entered pool index
  denotes : request.Denotes pool index

/-- A request that is resolved in a pool is resolved in every enlarged one. -/
theorem Request.Resolves.enlarges {request : Request} {pool grown : Pool} {index : ConstantIndex}
    (resolves : request.Resolves pool index) (built : pool.Built) (enlarged : pool.Enlarges grown) :
    request.Resolves grown index := by
  have entered := resolves.entered.grows (enlarged.toExtends built).2
  exact ⟨entered, entered.denotes⟩

/-- A request that succeeds is resolved in the pool it leaves. -/
theorem Request.resolves_of_run (request : Request) {before after : Pool} (built : before.Built)
    {index : ConstantIndex} (ran : request.run before = .ok index after) :
    request.Resolves after index := by
  have entered := entered_of_run built ran
  exact ⟨entered, entered.denotes⟩

end Pool

/-- The indices are those of the stream, of the message and of the method that prints it. -/
structure TraceSettings.Prints (settings : TraceSettings) (message : String) (pool : Pool)
    (field text method : ConstantIndex) : Prop where
  stream : (Pool.Request.field settings.className settings.fieldName fieldDescriptor).Resolves pool field
  message : (Pool.Request.string message).Resolves pool text
  print : (Pool.Request.method "java/io/PrintStream" "println" "(Ljava/lang/String;)V").Resolves pool
    method

/-- Constants that print a message do so in every enlarged pool. -/
theorem TraceSettings.Prints.enlarges {settings : TraceSettings} {message : String}
    {pool grown : Pool} {field text method : ConstantIndex}
    (prints : settings.Prints message pool field text method) (built : pool.Built)
    (enlarged : pool.Enlarges grown) : settings.Prints message grown field text method :=
  ⟨prints.stream.enlarges built enlarged, prints.message.enlarges built enlarged,
    prints.print.enlarges built enlarged⟩

namespace Edit

/-- Tracing the entry enters the operands one after the other. -/
theorem traced_of_traceEntry {settings : TraceSettings} {message : String} {body : Body} {pool : Pool}
    {events : Array Event} {after : Logged Edit} {result : Unit} (built : pool.Built)
    (ran : traceEntry settings message ⟨⟨body, pool⟩, events⟩ = .ok result after) :
    ∃ field text method, after.state.body = body.traced field text method ∧
      pool.Enlarges after.state.pool ∧
      settings.Prints message after.state.pool field text method := by
  have pushed {interning : Interning ConstantIndex} {make : ConstantIndex → Instruction Jump}
      {body : Body} {pool : Pool} {position : Nat} {after : Logged Cursor} {result : PUnit}
      (inside : position ≤ body.order.size)
      (ran : (discard (do Cursor.push (make (← Cursor.onPool interning))) : AtCursor PUnit)
        ⟨⟨⟨body, pool⟩, position⟩, events⟩ = .ok result after) :
      ∃ index grown, interning pool = .ok index grown ∧
        after = ⟨⟨⟨body.splice position (make index) inside, grown⟩, position + 1⟩, events⟩ := by
    obtain ⟨_, ran⟩ := Task.discard_eq_ok_iff.mp ran
    obtain ⟨index, _, supplied, ran⟩ := Task.bind_eq_ok_iff.mp ran
    obtain ⟨grown, interned, rfl⟩ := Cursor.onPool_eq_ok_iff.mp supplied
    rw [Cursor.run_push _ inside] at ran
    cases ran
    exact ⟨index, grown, interned, rfl⟩
  simp only [traceEntry, Task.bind_eq_ok_iff, replace_eq_ok_iff, Except.ok.injEq,
    Task.report_eq_ok_iff] at ran
  obtain ⟨_, _, spliced, _, _, ⟨_, rfl, rfl⟩, rfl⟩ := ran
  obtain ⟨position, inner, started, spliced, rfl⟩ := Cursor.run_eq_ok_iff.mp spliced
  cases started
  obtain ⟨_, _, first, spliced⟩ := Task.bind_eq_ok_iff.mp spliced
  obtain ⟨_, _, second, third⟩ := Task.bind_eq_ok_iff.mp spliced
  obtain ⟨field, streamed, internedField, rfl⟩ := pushed (Nat.zero_le _) first
  have loads : Cursor.loadString message =
      (do Cursor.push (Cursor.loading (← Cursor.onPool (Pool.internString message)))) := by
    simp only [Cursor.loadString, Cursor.loadConstant_eq]
  rw [loads] at second
  obtain ⟨text, told, internedText, rfl⟩ := pushed (by simp [Body.size_splice]) second
  obtain ⟨method, called, internedMethod, rfl⟩ := pushed (by simp [Body.size_splice]) third
  let requestField := Pool.Request.field settings.className settings.fieldName
    TraceSettings.fieldDescriptor
  let requestMethod := Pool.Request.method "java/io/PrintStream" "println" "(Ljava/lang/String;)V"
  have grownField := requestField.enlarges.enlarged internedField
  have grownText := (Pool.Request.string message).enlarges.enlarged internedText
  have grownMethod := requestMethod.enlarges.enlarged internedMethod
  have builtField := (grownField.toExtends built).1
  have builtText := (grownText.toExtends builtField).1
  refine ⟨field, text, method, rfl, (grownField.trans grownText).trans grownMethod, ?_, ?_, ?_⟩
  · exact (requestField.resolves_of_run built internedField).enlarges builtField
      (grownText.trans grownMethod)
  · exact ((Pool.Request.string message).resolves_of_run builtField internedText).enlarges builtText
      grownMethod
  · exact requestMethod.resolves_of_run builtText internedMethod

end Edit

/-- What follows a front is filtered as the whole is. -/
theorem Layout.filter_eq_of_append {front rest items : List Handle} {wide narrow : Handle → Bool}
    (filtered : (front ++ rest).filter wide = front ++ items) (leading : ∀ handle ∈ front, wide handle)
    (within : ∀ handle, narrow handle → wide handle) (kept : ∀ handle ∈ items, narrow handle) :
    rest.filter narrow = items := by
  rw [List.filter_append, List.filter_eq_self.mpr leading, List.append_cancel_left_eq] at filtered
  rw [← List.filter_eq_self.mpr kept, ← filtered, List.filter_filter]
  refine List.filter_congr fun handle _ => ?_
  cases present : narrow handle with
  | false => rfl
  | true => rw [within handle present, Bool.and_self]

namespace Body

variable {body : Body} {block : List (Instruction Jump)}

/-- New instructions with the handles that they are given. -/
def handled (body : Body) (block : List (Instruction Jump)) : List (Handle × Instruction Jump) :=
  block.mapIdx fun index instruction => (⟨body.slots.size + index⟩, instruction)

/-- The instructions of a block get the handles that come next. -/
theorem map_handled (body : Body) (block : List (Instruction Jump)) :
    (body.handled block).map Prod.fst =
      (List.range block.length).map fun index => ⟨body.slots.size + index⟩ :=
  List.ext_getElem (by simp [handled]) (by simp [handled])

/-- An instruction of a block has the handle that belongs to its index. -/
theorem mem_handled_iff {handle : Handle} {instruction : Instruction Jump} :
    (handle, instruction) ∈ body.handled block ↔
      ∃ index, handle = ⟨body.slots.size + index⟩ ∧ block[index]? = some instruction := by
  simp only [List.mem_iff_getElem?, handled, List.getElem?_mapIdx, Option.map_eq_some_iff,
    Prod.mk.injEq]
  constructor
  · rintro ⟨index, _, located, rfl, rfl⟩
    exact ⟨index, rfl, located⟩
  · rintro ⟨index, rfl, located⟩
    exact ⟨index, _, located, rfl, rfl⟩

/-- Splicing in instructions without labels adds no references. -/
theorem mem_references_spliceAll {position : Nat} (inside : position ≤ body.order.size)
    (straight : ∀ instruction ∈ block, instruction.labels = []) {handle : Handle}
    (mentioned : handle ∈ (spliceAll block body position inside).references) :
    handle ∈ body.references := by
  induction block generalizing body position with
  | nil => exact mentioned
  | cons instruction block inductionHypothesis =>
    obtain ⟨first, others⟩ := List.forall_mem_cons.mp straight
    rcases mem_references_splice inside (inductionHypothesis _ others mentioned) with labelled | old
    · rw [first] at labelled
      cases labelled
    · exact old

/-- The order still lists all instructions after a block is spliced in. -/
theorem Listed.spliceAll (listed : body.Listed) {position : Nat} (inside : position ≤ body.order.size) :
    (spliceAll block body position inside).Listed := by
  induction block generalizing body position with
  | nil => exact listed
  | cons instruction block inductionHypothesis => exact inductionHypothesis (listed.splice inside) _

/-- A block that is inserted before all other instructions is a prologue. -/
theorem Intact.prologue_spliceAll (intact : body.Intact)
    (straight : ∀ instruction ∈ block, instruction.labels = []) :
    (spliceAll block body 0 (Nat.zero_le _)).Prologue (body.handled block) := by
  obtain ⟨⟨placed, same, slots⟩, order, -⟩ := @blockInserted_spliceAll block body 0 (Nat.zero_le _)
  refine ⟨?_, fun entry member => ?_, fun entry member mentioned => ?_⟩
  · rw [map_handled, order]
    exact List.prefix_append _ _
  · obtain ⟨index, named, located⟩ := mem_handled_iff.mp member
    rw [← same, List.getElem?_map, Option.map_eq_some_iff] at located
    obtain ⟨slot, located, instruction⟩ := located
    refine shape?_eq_some_iff.mpr ⟨slot, ?_, by rw [instruction]⟩
    rw [slot?_eq_some_iff, named, ← Array.getElem?_toList, slots,
      List.getElem?_append_right (by simp)]
    simp [located]
  · obtain ⟨index, named, -⟩ := mem_handled_iff.mp member
    have old := mem_references_spliceAll (Nat.zero_le _) straight mentioned
    have below := index_lt_of_contains (intact.live _ old)
    rw [named] at below
    exact Nat.not_lt.mpr (Nat.le_add_right _ _) below

/-- The later body starts with three new instructions that print a message. -/
structure Announced (before : Body) (field text method : ConstantIndex) (after : Body) : Prop where
  stream : after.get ⟨before.slots.size⟩ = .ok (.constant .getstatic field)
  message : after.get ⟨before.slots.size + 1⟩ = .ok (Cursor.loading text)
  print : after.get ⟨before.slots.size + 2⟩ = .ok (.constant .invokevirtual method)
  /-- The three come first, and the old instructions, between which there may be new `goto_w`
  instructions, follow them in their order. -/
  order : ∃ rest, after.order.toList = ⟨before.slots.size⟩ :: ⟨before.slots.size + 1⟩ ::
      ⟨before.slots.size + 2⟩ :: rest ∧ rest.filter before.contains = before.order.toList ∧
    ∀ handle ∈ rest, before.contains handle = false →
      ∃ jump, after.get handle = .ok (.wideBranch .gotoW jump)
  /-- All but the branches are the instructions that they were. -/
  kept : ∀ handle shape, before.shape? handle = some shape →
    (∀ opcode target, shape ≠ .branch opcode target) → after.shape? handle = some shape
  branches : ∀ handle opcode target, before.shape? handle = some (.branch opcode target) →
    ∃ other current, after.shape? handle = some (.branch other current) ∨
      after.shape? handle = some (.wideBranch other current)
  /-- No label, range, table or frame refers to any of the three. -/
  unreferenced : ∀ index < 3, ⟨before.slots.size + index⟩ ∉ after.references
  /-- The stack has room for what is printed, and the ranges are the old ones. -/
  fixed : after.fixed = { before with maxStack := max before.maxStack traceStack }.fixed

/-- An instruction without labels is known from its shape. -/
theorem get_of_shape? {handle : Handle} {instruction : Instruction Jump}
    (straight : instruction.labels = []) (shaped : body.shape? handle = some instruction.shape) :
    body.get handle = .ok instruction := by
  obtain ⟨slot, found, same⟩ := shape?_eq_some_iff.mp shaped
  exact get_eq_ok_iff.mpr ⟨slot, found, Instruction.eq_of_shape_eq straight same⟩

theorem labels_loading (index : ConstantIndex) : (Cursor.loading index).labels = [] := by
  rw [Cursor.loading]
  split <;> rfl

theorem isTransfer_loading (index : ConstantIndex) : (Cursor.loading index).isTransfer = false := by
  rw [Cursor.loading]
  split <;> rfl

/-- The instructions that print a message. -/
def printed (field text method : ConstantIndex) : List (Instruction Jump) :=
  [.constant .getstatic field, Cursor.loading text, .constant .invokevirtual method]

section Traced

variable {field text method : ConstantIndex} {after : Body}

/-- The instructions that print a message have no labels. -/
theorem straight_printed : ∀ instruction ∈ printed field text method, instruction.labels = [] := by
  intro instruction present
  simp only [printed, List.mem_cons, List.not_mem_nil, or_false] at present
  rcases present with rfl | rfl | rfl
  · rfl
  · exact labels_loading text
  · rfl

/-- The instructions that print a message have no labels under their handles either. -/
theorem straight_handled (body : Body) (field text method : ConstantIndex) :
    Straight (body.handled (printed field text method)) := by
  intro entry member
  obtain ⟨index, -, located⟩ := mem_handled_iff.mp member
  have present := List.mem_of_getElem? located
  refine ⟨?_, straight_printed _ present⟩
  simp only [printed, List.mem_cons, List.not_mem_nil, or_false] at present
  rcases present with same | same | same
  · rw [same]
    rfl
  · rw [same, isTransfer_loading]
  · rw [same]
    rfl

/-- The new instructions of a traced body come before the old ones. -/
theorem order_traced (body : Body) (field text method : ConstantIndex) :
    (body.traced field text method).order.toList =
      (body.handled (printed field text method)).map Prod.fst ++ body.order.toList := by
  have inserted := @blockInserted_spliceAll (printed field text method) body 0 (Nat.zero_le _)
  rw [map_handled]
  exact inserted.order

/-- Tracing keeps the shapes of the instructions that were there. -/
theorem shape?_traced {handle : Handle} {shape : Instruction Handle}
    (shaped : body.shape? handle = some shape) :
    (body.traced field text method).shape? handle = some shape := by
  have inserted := @blockInserted_spliceAll (printed field text method) body 0 (Nat.zero_le _)
  obtain ⟨slot, found, same⟩ := shape?_eq_some_iff.mp shaped
  obtain ⟨other, foundAfter, unchanged⟩ := get_eq_ok_iff.mp
    (inserted.retained handle slot.instruction (get_eq_ok_iff.mpr ⟨slot, found, rfl⟩))
  exact shape?_eq_some_iff.mpr ⟨other, foundAfter, by rw [unchanged, same]⟩

/-- A traced body that was only lengthened since announces its message. -/
theorem Intact.announced (intact : body.Intact) (listed : (body.traced field text method).Listed)
    (lengthened : (body.traced field text method).Lengthened after)
    (fixed : after.fixed = (body.traced field text method).fixed)
    (prologue : after.Prologue (body.handled (printed field text method))) :
    body.Announced field text method after := by
  have found (index : Nat) (instruction : Instruction Jump)
      (located : (printed field text method)[index]? = some instruction) :
      after.get ⟨body.slots.size + index⟩ = .ok instruction :=
    get_of_shape? (straight_printed _ (List.mem_of_getElem? located))
      (prologue.shaped _ (mem_handled_iff.mpr ⟨index, rfl, located⟩))
  let front := (body.handled (printed field text method)).map Prod.fst
  have contained (handle : Handle) : (body.traced field text method).contains handle = true ↔
      handle ∈ front ∨ body.contains handle = true := by
    rw [← listed.live, order_traced, List.mem_append, intact.listed.live]
  obtain ⟨rest, order⟩ := prologue.leads
  refine ⟨found 0 _ rfl, found 1 _ rfl, found 2 _ rfl, ⟨rest, order.symm, ?_, ?_⟩, ?_, ?_, ?_, ?_⟩
  · have kept := lengthened.order
    rw [← order, order_traced] at kept
    exact Layout.filter_eq_of_append kept (fun handle member => (contained handle).mpr (.inl member))
      (fun handle present => (contained handle).mpr (.inr present))
      fun handle => (intact.listed.live handle).mp
  · intro handle member absent
    have distinct := lengthened.listed.distinct
    rw [← order] at distinct
    have apart : handle ∉ front := fun leading => List.disjoint_of_nodup_append distinct leading member
    have present : after.contains handle = true := by
      rw [← lengthened.listed.live, ← order]
      exact List.mem_append_right _ member
    obtain ⟨target, shaped⟩ := lengthened.inserted handle present <| by
      rw [← Bool.not_eq_true, contained, absent]
      simp [apart]
    obtain ⟨slot, located, same⟩ := shape?_eq_some_iff.mp shaped
    obtain ⟨jump, wide, -⟩ := Instruction.eq_wideBranch_of_shape same
    exact ⟨jump, get_eq_ok_iff.mpr ⟨slot, located, wide⟩⟩
  · intro handle shape shaped plain
    exact lengthened.kept handle shape (shape?_traced shaped) plain
  · intro handle opcode target shaped
    exact lengthened.branches handle opcode target (shape?_traced shaped)
  · intro index inside
    exact prologue.unreferenced _
      (mem_handled_iff.mpr ⟨index, rfl, List.getElem?_eq_getElem (by exact inside)⟩)
  · exact fixed

/-- Relaxing the body gives the other one, in a pool that lies between two pools. -/
def RelaxesTo (first last : Pool) (body final : Body) : Prop :=
  ∃ pool events after, first.Enlarges pool ∧ Edit.relax ⟨⟨body, pool⟩, events⟩ = .ok () after ∧
    after.state.body = final ∧ after.state.pool.Enlarges last

/-- What a body relaxes to between two pools, it relaxes to between pools further apart. -/
theorem RelaxesTo.enlarges {first start last final : Pool} {result : Body}
    (relaxes : body.RelaxesTo start last result) (earlier : first.Enlarges start)
    (later : last.Enlarges final) : body.RelaxesTo first final result := by
  obtain ⟨pool, events, after, below, ran, same, above⟩ := relaxes
  exact ⟨pool, events, after, earlier.trans below, ran, same, above.trans later⟩

/-- However long it becomes, a traced body starts with what was inserted. -/
theorem Intact.announced_of_relaxesTo (intact : body.Intact) {first last : Pool}
    (relaxes : (body.traced field text method).RelaxesTo first last after) :
    body.Announced field text method after := by
  obtain ⟨pool, events, final, -, ran, rfl, -⟩ := relaxes
  have spliced := @Listed.spliceAll _ (printed field text method) intact.listed 0 (Nat.zero_le _)
  have listed : (body.traced field text method).Listed := ⟨spliced.distinct, spliced.live⟩
  have started := @Intact.prologue_spliceAll _ (printed field text method) intact straight_printed
  have prologue : (body.traced field text method).Prologue
      (body.handled (printed field text method)) :=
    ⟨started.leads, started.shaped, started.unreferenced⟩
  obtain ⟨lengthened, fixed, kept⟩ := Edit.prefaced_of_relax listed
    (straight_handled body field text method) prologue ran
  exact intact.announced listed lengthened fixed kept

end Traced

end Body

namespace Class

variable {change : Pool → Pool → Method → Method → Prop} {items : List Nat} {index : Nat}
  {before middle after : Class}

/-- The methods with these indices have changed, in pools between those of the two classes, and all
else is as it was. -/
structure Changed (change : Pool → Pool → Method → Method → Prop) (items : List Nat)
    (before after : Class) : Prop where
  enlarged : before.pool.Enlarges after.pool
  rest : after = { before with pool := after.pool, methods := after.methods }
  size : after.methods.size = before.methods.size
  changed : ∀ index ∈ items, ∀ method, before.methods[index]? = some method →
    ∃ result, after.methods[index]? = some result ∧ change before.pool after.pool method result
  kept : ∀ index, index ∉ items → after.methods[index]? = before.methods[index]?

/-- What holds between two pools holds between pools that are further apart. -/
def Widens (change : Pool → Pool → Method → Method → Prop) : Prop :=
  ∀ ⦃first start last final method result⦄, last.Built → Pool.Enlarges first start →
    last.Enlarges final → change start last method result → change first final method result

/-- A class in which one method changed to itself has changed at that method. -/
theorem Changed.refl (classFile : Class)
    (same : ∀ method, classFile.methods[index]? = some method →
      change classFile.pool classFile.pool method method) :
    Changed change [index] classFile classFile := by
  refine ⟨.refl _, rfl, rfl, fun other member method located => ?_, fun _ _ => rfl⟩
  obtain rfl := List.mem_singleton.mp member
  exact ⟨method, located, same method located⟩

/-- Methods that change one after the other have all changed. -/
theorem Changed.cons (built : before.pool.Built) (widens : Widens change)
    (first : Changed change [index] before middle) (fresh : index ∉ items)
    (others : Changed change items middle after) : Changed change (index :: items) before after := by
  refine ⟨first.enlarged.trans others.enlarged, ?_, others.size.trans first.size, ?_, ?_⟩
  · rw [others.rest, first.rest]
  · intro other member method located
    rcases List.mem_cons.mp member with rfl | later
    · obtain ⟨result, found, changed⟩ := first.changed other List.mem_cons_self method located
      refine ⟨result, by rw [others.kept other fresh, found], ?_⟩
      exact widens (first.enlarged.toExtends built).1 (.refl _) others.enlarged changed
    · have different : other ∉ [index] := by
        rintro same
        exact fresh (List.mem_singleton.mp same ▸ later)
      rw [← first.kept other different] at located
      obtain ⟨result, found, changed⟩ := others.changed other later method located
      have last := ((first.enlarged.trans others.enlarged).toExtends built).1
      exact ⟨result, found, widens last first.enlarged (.refl _) changed⟩
  · intro other absent
    rw [List.mem_cons, not_or] at absent
    rw [others.kept other absent.2, first.kept other (by simpa using absent.1)]

/-- Setting the body of a method changes that method. -/
theorem changed_setCode {classFile : Class} {method : Method} {edit : Edit}
    (located : classFile.methods[index]? = some method)
    (enlarged : classFile.pool.Enlarges edit.pool)
    (changed : change classFile.pool edit.pool method (method.setCode edit.body)) :
    Changed change [index] classFile (classFile.setCode index edit) := by
  refine ⟨enlarged, rfl, Array.size_modify .., fun other member found stored => ?_, fun other absent => ?_⟩
  · obtain rfl := List.mem_singleton.mp member
    rw [located, Option.some.injEq] at stored
    refine ⟨_, ?_, stored ▸ changed⟩
    rw [getElem?_setCode, if_pos rfl, located, stored]
    rfl
  · rw [getElem?_setCode, if_neg fun same => absent (by simp [same])]

end Class

/-- Relaxing changes nothing in a method but its code. -/
inductive Method.Relaxed (first last : Pool) (method : Method) : Method → Prop
  | uncoded (unknown : method.code? = none) : Method.Relaxed first last method method
  | coded {body final : Body} (known : method.code? = some body)
      (relaxes : body.RelaxesTo first last final) :
      Method.Relaxed first last method (method.setCode final)

namespace Class

/-- What relaxation makes of a method holds for pools further apart. -/
theorem widens_relaxed : Widens Method.Relaxed := by
  intro first start last final method result _ earlier later relaxed
  cases relaxed with
  | uncoded unknown => exact .uncoded unknown
  | coded known relaxes => exact .coded known (relaxes.enlarges earlier later)

/-- Relaxing the body of a method changes that method. -/
theorem changed_of_relax {before after : Logged Class} {result : Option Unit}
    (ran : onCode index Edit.relaxReporting before = .ok result after) :
    Changed Method.Relaxed [index] before.state after.state := by
  rcases onCode_eq_ok_iff.mp ran with ⟨missing, _, rfl⟩ | ⟨body, _, inner, known, relaxed, _, rfl⟩
  · refine .refl _ fun method located => .uncoded ?_
    rwa [code?, located, Option.bind_some] at missing
  · obtain ⟨method, located, code⟩ := Option.bind_eq_some_iff.mp known
    obtain ⟨last, ranRelax, same⟩ := Edit.relax_of_relaxReporting relaxed
    have enlarged := Edit.appends_relax.enlarged ranRelax
    rw [same]
    refine changed_setCode located enlarged (.coded code ?_)
    exact ⟨_, _, last, .refl _, ranRelax, rfl, .refl _⟩

/-- Relaxing the bodies of some methods changes those methods. -/
theorem changed_of_forM {before after : Logged Class} (built : before.state.pool.Built)
    (distinct : items.Nodup)
    (ran : (items.forM fun index => discard (onCode index Edit.relaxReporting)) before = .ok () after) :
    Changed Method.Relaxed items before.state after.state := by
  induction items generalizing before with
  | nil =>
    cases ran
    exact ⟨.refl _, rfl, rfl, by simp, fun _ _ => rfl⟩
  | cons index items inductionHypothesis =>
    obtain ⟨fresh, distinctRest⟩ := List.nodup_cons.mp distinct
    obtain ⟨middle, ranFirst, ranRest⟩ := Task.forM_cons_eq_ok_iff.mp ran
    obtain ⟨_, relaxed⟩ := Task.discard_eq_ok_iff.mp ranFirst
    have first := changed_of_relax relaxed
    have others := inductionHypothesis (first.enlarged.toExtends built).1 distinctRest ranRest
    exact first.cons built widens_relaxed fresh others

/-- Relaxing all bodies changes every method. -/
theorem changed_of_relaxAll {before after : Logged Class} (built : before.state.pool.Built)
    (ran : relaxAll before = .ok () after) :
    Changed Method.Relaxed (List.range before.state.methods.size) before.state after.state := by
  simp only [relaxAll, Task.bind_eq_ok_iff, Task.read_eq_ok_iff] at ran
  obtain ⟨_, _, ⟨rfl, rfl⟩, ran⟩ := ran
  exact changed_of_forM built List.nodup_range ran

end Class

/-- Whether a method is traced: it has code, and its name is selected. -/
def TraceSettings.traces (settings : TraceSettings) (pool : Pool) (method : Method) : Bool :=
  match method.name pool with
  | .ok name => settings.selects name && method.code?.isSome
  | .error _ => false

/-- A method is traced if its name is selected and it has a body. -/
theorem TraceSettings.traces_eq {settings : TraceSettings} {pool : Pool} {method : Method}
    {name : String} (named : method.name pool = .ok name) :
    settings.traces pool method = (settings.selects name && method.code?.isSome) := by
  rw [traces, named]

/-- Before the code of a method is relaxed, a message may have been put in front of it. -/
inductive Method.Entered (settings : TraceSettings) (className : String) (first last : Pool)
    (method : Method) : Method → Prop
  | passed {name : String} (named : method.name last = .ok name)
      (untraced : settings.traces last method = false) :
      Method.Entered settings className first last method method
  | traced {name descriptor : String} {body : Body} {field text print : ConstantIndex}
      (named : method.name last = .ok name) (described : method.descriptor last = .ok descriptor)
      (known : method.code? = some body) (traced : settings.traces last method = true)
      (prints : settings.Prints (className ++ "." ++ name ++ descriptor) last field text print) :
      Method.Entered settings className first last method
        (method.setCode (body.traced field text print))

/-- Whether a method is traced stays the same in larger pools. -/
theorem Method.Entered.traces_eq {settings : TraceSettings} {className : String}
    {first last final : Pool} {method result : Method}
    (entered : method.Entered settings className first last result) (built : last.Built)
    (later : last.Enlarges final) : settings.traces final method = settings.traces last method := by
  have kept {name : String} (named : method.name last = .ok name) :
      settings.traces final method = settings.traces last method := by
    have extended : method.name final = .ok name := later.toExtends.text built named
    rw [TraceSettings.traces_eq extended, TraceSettings.traces_eq named]
  cases entered with
  | passed named untraced => exact kept named
  | traced named described known traced prints => exact kept named

namespace Class

variable {settings : TraceSettings} {className : String}

theorem widens_entered : Widens (Method.Entered settings className) := by
  intro first start last final method result built _ later entered
  have extended := later.toExtends
  have same := entered.traces_eq built later
  cases entered with
  | passed named untraced => exact .passed (extended.text built named) (same.trans untraced)
  | traced named described known traced prints =>
    exact .traced (extended.text built named) (extended.text built described) known
      (same.trans traced) (prints.enlarges built later)

/-- Tracing the entry of a method changes that method, and it counts as traced. -/
theorem changed_of_traceEntry {classFile : Class} {method : Method} {name descriptor : String}
    {body : Body} {events : Array Event} {after : Logged Edit} (built : classFile.pool.Built)
    (located : classFile.methods[index]? = some method)
    (named : method.name classFile.pool = .ok name) (selected : settings.selects name = true)
    (described : method.descriptor classFile.pool = .ok descriptor) (known : method.code? = some body)
    (ran : Edit.traceEntry settings (className ++ "." ++ name ++ descriptor)
      ⟨⟨body, classFile.pool⟩, events⟩ = .ok () after) :
    Changed (Method.Entered settings className) [index] classFile
        (classFile.setCode index after.state) ∧
      settings.traces after.state.pool method = true := by
  obtain ⟨field, text, print, result, enlarged, prints⟩ := Edit.traced_of_traceEntry built ran
  have extended := enlarged.toExtends
  have kept := extended.text built named
  have traced : settings.traces after.state.pool method = true := by
    rw [TraceSettings.traces_eq kept, selected, known, Option.isSome_some, Bool.and_self]
  refine ⟨changed_setCode located enlarged ?_, traced⟩
  rw [result]
  exact .traced kept (extended.text built described) known traced prints

/-- What is answered for a method is whether it is traced. -/
theorem TraceStep.changed {chosen : Bool} (built : before.pool.Built)
    (step : TraceStep settings className index before chosen after) :
    Changed (Method.Entered settings className) [index] before after ∧
      chosen = before.methods[index]?.any (settings.traces after.pool) := by
  cases step with
  | absent missing =>
    refine ⟨.refl _ fun method found => ?_, by rw [missing, Option.any_none]⟩
    rw [missing] at found
    cases found
  | passed located named untraced =>
    rw [← TraceSettings.traces_eq named] at untraced
    refine ⟨.refl _ fun method found => ?_, by rw [located, Option.any_some, untraced]⟩
    rw [located, Option.some.injEq] at found
    exact found ▸ .passed named untraced
  | entered located named selected described known ran =>
    obtain ⟨changed, chosen⟩ :=
      changed_of_traceEntry built located named selected described known ran
    exact ⟨changed, by rw [located, Option.any_some]; exact chosen.symm⟩

/-- The methods are traced one after the other, and the traced ones are collected. -/
theorem changed_of_filterAuxM {chosen traced : List Nat} {before after : Logged Class}
    (built : before.state.pool.Built) (distinct : items.Nodup)
    (ran : items.filterAuxM (traceMethod settings className) chosen before = .ok traced after) :
    Changed (Method.Entered settings className) items before.state after.state ∧
      traced.length = chosen.length + items.countP fun index =>
        before.state.methods[index]?.any (settings.traces after.state.pool) := by
  induction items generalizing chosen before with
  | nil =>
    obtain ⟨rfl, rfl⟩ := Task.pure_eq_ok_iff.mp ran
    exact ⟨⟨.refl _, rfl, rfl, by simp, fun _ _ => rfl⟩, rfl⟩
  | cons index items inductionHypothesis =>
    obtain ⟨fresh, distinctRest⟩ := List.nodup_cons.mp distinct
    obtain ⟨answer, middle, ranFirst, ranRest⟩ := Task.bind_eq_ok_iff.mp ran
    obtain ⟨first, answered⟩ := (traceStep_of_traceMethod ranFirst).changed built
    have grown := (first.enlarged.toExtends built).1
    obtain ⟨others, counted⟩ := inductionHypothesis grown distinctRest ranRest
    refine ⟨first.cons built widens_entered fresh others, ?_⟩
    have unchanged : (items.countP fun other =>
          middle.state.methods[other]?.any (settings.traces after.state.pool)) =
        items.countP fun other =>
          before.state.methods[other]?.any (settings.traces after.state.pool) := by
      refine List.countP_congr fun other member => ?_
      rw [first.kept other fun same => fresh (List.mem_singleton.mp same ▸ member)]
    have settled : answer =
        before.state.methods[index]?.any (settings.traces after.state.pool) := by
      rw [answered]
      cases located : before.state.methods[index]? with
      | none => rfl
      | some method =>
        obtain ⟨_, -, entered⟩ := first.changed index List.mem_cons_self method located
        exact (entered.traces_eq grown others.enlarged).symm
    rw [counted, unchanged, List.countP_cons, ← settled]
    cases answer with
    | false => rfl
    | true =>
      simp only [cond_true, List.length_cons, if_true]
      omega

end Class

/-- What tracing a class makes of a method. -/
inductive Method.Traced (settings : TraceSettings) (className : String) (first last : Pool)
    (method : Method) : Method → Prop
  | uncoded (unknown : method.code? = none) :
      Method.Traced settings className first last method method
  | relaxed {body final : Body} (known : method.code? = some body)
      (untraced : settings.traces last method = false) (relaxes : body.RelaxesTo first last final) :
      Method.Traced settings className first last method (method.setCode final)
  | announced {name descriptor : String} {body final : Body} {field text print : ConstantIndex}
      (known : method.code? = some body) (traced : settings.traces last method = true)
      (named : method.name last = .ok name) (described : method.descriptor last = .ok descriptor)
      (prints : settings.Prints (className ++ "." ++ name ++ descriptor) last field text print)
      (announced : body.Announced field text print final)
      (relaxes : (body.traced field text print).RelaxesTo first last final) :
      Method.Traced settings className first last method (method.setCode final)

/-- Of two bodies that a method is given, it keeps the second. -/
theorem Method.setCode_setCode (method : Method) (first second : Body) :
    (method.setCode first).setCode second = method.setCode second := by
  have replaced (attributes : List MethodAttribute) :
      replaceCode second (replaceCode first attributes) = replaceCode second attributes := by
    induction attributes with
    | nil => rfl
    | cons entry attributes inductionHypothesis =>
      cases entry with
      | code old => rfl
      | other raw => simp only [replaceCode, inductionHypothesis]
  simp only [setCode, replaced]

/-- A method that is traced, if it is selected, and then relaxed. -/
theorem Method.Entered.relaxed {settings : TraceSettings} {className : String}
    {first middle last : Pool} {method between final : Method}
    (intact : ∀ body, method.code? = some body → body.Intact) (built : first.Built)
    (earlier : first.Enlarges middle) (later : middle.Enlarges last)
    (entered : method.Entered settings className first middle between)
    (relaxed : between.Relaxed middle last final) :
    method.Traced settings className first last final := by
  have builtMiddle := (earlier.toExtends built).1
  have same := entered.traces_eq builtMiddle later
  cases entered with
  | passed named untraced =>
    cases relaxed with
    | uncoded unknown => exact .uncoded unknown
    | coded known relaxes =>
      exact .relaxed known (same.trans untraced) (relaxes.enlarges earlier (.refl _))
  | @traced name descriptor body field text print named described known traced prints =>
    have coded := Method.code?_setCode known (body.traced field text print)
    cases relaxed with
    | uncoded unknown =>
      rw [coded] at unknown
      cases unknown
    | coded knownBetween relaxes =>
      rw [coded, Option.some.injEq] at knownBetween
      subst knownBetween
      rw [Method.setCode_setCode]
      have extended := later.toExtends
      exact .announced known (same.trans traced) (extended.text builtMiddle named)
        (extended.text builtMiddle described) (prints.enlarges builtMiddle later)
        ((intact body known).announced_of_relaxesTo relaxes)
        (relaxes.enlarges earlier (.refl _))

namespace Class

/-- What tracing makes of a class. -/
structure TracedTo (settings : TraceSettings) (className : String) (before after : Class) : Prop where
  /-- New constants follow the old ones. -/
  entries : before.pool.table.entries.toList <+: after.pool.table.entries.toList
  constants : ∀ index constant, before.pool.get index = .ok constant →
    after.pool.get index = .ok constant
  rest : after = { before with pool := after.pool, methods := after.methods }
  size : after.methods.size = before.methods.size
  methods : ∀ (index : Nat) (method : Method), before.methods[index]? = some method →
    ∃ result, after.methods[index]? = some result ∧
      method.Traced settings className before.pool after.pool result

/-- Tracing puts instructions that print a message before the code of each method that has code and
whose name is selected, it relaxes all code, and it changes nothing else. The message and what it is
passed to can be looked up in the pool of the class that results. -/
theorem traced_of_traceEntries {settings : TraceSettings} {classFile : Class} {events : Array Event}
    {count : Nat} {after : Logged Class} (built : classFile.pool.Built)
    (intact : ∀ index body, classFile.code? index = some body → body.Intact)
    (ran : traceEntries settings ⟨classFile, events⟩ = .ok count after) :
    ∃ className, classFile.name = .ok className ∧ classFile.TracedTo settings className after.state ∧
      count = classFile.methods.toList.countP (settings.traces after.state.pool) := by
  obtain ⟨className, traced, _, events, named, filtered, relaxing, rfl⟩ := passes_of_traceEntries ran
  obtain ⟨chosen, middle, gathered, answered⟩ := Task.bind_eq_ok_iff.mp filtered
  obtain ⟨rfl, rfl⟩ := Task.pure_eq_ok_iff.mp answered
  obtain ⟨entered, counted⟩ := @changed_of_filterAuxM _ _ _ _ _ ⟨classFile, _⟩ middle built
    List.nodup_range gathered
  have relaxed := @changed_of_relaxAll ⟨middle.state, events⟩ after
    (entered.enlarged.toExtends built).1 relaxing
  have enlarged := entered.enlarged.trans relaxed.enlarged
  refine ⟨className, named, ⟨enlarged.entries, (enlarged.toExtends built).2, ?_, ?_, ?_⟩, ?_⟩
  · rw [relaxed.rest, entered.rest]
  · rw [relaxed.size, entered.size]
  · intro index method located
    have inside : index ∈ List.range classFile.methods.size :=
      List.mem_range.mpr (Array.getElem?_eq_some_iff.mp located).1
    obtain ⟨between, found, put⟩ := entered.changed index inside method located
    obtain ⟨result, foundResult, changed⟩ :=
      relaxed.changed index (by rwa [entered.size]) between found
    refine ⟨result, foundResult, put.relaxed ?_ built entered.enlarged relaxed.enlarged changed⟩
    intro body known
    exact intact index body (by rw [code?, located, Option.bind_some, known])
  · rw [List.length_reverse, counted, List.length_nil, Nat.zero_add]
    have indexed : classFile.methods.toList =
        (List.range classFile.methods.size).filterMap (classFile.methods[·]?) := by
      simpa using (Body.filterMap_range_getElem? classFile.methods.toList).symm
    rw [indexed, List.countP_filterMap]
    refine List.countP_congr fun index inside => ?_
    cases located : classFile.methods[index]? with
    | none => rfl
    | some method =>
      obtain ⟨_, -, put⟩ := entered.changed index inside method located
      simp only [Option.any_some, Option.map_some, Option.getD_some]
      rw [put.traces_eq (entered.enlarged.toExtends built).1 relaxed.enlarged]

theorem traced_of_traceEntries_bareReturn : ∃ classFile after traced,
    Class.read ⟨bareReturn, #[]⟩ = .ok classFile after ∧
      traceEntries {} ⟨classFile, #[]⟩ = .ok 1 traced ∧ classFile.name = .ok "A" ∧
      classFile.TracedTo {} "A" traced.state ∧
      1 = classFile.methods.toList.countP (TraceSettings.traces {} traced.state.pool) := by
  obtain ⟨classFile, after, method, ran, methods, attributes, extent, className, name, descriptor⟩ :=
    read_bareReturn
  have holding : Holding Body.bareReturn classFile := ⟨method, methods, attributes⟩
  obtain ⟨field, text, invoked, grown, entered⟩ := @Edit.exists_traceEntry {} "A.m()V" Body.bareReturn
    classFile.pool #[] (by omega) (by decide +kernel) (by decide +kernel) (by decide +kernel)
  obtain ⟨placed, synced, reached, short, -⟩ :=
    Body.exists_sync_traced_bareReturn field text invoked #[.entryTraced "A.m()V"]
  obtain ⟨final, relaxed⟩ := Edit.relaxReporting_of_settled grown synced reached
    (le_trans short (by decide))
  have known : classFile.methods[0]? = some method := by rw [methods]; rfl
  obtain ⟨traced, tracing, -⟩ :=
    holding.traceEntries known className name rfl descriptor entered relaxed
  have intact (index : Nat) (body : Body) (known : classFile.code? index = some body) : body.Intact := by
    obtain ⟨_, _, _, _, formed⟩ := fresh_of_read ran index body known
    exact formed.intact
  obtain ⟨owner, named, changed, counted⟩ :=
    traced_of_traceEntries (parts_of_read ran).1.built intact tracing
  rw [className, Except.ok.injEq] at named
  exact ⟨classFile, after, traced, ran, tracing, className, named ▸ changed, counted⟩

end Class

end Classfile
