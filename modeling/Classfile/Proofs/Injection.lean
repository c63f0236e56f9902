import Classfile.Proofs.EntryTracing
import Classfile.Proofs.NamedConstants
import Classfile.Proofs.Removal

/-!
Injection: what calls at a cursor insert, and that they insert it again.

A call interns its constants, reads what it needs, and then inserts a block of instructions. All that it
reads stays: an instruction keeps its handle and a constant its first index. `replays_of_run` says so of
any sequence of calls, which inserts an equal block wherever it is run a second time.
-/

namespace Classfile

/-- Two computations one after the other make one task or two. -/
theorem Task.ofExcept_bind {S A B : Type} (first : Except Error A) (next : A → Except Error B) :
    (Task.ofExcept (first >>= next) : Task S B) =
      Task.ofExcept first >>= fun value => Task.ofExcept (next value) := by
  cases first <;> rfl

namespace Pool

/-- Whatever a constant is looked up for, it is found in an extended pool. -/
theorem Extends.choose {before after : Pool} (grown : before.Extends after) (built : before.Built)
    {A : Type} {index : ConstantIndex} {value : A} {choose : Constant → Except Error A}
    (found : (do choose (← before.get index)) = .ok value) :
    (do choose (← after.get index)) = .ok value := by
  rw [exceptBind_eq_ok_iff] at found ⊢
  obtain ⟨constant, found, chosen⟩ := found
  exact ⟨constant, (grown built).2 index constant found, chosen⟩

/-- A member is found in every pool that extends the one it was found in. -/
theorem Extends.member {before after : Pool} (grown : before.Extends after) (built : before.Built)
    {index : ConstantIndex} {parts : ConstantIndex × ConstantIndex}
    (found : before.member index = .ok parts) : after.member index = .ok parts :=
  grown.choose built found

theorem Extends.nameAndType {before after : Pool} (grown : before.Extends after)
    (built : before.Built) {index : ConstantIndex} {parts : ConstantIndex × ConstantIndex}
    (found : before.nameAndType index = .ok parts) : after.nameAndType index = .ok parts :=
  grown.choose built found

/-- A pool that was enlarged remembers what it held. -/
theorem Enlarges.remembers {before after : Pool} (enlarges : before.Enlarges after) :
    before.Remembers after := by
  induction enlarges with
  | refl => exact Remembers.refl _
  | push _ _ pushed inductionHypothesis =>
    obtain ⟨-, rfl⟩ := push_eq_ok_iff.mp pushed
    exact inductionHypothesis.trans remembers_append

/-- A request that succeeded gives the same answer again and adds nothing. -/
theorem Request.repeats (request : Request) : Interning.Repeats request.run := by
  have named (name descriptor : String) : Interning.Repeats (internNameAndType name descriptor) :=
    (Interning.repeats_intern _).bind fun _ => (Interning.repeats_intern _).bind fun _ =>
      Interning.repeats_intern _
  cases request with
  | entry constant => exact Interning.repeats_intern constant
  | text contents => exact Interning.repeats_intern _
  | className name => exact Interning.repeats_internClass name
  | string contents => exact (Interning.repeats_intern _).bind fun _ => Interning.repeats_intern _
  | nameAndType name descriptor => exact named name descriptor
  | field owner name descriptor =>
    exact (Interning.repeats_internClass owner).bind fun _ => (named name descriptor).bind fun _ =>
      Interning.repeats_intern _
  | method owner name descriptor =>
    exact (Interning.repeats_internClass owner).bind fun _ => (named name descriptor).bind fun _ =>
      Interning.repeats_intern _

end Pool

namespace Layout

/-- Insertion splits a list at a position. -/
theorem insertIdx_eq_append {items : List Handle} {position : Nat} (within : position ≤ items.length)
    (item : Handle) : items.insertIdx position item = items.take position ++ item :: items.drop position := by
  induction items generalizing position with
  | nil =>
    obtain rfl := Nat.le_zero.mp within
    rfl
  | cons head items inductionHypothesis =>
    cases position with
    | zero => rfl
    | succ position => simp [inductionHypothesis (Nat.le_of_succ_le_succ within)]

end Layout

namespace Body

/-- Each instruction is spliced in right after the one before it. -/
def spliceAll : (block : List (Instruction Jump)) → (body : Body) → (position : Nat) →
    (inside : position ≤ body.order.size) → Body
  | [], body, _, _ => body
  | instruction :: block, body, position, inside =>
    spliceAll block (body.splice position instruction inside) (position + 1)
      (by rw [size_splice]; omega)

/-- The later body is the earlier one with a block of new instructions at an index of the layout. -/
structure BlockInserted (before : Body) (position : Nat) (block : List (Instruction Jump))
    (after : Body) : Prop where
  /-- Old instructions stay as they are, and new ones follow them. -/
  slots : ∃ placed : List Slot, placed.map Slot.instruction = block ∧
    after.slots.toList = before.slots.toList ++ placed.map some
  /-- The new instructions are next to each other, and the old ones keep their order. -/
  order : after.order.toList = before.order.toList.take position ++
    (List.range block.length).map (fun index => ⟨before.slots.size + index⟩) ++
      before.order.toList.drop position
  rest : after = { before with slots := after.slots, order := after.order }

/-- A block adds as many instructions to the layout as it has. -/
theorem size_spliceAll {block : List (Instruction Jump)} {body : Body} {position : Nat}
    (inside : position ≤ body.order.size) :
    (spliceAll block body position inside).order.size = body.order.size + block.length := by
  induction block generalizing body position with
  | nil => rfl
  | cons instruction block inductionHypothesis =>
    rw [spliceAll, inductionHypothesis, size_splice, List.length_cons]
    omega

/-- Two blocks are spliced in one after the other. -/
theorem spliceAll_append {first second : List (Instruction Jump)} {body : Body} {position : Nat}
    (inside : position ≤ body.order.size) :
    spliceAll (first ++ second) body position inside =
      spliceAll second (spliceAll first body position inside) (position + first.length)
        (by rw [size_spliceAll]; omega) := by
  induction first generalizing body position with
  | nil => rfl
  | cons instruction first inductionHypothesis =>
    simp only [List.cons_append, spliceAll, inductionHypothesis, List.length_cons, Nat.add_assoc,
      Nat.add_comm 1]

/-- Splicing in a block inserts it at the position. -/
theorem blockInserted_spliceAll {block : List (Instruction Jump)} {body : Body} {position : Nat}
    (inside : position ≤ body.order.size) :
    body.BlockInserted position block (spliceAll block body position inside) := by
  induction block generalizing body position with
  | nil =>
    rw [spliceAll]
    exact ⟨⟨[], rfl, by simp⟩, by simp, rfl⟩
  | cons instruction block inductionHypothesis =>
    rw [spliceAll]
    obtain ⟨⟨placed, same, slots⟩, order, rest⟩ := @inductionHypothesis
      (body.splice position instruction inside) (position + 1) (by rw [size_splice]; omega)
    refine ⟨⟨⟨instruction, body.bciAtPosition position⟩ :: placed, by simp [same], ?_⟩, ?_, ?_⟩
    · rw [slots]
      simp [splice]
    · have within : position ≤ body.order.toList.length := by simpa using inside
      have above : (body.splice position instruction inside).order.toList.take (position + 1) =
          body.order.toList.take position ++ [body.nextHandle] := by
        rw [order_splice, Layout.insertIdx_eq_append within, List.take_append]
        simp [inside]
      have below : (body.splice position instruction inside).order.toList.drop (position + 1) =
          body.order.toList.drop position := by
        rw [order_splice, Layout.insertIdx_eq_append within, List.drop_append]
        simp [inside]
      have count : (body.splice position instruction inside).slots.size = body.slots.size + 1 := by
        simp [splice]
      rw [order, above, below, count, List.length_cons, List.range_succ_eq_map]
      simp [nextHandle, Function.comp_def, Nat.add_assoc, Nat.add_comm 1]
    · rw [rest]
      rfl

/-- The later body has the instructions of the earlier one under the same handles. -/
def Retained (before after : Body) : Prop :=
  ∀ handle instruction, before.get handle = .ok instruction → after.get handle = .ok instruction

/-- Old instructions keep their handles when a block is inserted. -/
theorem BlockInserted.retained {before after : Body} {position : Nat}
    {block : List (Instruction Jump)} (inserted : before.BlockInserted position block after) :
    before.Retained after := by
  intro handle instruction found
  rw [get_eq_ok_iff] at found ⊢
  obtain ⟨slot, found, same⟩ := found
  obtain ⟨placed, -, slots⟩ := inserted.slots
  refine ⟨slot, ?_, same⟩
  rw [slot?, Option.join_eq_some_iff] at found ⊢
  rw [← Array.getElem?_toList] at found ⊢
  rw [slots, List.getElem?_append_left (List.getElem?_eq_some_iff.mp found).1, found]

end Body

/-- A run starts somewhere in the layout. -/
theorem Anchor.position_le {anchor : Anchor} {body : Body} {position : Nat}
    (found : anchor.position body = .ok position) : position ≤ body.order.size := by
  have below {handle : Handle} {position : Nat} (found : body.position handle = .ok position) :
      position < body.order.size := by
    obtain ⟨inside, -⟩ := List.findIdx?_eq_some_iff_getElem.mp (Body.position_eq_ok_iff.mp found)
    rwa [Array.length_toList] at inside
  cases anchor with
  | atStart =>
    cases found
    exact Nat.zero_le _
  | atEnd =>
    cases found
    exact Nat.le_refl _
  | before handle => exact Nat.le_of_lt (below found)
  | after handle =>
    obtain ⟨earlier, foundEarlier, same⟩ := exceptBind_eq_ok_iff.mp found
    cases same
    exact below foundEarlier

/-- Instructions keep their handles, and the pool has only been enlarged. -/
structure Edit.Persists (before after : Edit) : Prop where
  instructions : before.body.Retained after.body
  constants : before.pool.Enlarges after.pool

theorem Edit.Persists.refl (edit : Edit) : edit.Persists edit :=
  ⟨fun _ _ found => found, .refl edit.pool⟩

theorem Edit.Persists.trans {before middle after : Edit} (first : before.Persists middle)
    (second : middle.Persists after) : before.Persists after :=
  ⟨fun handle instruction found => second.instructions _ _ (first.instructions handle instruction found),
    first.constants.trans second.constants⟩

namespace Cursor

variable {A B : Type}

/-- The task inserts nothing, and once it has succeeded it gives the same answer again and changes
nothing. -/
def Supplies (task : AtCursor A) : Prop :=
  ∀ edit position events value after, edit.pool.Built →
    task ⟨⟨edit, position⟩, events⟩ = .ok value after →
    ∃ grown, edit.pool.Enlarges grown ∧ after = ⟨⟨⟨edit.body, grown⟩, position⟩, events⟩ ∧
      ∀ later place reported, Edit.Persists ⟨edit.body, grown⟩ later →
        task ⟨⟨later, place⟩, reported⟩ = .ok value ⟨⟨later, place⟩, reported⟩

/-- Interning at a cursor changes nothing but the pool. -/
theorem onPool_eq_ok_iff {interning : Interning A} {before after : Logged Cursor} {value : A} :
    onPool interning before = .ok value after ↔
      ∃ pool, interning before.state.edit.pool = .ok value pool ∧
        ⟨⟨⟨before.state.edit.body, pool⟩, before.state.position⟩, before.events⟩ = after := by
  simp only [onPool, onEdit, Task.focus_eq_ok_iff, Edit.onPool_eq_ok_iff]
  constructor
  · rintro ⟨_, ⟨pool, interned, rfl⟩, rfl⟩
    exact ⟨pool, interned, rfl⟩
  · rintro ⟨pool, interned, rfl⟩
    exact ⟨_, ⟨pool, interned, rfl⟩, rfl⟩

/-- A request inserts nothing and is answered from the pool from then on. -/
theorem supplies_request (request : Pool.Request) : Supplies (onPool request.run) := by
  intro edit position events index after _ ran
  obtain ⟨grown, interned, rfl⟩ := onPool_eq_ok_iff.mp ran
  refine ⟨grown, request.enlarges.enlarged interned, rfl, fun later place reported persists => ?_⟩
  have again := (request.repeats _ _ _ interned).2 later.pool persists.constants.remembers
  exact onPool_eq_ok_iff.mpr ⟨later.pool, again, rfl⟩

/-- What is looked up in a built pool is found in every later one. -/
theorem supplies_lookup {look : Pool → Except Error A}
    (kept : ∀ before after value, before.Extends after → before.Built → look before = .ok value →
      look after = .ok value) :
    Supplies (do Task.ofExcept (look (← Task.read).edit.pool)) := by
  intro edit position events value after built ran
  simp only [Task.bind_eq_ok_iff, Task.read_eq_ok_iff, Task.ofExcept_eq_ok_iff] at ran
  obtain ⟨_, _, ⟨rfl, rfl⟩, found, rfl⟩ := ran
  refine ⟨edit.pool, .refl _, rfl, fun later place reported persists => ?_⟩
  have again := kept _ _ _ persists.constants.toExtends built found
  simp only [Task.bind_eq_ok_iff, Task.read_eq_ok_iff, Task.ofExcept_eq_ok_iff]
  exact ⟨_, _, ⟨rfl, rfl⟩, again, rfl⟩

/-- The method that an instruction calls stays the same, like the instruction. -/
theorem supplies_calledMethod (invoke : Handle) : Supplies (calledMethod invoke) := by
  intro edit position events method after _ ran
  simp only [calledMethod, Task.bind_eq_ok_iff, Task.read_eq_ok_iff, Task.ofExcept_eq_ok_iff] at ran
  obtain ⟨_, _, ⟨rfl, rfl⟩, instruction, _, ⟨found, rfl⟩, called⟩ := ran
  have unchanged : after = ⟨⟨edit, position⟩, events⟩ := by
    split at called
    all_goals first
      | exact (Task.pure_eq_ok_iff.mp called).2.symm
      | exact (Task.throw_eq_ok_iff.mp called).elim
  refine ⟨edit.pool, .refl _, unchanged, fun later place reported persists => ?_⟩
  simp only [calledMethod, Task.bind_eq_ok_iff, Task.read_eq_ok_iff, Task.ofExcept_eq_ok_iff]
  refine ⟨_, _, ⟨rfl, rfl⟩, instruction, _, ⟨persists.instructions _ _ found, rfl⟩, ?_⟩
  split at called
  all_goals first
    | exact Task.pure_eq_ok_iff.mpr ⟨(Task.pure_eq_ok_iff.mp called).1, rfl⟩
    | exact (Task.throw_eq_ok_iff.mp called).elim

/-- From this edit on the task adds no constant and inserts the block. -/
def Lays (edit : Edit) (task : AtCursor A) (block : List (Instruction Jump)) : Prop :=
  ∀ later position events (inside : position ≤ later.body.order.size), edit.Persists later →
    ∃ value, task ⟨⟨later, position⟩, events⟩ =
      .ok value ⟨⟨⟨Body.spliceAll block later.body position inside, later.pool⟩,
        position + block.length⟩, events⟩

/-- Once it has succeeded, the task has inserted a block that it will insert again. -/
def Replays (task : AtCursor A) : Prop :=
  ∀ edit position events value after (inside : position ≤ edit.body.order.size), edit.pool.Built →
    task ⟨⟨edit, position⟩, events⟩ = .ok value after →
    ∃ block grown, edit.pool.Enlarges grown ∧
      after = ⟨⟨⟨Body.spliceAll block edit.body position inside, grown⟩, position + block.length⟩,
        events⟩ ∧
      Lays after.state.edit task block

/-- What lays a block in an edit lays it in every later one. -/
theorem Lays.persists {edit later : Edit} {task : AtCursor A} {block : List (Instruction Jump)}
    (lays : Lays edit task block) (persists : edit.Persists later) : Lays later task block :=
  fun last position events inside continues =>
    lays last position events inside (persists.trans continues)

/-- A block in an enlarged pool is inserted beside the old instructions. -/
theorem persists_spliceAll {edit : Edit} {grown : Pool} {block : List (Instruction Jump)}
    {position : Nat} (inside : position ≤ edit.body.order.size) (enlarged : edit.pool.Enlarges grown) :
    edit.Persists ⟨Body.spliceAll block edit.body position inside, grown⟩ :=
  ⟨(Body.blockInserted_spliceAll inside).retained, enlarged⟩

/-- An instruction that is pushed is pushed again. -/
theorem replays_push (instruction : Instruction Jump) : Replays (push instruction) := by
  intro edit position events value after inside _ ran
  rw [run_push instruction inside] at ran
  cases ran
  exact ⟨[instruction], edit.pool, .refl _, rfl, fun later place reported within _ =>
    ⟨later.body.nextHandle, run_push instruction within⟩⟩

/-- The block comes from what is inserted after all is supplied. -/
theorem Supplies.bind {task : AtCursor A} {next : A → AtCursor B} (supplies : Supplies task)
    (continued : ∀ value, Replays (next value)) : Replays (task >>= next) := by
  intro edit position events value after inside built ran
  obtain ⟨supplied, middle, ranTask, ranNext⟩ := Task.bind_eq_ok_iff.mp ran
  obtain ⟨grown, enlarged, rfl, again⟩ := supplies _ _ _ _ _ built ranTask
  obtain ⟨block, last, enlargedNext, rfl, lays⟩ := continued supplied ⟨edit.body, grown⟩ position events
    value after inside (enlarged.toExtends built).1 ranNext
  refine ⟨block, last, enlarged.trans enlargedNext, rfl, fun later place reported within persists => ?_⟩
  have continues := @persists_spliceAll ⟨edit.body, grown⟩ last block position inside enlargedNext
  rw [Task.bind_of_eq_ok (again later place reported (continues.trans persists))]
  exact lays later place reported within persists

/-- Two tasks lay their blocks one after the other. -/
theorem Lays.append {edit : Edit} {task : AtCursor A} {next : AtCursor B}
    {first second : List (Instruction Jump)} (lays : Lays edit task first)
    (laysNext : Lays edit next second) : Lays edit (task >>= fun _ => next) (first ++ second) := by
  intro later position events inside persists
  obtain ⟨value, ran⟩ := lays later position events inside persists
  have within : position + first.length ≤
      (Body.spliceAll first later.body position inside).order.size := by
    rw [Body.size_spliceAll]
    omega
  obtain ⟨last, ranNext⟩ := laysNext _ _ events within
    (persists.trans (persists_spliceAll inside (.refl later.pool)))
  rw [Task.bind_of_eq_ok ran, ranNext, List.length_append, ← Nat.add_assoc]
  exact ⟨last, by rw [Body.spliceAll_append]⟩

/-- Blocks that are inserted one after the other form one block. -/
theorem Replays.append {task : AtCursor A} {next : AtCursor B} (replays : Replays task)
    (continued : Replays next) : Replays (task >>= fun _ => next) := by
  intro edit position events value after inside built ran
  obtain ⟨_, middle, ranTask, ranNext⟩ := Task.bind_eq_ok_iff.mp ran
  obtain ⟨first, grown, enlarged, rfl, lays⟩ := replays _ _ _ _ _ inside built ranTask
  have within : position + first.length ≤
      (Body.spliceAll first edit.body position inside).order.size := by
    rw [Body.size_spliceAll]
    omega
  obtain ⟨second, last, enlargedNext, rfl, laysNext⟩ := continued _ _ _ _ _ within
    (enlarged.toExtends built).1 ranNext
  refine ⟨first ++ second, last, enlarged.trans enlargedNext, ?_, ?_⟩
  · rw [Body.spliceAll_append, List.length_append, Nat.add_assoc]
  · exact (lays.persists (persists_spliceAll within enlargedNext)).append laysNext

/-- A task replays whether or not its result is used. -/
theorem Replays.discard {task : AtCursor A} (replays : Replays task) :
    Replays (Functor.discard task) := by
  intro edit position events value after inside built ran
  obtain ⟨_, ranTask⟩ := Task.discard_eq_ok_iff.mp ran
  obtain ⟨block, grown, enlarged, rfl, lays⟩ := replays _ _ _ _ _ inside built ranTask
  refine ⟨block, grown, enlarged, rfl, fun later place reported within persists => ?_⟩
  obtain ⟨found, again⟩ := lays later place reported within persists
  exact ⟨(), Task.discard_eq_ok_iff.mpr ⟨found, again⟩⟩

/-- What can be called at a cursor. -/
inductive Call where
  | push (instruction : Instruction Jump)
  | simple (opcode : Opcode)
  | loadReference (index : UInt16)
  | loadConstant (index : ConstantIndex)
  | pushInteger (value : Int32)
  | pushShort (value : Int16)
  | checkCast (className : String)
  | getStatic (owner name descriptor : String)
  | putStatic (owner name descriptor : String)
  | invokeStatic (owner name descriptor : String)
  | invokeVirtual (owner name descriptor : String)
  | loadString (contents : String)
  | gotoWide (target : Handle)
  | ifZero (target : Handle)
  | loadNameAndDescriptor (invoke : Handle)
  | checkCastToOwner (invoke : Handle)

/-- The handle of what a call inserts is not needed. -/
def Call.run : Call → AtCursor PUnit
  | .push instruction => discard (Cursor.push instruction)
  | .simple opcode => discard (Cursor.simple opcode)
  | .loadReference index => discard (Cursor.loadReference index)
  | .loadConstant index => discard (Cursor.loadConstant index)
  | .pushInteger value => discard (Cursor.pushInteger value)
  | .pushShort value => discard (Cursor.pushShort value)
  | .checkCast className => discard (Cursor.checkCast className)
  | .getStatic owner name descriptor => discard (Cursor.getStatic owner name descriptor)
  | .putStatic owner name descriptor => discard (Cursor.putStatic owner name descriptor)
  | .invokeStatic owner name descriptor => discard (Cursor.invokeStatic owner name descriptor)
  | .invokeVirtual owner name descriptor => discard (Cursor.invokeVirtual owner name descriptor)
  | .loadString contents => discard (Cursor.loadString contents)
  | .gotoWide target => discard (Cursor.gotoWide target)
  | .ifZero target => discard (Cursor.ifZero target)
  | .loadNameAndDescriptor invoke => Cursor.loadNameAndDescriptor invoke
  | .checkCastToOwner invoke => discard (Cursor.checkCastToOwner invoke)

theorem replays_loadReference (index : UInt16) : Replays (loadReference index) := by
  unfold loadReference simple
  split
  · exact replays_push _
  · exact replays_push _
  · exact replays_push _
  · exact replays_push _
  · split
    · exact replays_push _
    · exact replays_push _

theorem replays_loadConstant (index : ConstantIndex) : Replays (loadConstant index) := by
  rw [loadConstant_eq]
  exact replays_push _

theorem replays_pushInteger (value : Int32) : Replays (pushInteger value) := by
  have interned : Replays (do loadConstant (← onPool (Pool.intern (.integer value)))) :=
    (supplies_request (.entry (.integer value))).bind replays_loadConstant
  unfold pushInteger simple
  repeat' split
  all_goals first
    | exact replays_push _
    | exact interned

/-- The class that declares a method is found again without inserting anything. -/
theorem supplies_owner (method : ConstantIndex) :
    Supplies (do Task.ofExcept ((← Task.read).edit.pool.member method)) :=
  supplies_lookup fun _ _ _ grown built => grown.member built

/-- The name and the descriptor of a method. -/
def signature (pool : Pool) (method : ConstantIndex) : Except Error (ConstantIndex × ConstantIndex) := do
  let (_, signature) ← pool.member method
  pool.nameAndType signature

theorem supplies_signature (method : ConstantIndex) :
    Supplies (do Task.ofExcept (signature (← Task.read).edit.pool method)) := by
  refine @supplies_lookup _ (signature · method) fun _ _ _ grown built found => ?_
  simp only [signature, exceptBind_eq_ok_iff] at found ⊢
  obtain ⟨parts, found, named⟩ := found
  exact ⟨parts, grown.member built found, grown.nameAndType built named⟩

/-- The loads of a name and a descriptor insert the same instructions again. -/
theorem replays_loadNameAndDescriptor (invoke : Handle) : Replays (loadNameAndDescriptor invoke) := by
  have regrouped : loadNameAndDescriptor invoke = (do
      let method ← calledMethod invoke
      let named ← (do Task.ofExcept (signature (← Task.read).edit.pool method))
      let name ← onPool (Pool.intern (.string named.1))
      let descriptor ← onPool (Pool.intern (.string named.2))
      discard (loadConstant name)
      discard (loadConstant descriptor)) := by
    simp only [loadNameAndDescriptor, signature, Task.ofExcept_bind, bind_assoc]
  rw [regrouped]
  exact (supplies_calledMethod invoke).bind fun method => (supplies_signature method).bind fun named =>
    (supplies_request (.entry (.string named.1))).bind fun name =>
      (supplies_request (.entry (.string named.2))).bind fun descriptor =>
        (replays_loadConstant name).discard.append (replays_loadConstant descriptor).discard

theorem replays_checkCastToOwner (invoke : Handle) : Replays (checkCastToOwner invoke) := by
  have regrouped : checkCastToOwner invoke = (do
      let method ← calledMethod invoke
      let parts ← (do Task.ofExcept ((← Task.read).edit.pool.member method))
      push (.constant .checkcast parts.1)) := by
    simp only [checkCastToOwner, bind_assoc]
  rw [regrouped]
  exact (supplies_calledMethod invoke).bind fun method => (supplies_owner method).bind fun _ =>
    replays_push _

/-- Each call inserts a block that it will insert again. -/
theorem Call.replays (call : Call) : Replays call.run := by
  cases call with
  | push instruction => exact (replays_push instruction).discard
  | simple opcode => exact (replays_push _).discard
  | loadReference index => exact (replays_loadReference index).discard
  | loadConstant index => exact (replays_loadConstant index).discard
  | pushInteger value => exact (replays_pushInteger value).discard
  | pushShort value => exact (replays_push _).discard
  | checkCast className =>
    exact ((supplies_request (.className className)).bind fun _ => replays_push _).discard
  | getStatic owner name descriptor | putStatic owner name descriptor =>
    exact ((supplies_request (.field owner name descriptor)).bind fun _ => replays_push _).discard
  | invokeStatic owner name descriptor | invokeVirtual owner name descriptor =>
    exact ((supplies_request (.method owner name descriptor)).bind fun _ => replays_push _).discard
  | loadString contents =>
    exact ((supplies_request (.string contents)).bind replays_loadConstant).discard
  | gotoWide target => exact (replays_push _).discard
  | ifZero target => exact (replays_push _).discard
  | loadNameAndDescriptor invoke => exact replays_loadNameAndDescriptor invoke
  | checkCastToOwner invoke => exact (replays_checkCastToOwner invoke).discard

/-- A sequence of calls inserts the blocks of its calls one after the other. -/
theorem lays_forM {edit : Edit} {calls : List Call} {blocks : List (List (Instruction Jump))}
    (lays : List.Forall₂ (fun call block => Lays edit call.run block) calls blocks) :
    Lays edit (calls.forM Call.run) blocks.flatten := by
  induction lays with
  | nil =>
    intro later position events inside _
    exact ⟨(), rfl⟩
  | cons first _ inductionHypothesis =>
    rw [List.flatten_cons]
    exact first.append inductionHypothesis

/-- Calls that succeed splice in one block each, which each of them lays again in the edit they
leave. -/
theorem exists_blocks_of_forM {calls : List Call} {edit : Edit} {position : Nat}
    {events : Array Event} {after : Logged Cursor} {result : PUnit}
    (inside : position ≤ edit.body.order.size) (built : edit.pool.Built)
    (ran : calls.forM Call.run ⟨⟨edit, position⟩, events⟩ = .ok result after) :
    ∃ (blocks : List (List (Instruction Jump))) (grown : Pool), edit.pool.Enlarges grown ∧
      after = ⟨⟨⟨Body.spliceAll blocks.flatten edit.body position inside, grown⟩,
        position + blocks.flatten.length⟩, events⟩ ∧
      List.Forall₂ (fun call block => Lays after.state.edit call.run block) calls blocks := by
  -- Every call goes on where the block before it ends, in a pool that has grown since.
  induction calls generalizing edit position with
  | nil =>
    cases ran
    exact ⟨[], edit.pool, .refl _, rfl, .nil⟩
  | cons call calls inductionHypothesis =>
    obtain ⟨middle, ranCall, ranRest⟩ := Task.forM_cons_eq_ok_iff.mp ran
    obtain ⟨first, grown, enlarged, rfl, lays⟩ := call.replays _ _ _ _ _ inside built ranCall
    have within : position + first.length ≤
        (Body.spliceAll first edit.body position inside).order.size := by
      rw [Body.size_spliceAll]
      omega
    obtain ⟨blocks, last, enlargedRest, rfl, others⟩ :=
      inductionHypothesis within (enlarged.toExtends built).1 ranRest
    refine ⟨first :: blocks, last, enlarged.trans enlargedRest, ?_, ?_⟩
    · rw [List.flatten_cons, Body.spliceAll_append, List.length_append, Nat.add_assoc]
    -- The first block is laid against the final pool as well, since later calls only add to it.
    · exact .cons (lays.persists (persists_spliceAll within enlargedRest)) others

/-- Run in this edit, wherever it starts, the task adds no constant and inserts the block. -/
def Inserts (edit : Edit) (task : AtCursor A) (block : List (Instruction Jump)) : Prop :=
  ∀ anchor position events, Anchor.position anchor edit.body = .ok position →
    ∃ value body, run anchor task ⟨edit, events⟩ = .ok value ⟨⟨body, edit.pool⟩, events⟩ ∧
      edit.body.BlockInserted position block body

/-- A task at an anchor starts at the position of the anchor. -/
theorem run_eq_ok_iff {anchor : Anchor} {task : AtCursor A} {before after : Logged Edit} {value : A} :
    run anchor task before = .ok value after ↔ ∃ position inner,
      anchor.position before.state.body = .ok position ∧
      task ⟨⟨before.state, position⟩, before.events⟩ = .ok value inner ∧
      ⟨inner.state.edit, inner.events⟩ = after := by
  simp only [run, Task.bind_eq_ok_iff, Task.read_eq_ok_iff, Task.ofExcept_eq_ok_iff,
    Task.focus_eq_ok_iff]
  constructor
  · rintro ⟨_, _, ⟨rfl, rfl⟩, position, _, ⟨found, rfl⟩, inner, ran, rfl⟩
    exact ⟨position, inner, found, ran, rfl⟩
  · rintro ⟨position, inner, found, ran, rfl⟩
    exact ⟨_, _, ⟨rfl, rfl⟩, position, _, ⟨found, rfl⟩, inner, ran, rfl⟩

/-- A task that lays a block in all later edits inserts it in this one. -/
theorem Lays.inserts {edit : Edit} {task : AtCursor A} {block : List (Instruction Jump)}
    (lays : Lays edit task block) : Inserts edit task block := by
  intro anchor position events found
  have inside := Anchor.position_le found
  obtain ⟨value, ran⟩ := lays edit position events inside (.refl edit)
  exact ⟨value, _, run_eq_ok_iff.mpr ⟨position, _, found, ran, rfl⟩, Body.blockInserted_spliceAll inside⟩

/-- A sequence of calls that succeeds has inserted one block, made up of the blocks that its calls
insert, in their order. Run again anywhere in the resulting body, it adds no constant and inserts an
equal block. -/
theorem replays_run {anchor : Anchor} {calls : List Call} {before after : Logged Edit} {result : PUnit}
    (built : before.state.pool.Built)
    (ran : run anchor (calls.forM Call.run) before = .ok result after) :
    ∃ position blocks, anchor.position before.state.body = .ok position ∧
      before.state.body.BlockInserted position blocks.flatten after.state.body ∧
      List.Forall₂ (fun call block => Inserts after.state call.run block) calls blocks ∧
      Inserts after.state (calls.forM Call.run) blocks.flatten := by
  obtain ⟨position, inner, found, ranCalls, rfl⟩ := run_eq_ok_iff.mp ran
  have inside := Anchor.position_le found
  obtain ⟨blocks, grown, enlarged, rfl, lays⟩ := exists_blocks_of_forM inside built ranCalls
  refine ⟨position, blocks, found, Body.blockInserted_spliceAll inside, ?_, (lays_forM lays).inserts⟩
  exact lays.imp fun _ _ lays => lays.inserts

/-- A call of a method, a cast to the class that declares it, and a branch to an old instruction. -/
def castCall : List Call := [.invokeVirtual "a" "b" "c", .checkCastToOwner ⟨3⟩, .ifZero ⟨1⟩]

theorem replays_run_castCall : ∃ pool after block, Pool.read Pool.doubledText = .ok (pool, []) ∧
    run .atStart (castCall.forM Call.run) ⟨⟨Body.selfJump, pool⟩, #[]⟩ = .ok () after ∧
      Body.selfJump.BlockInserted 0 block after.state.body ∧
      Inserts after.state (castCall.forM Call.run) block := by
  obtain ⟨pool, done, extent⟩ : ∃ pool, Pool.read Pool.doubledText = .ok (pool, []) ∧
      pool.table.extent = 6 := ⟨_, rfl, rfl⟩
  have built := Pool.built_of_read done
  obtain ⟨index, grown, interned, -⟩ := @Interning.fits_internMethod "a" "b" "c" (by decide +kernel)
    (by decide +kernel) (by decide +kernel) pool (by omega)
  obtain ⟨owner, signature, found, -, -⟩ :=
    (@Pool.Request.entered_of_run _ _ _ built (.method "a" "b" "c") interned).denotes.parts
  let called := Body.selfJump.splice 0 (.constant .invokevirtual index) (Nat.zero_le _)
  have ranCall : onPool (Pool.internMethod "a" "b" "c") ⟨⟨⟨Body.selfJump, pool⟩, 0⟩, #[]⟩ =
      .ok index ⟨⟨⟨Body.selfJump, grown⟩, 0⟩, #[]⟩ := onPool_eq_ok_iff.mpr ⟨grown, interned, rfl⟩
  have ranCast : checkCastToOwner ⟨3⟩ ⟨⟨⟨called, grown⟩, 1⟩, #[]⟩ =
      push (.constant .checkcast owner) ⟨⟨⟨called, grown⟩, 1⟩, #[]⟩ := by
    have known : calledMethod ⟨3⟩ ⟨⟨⟨called, grown⟩, 1⟩, #[]⟩ = .ok index ⟨⟨⟨called, grown⟩, 1⟩, #[]⟩ := rfl
    have looked : (Task.ofExcept (grown.member index) : AtCursor (ConstantIndex × ConstantIndex))
        ⟨⟨⟨called, grown⟩, 1⟩, #[]⟩ = .ok (owner, signature) ⟨⟨⟨called, grown⟩, 1⟩, #[]⟩ :=
      Task.ofExcept_eq_ok_iff.mpr ⟨found, rfl⟩
    exact (Task.bind_of_eq_ok known).trans (Task.bind_of_eq_ok looked)
  have within : 1 ≤ called.order.size := by simp [called, Body.size_splice]
  have inside : 2 ≤ (called.splice 1 (.constant .checkcast owner) within).order.size := by
    simp [called, Body.size_splice]
  have ran : castCall.forM Call.run ⟨⟨⟨Body.selfJump, pool⟩, 0⟩, #[]⟩ = .ok () _ :=
    Task.forM_cons_eq_ok_iff.mpr ⟨_, Task.discard_eq_ok_iff.mpr
        ⟨_, (Task.bind_of_eq_ok ranCall).trans (run_push _ (Nat.zero_le _))⟩,
      Task.forM_cons_eq_ok_iff.mpr ⟨_, Task.discard_eq_ok_iff.mpr
          ⟨_, ranCast.trans (run_push _ within)⟩,
        Task.forM_cons_eq_ok_iff.mpr ⟨_, Task.discard_eq_ok_iff.mpr ⟨_, run_push _ inside⟩, rfl⟩⟩⟩
  have spliced : run .atStart (castCall.forM Call.run) ⟨⟨Body.selfJump, pool⟩, #[]⟩ = .ok () _ :=
    run_eq_ok_iff.mpr ⟨0, _, rfl, ran, rfl⟩
  obtain ⟨position, blocks, started, inserted, -, again⟩ := replays_run built spliced
  cases started
  exact ⟨pool, _, blocks.flatten, done, spliced, inserted, again⟩

end Cursor

end Classfile
