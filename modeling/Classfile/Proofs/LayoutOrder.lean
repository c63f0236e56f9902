import Classfile.Code.Relax
import Classfile.Proofs.Labels

/-!
The layout order of a body and what insertion and replacement do to it.

A layout lists handles without repetition. Insertion after an instruction changes the successor of
that instruction alone, and replacement changes no successor at all.
-/

namespace Classfile

namespace Layout

/-- The handle listed right after another one. -/
def successor? : List Handle → Handle → Option Handle
  | [], _ => none
  | first :: rest, handle => if first = handle then rest.head? else successor? rest handle

/-- A new handle is listed right after an anchor. -/
def insertAfter : List Handle → Handle → Handle → List Handle
  | [], _, _ => []
  | first :: rest, anchor, new =>
    if first = anchor then first :: new :: rest else first :: insertAfter rest anchor new

variable {order : List Handle} {anchor handle new : Handle}

/-- A handle that has a position is in the order. -/
theorem mem_of_findIdx? {position : Nat}
    (found : order.findIdx? (fun other => other = handle) = some position) : handle ∈ order := by
  obtain ⟨inside, same, _⟩ := List.findIdx?_eq_some_iff_getElem.mp found
  have equal : order[position] = handle := by simpa using same
  rw [← equal]
  exact List.getElem_mem inside

/-- A handle in the order has a position. -/
theorem findIdx?_of_mem (present : handle ∈ order) :
    ∃ position, order.findIdx? (fun other => other = handle) = some position := by
  rw [← Option.isSome_iff_exists, List.findIdx?_isSome, List.any_eq_true]
  exact ⟨handle, present, by simp⟩

/-- The successor of a handle is at the position after its own. -/
theorem getElem?_successor {position : Nat}
    (found : order.findIdx? (fun other => other = handle) = some position) :
    order[position + 1]? = successor? order handle := by
  induction order generalizing position with
  | nil => simp at found
  | cons first rest inductionHypothesis =>
    rw [List.findIdx?_cons] at found
    by_cases same : first = handle
    · simp only [same, decide_true, if_true, Option.some.injEq] at found
      rw [← found, successor?, if_pos same, List.getElem?_cons_succ, List.head?_eq_getElem?]
    · simp only [same, decide_false, Bool.false_eq_true, if_false, Option.map_eq_some_iff] at found
      obtain ⟨earlier, foundRest, rfl⟩ := found
      rw [successor?, if_neg same, List.getElem?_cons_succ, inductionHypothesis foundRest]

/-- Inserting at the position after a handle is inserting after it. -/
theorem insertIdx_eq_insertAfter {position : Nat}
    (found : order.findIdx? (fun other => other = anchor) = some position) :
    order.insertIdx (position + 1) new = insertAfter order anchor new := by
  induction order generalizing position with
  | nil => simp at found
  | cons first rest inductionHypothesis =>
    rw [List.findIdx?_cons] at found
    by_cases same : first = anchor
    · simp only [same, decide_true, if_true, Option.some.injEq] at found
      rw [← found, insertAfter, if_pos same, List.insertIdx_succ_cons, List.insertIdx_zero]
    · simp only [same, decide_false, Bool.false_eq_true, if_false, Option.map_eq_some_iff] at found
      obtain ⟨earlier, foundRest, rfl⟩ := found
      rw [insertAfter, if_neg same, List.insertIdx_succ_cons, inductionHypothesis foundRest]

/-- A successor is in the order. -/
theorem mem_of_successor? {next : Handle} (follows : successor? order handle = some next) :
    next ∈ order := by
  induction order with
  | nil => simp [successor?] at follows
  | cons first rest inductionHypothesis =>
    rw [successor?] at follows
    by_cases same : first = handle
    · rw [if_pos same] at follows
      exact List.mem_cons_of_mem _ (List.mem_of_head? follows)
    · rw [if_neg same] at follows
      exact List.mem_cons_of_mem _ (inductionHypothesis follows)

/-- A layout without repetition never lists a handle as its own successor. -/
theorem successor?_ne {next : Handle} (distinct : order.Nodup)
    (follows : successor? order handle = some next) : next ≠ handle := by
  induction order with
  | nil => simp [successor?] at follows
  | cons first rest inductionHypothesis =>
    rw [List.nodup_cons] at distinct
    rw [successor?] at follows
    by_cases same : first = handle
    · rw [if_pos same] at follows
      intro equal
      apply distinct.1
      rw [same, ← equal]
      exact List.mem_of_head? follows
    · rw [if_neg same] at follows
      exact inductionHypothesis distinct.2 follows

/-- The new handle is the only one that an insertion adds. -/
theorem mem_insertAfter (present : anchor ∈ order) :
    handle ∈ insertAfter order anchor new ↔ handle = new ∨ handle ∈ order := by
  induction order with
  | nil => simp at present
  | cons first rest inductionHypothesis =>
    rw [insertAfter]
    by_cases same : first = anchor
    · rw [if_pos same]
      simp only [List.mem_cons]
      tauto
    · have later : anchor ∈ rest := by
        rcases List.mem_cons.mp present with equal | later
        · exact absurd equal.symm same
        · exact later
      rw [if_neg same, List.mem_cons, inductionHypothesis later, List.mem_cons]
      tauto

/-- An order without repetitions has none after the insertion of a new handle. -/
theorem nodup_insertAfter (distinct : order.Nodup) (present : anchor ∈ order)
    (fresh : new ∉ order) : (insertAfter order anchor new).Nodup := by
  induction order with
  | nil => simp at present
  | cons first rest inductionHypothesis =>
    rw [List.nodup_cons] at distinct
    simp only [List.mem_cons, not_or] at fresh
    rw [insertAfter]
    by_cases same : first = anchor
    · rw [if_pos same, List.nodup_cons, List.nodup_cons, List.mem_cons, not_or]
      exact ⟨⟨Ne.symm fresh.1, distinct.1⟩, fresh.2, distinct.2⟩
    · have later : anchor ∈ rest := by
        rcases List.mem_cons.mp present with equal | later
        · exact absurd equal.symm same
        · exact later
      rw [if_neg same, List.nodup_cons, mem_insertAfter later, not_or]
      exact ⟨⟨Ne.symm fresh.1, distinct.1⟩, inductionHypothesis distinct.2 later fresh.2⟩

/-- What is kept of a layout that drops the new handle is what was kept before. -/
theorem filter_insertAfter (keep : Handle → Bool) (dropped : keep new = false) :
    (insertAfter order anchor new).filter keep = order.filter keep := by
  induction order with
  | nil => rfl
  | cons first rest inductionHypothesis =>
    rw [insertAfter]
    by_cases same : first = anchor
    · rw [if_pos same, List.filter_cons, List.filter_cons, List.filter_cons, dropped]
      simp
    · rw [if_neg same, List.filter_cons, List.filter_cons, inductionHypothesis]

/-- A handle that is inserted follows its anchor. -/
theorem successor?_insertAfter_anchor (present : anchor ∈ order) :
    successor? (insertAfter order anchor new) anchor = some new := by
  induction order with
  | nil => simp at present
  | cons first rest inductionHypothesis =>
    rw [insertAfter]
    by_cases same : first = anchor
    · rw [if_pos same, successor?, if_pos same]
      rfl
    · have later : anchor ∈ rest := by
        rcases List.mem_cons.mp present with equal | later
        · exact absurd equal.symm same
        · exact later
      rw [if_neg same, successor?, if_neg same, inductionHypothesis later]

/-- A handle that is inserted is followed by what followed its anchor. -/
theorem successor?_insertAfter_new (present : anchor ∈ order) (fresh : new ∉ order) :
    successor? (insertAfter order anchor new) new = successor? order anchor := by
  induction order with
  | nil => simp at present
  | cons first rest inductionHypothesis =>
    simp only [List.mem_cons, not_or] at fresh
    rw [insertAfter]
    by_cases same : first = anchor
    · rw [if_pos same, successor?, if_neg (Ne.symm fresh.1), successor?, if_pos rfl, successor?,
        if_pos same]
    · have later : anchor ∈ rest := by
        rcases List.mem_cons.mp present with equal | later
        · exact absurd equal.symm same
        · exact later
      rw [if_neg same, successor?, if_neg (Ne.symm fresh.1), successor?, if_neg same,
        inductionHypothesis later fresh.2]

/-- An insertion after a handle leaves the first one in its place. -/
theorem head?_insertAfter : (insertAfter order anchor new).head? = order.head? := by
  cases order with
  | nil => rfl
  | cons first rest =>
    rw [insertAfter]
    split <;> rfl

/-- What follows a handle at its only place in an order is the first handle behind it. -/
theorem successor?_append {front back : List Handle} (absent : anchor ∉ front) :
    successor? (front ++ anchor :: back) anchor = back.head? := by
  induction front with
  | nil => rw [List.nil_append, successor?, if_pos rfl]
  | cons first front inductionHypothesis =>
    rw [List.mem_cons, not_or] at absent
    rw [List.cons_append, successor?, if_neg (Ne.symm absent.1), inductionHypothesis absent.2]

/-- The new handle is between the anchor and all that came after it. -/
theorem insertAfter_append {front back : List Handle} (absent : anchor ∉ front) :
    insertAfter (front ++ anchor :: back) anchor new = front ++ anchor :: new :: back := by
  induction front with
  | nil => rw [List.nil_append, insertAfter, if_pos rfl, List.nil_append]
  | cons first front inductionHypothesis =>
    rw [List.mem_cons, not_or] at absent
    rw [List.cons_append, insertAfter, if_neg (Ne.symm absent.1), inductionHypothesis absent.2,
      List.cons_append]

/-- Every other handle keeps its successor. -/
theorem successor?_insertAfter_other (different : handle ≠ anchor) (notNew : handle ≠ new) :
    successor? (insertAfter order anchor new) handle = successor? order handle := by
  induction order with
  | nil => rfl
  | cons first rest inductionHypothesis =>
    rw [insertAfter]
    by_cases same : first = anchor
    · have notFirst : first ≠ handle := fun equal => different (equal.symm.trans same)
      rw [if_pos same, successor?, if_neg notFirst, successor?, if_neg (Ne.symm notNew), successor?,
        if_neg notFirst]
    · rw [if_neg same, successor?, successor?, inductionHypothesis, head?_insertAfter]

end Layout

namespace Body

/-- A handle is in use if there is a slot for it. -/
theorem contains_iff {body : Body} {handle : Handle} :
    body.contains handle = true ↔ ∃ slot, body.slot? handle = some slot := by
  rw [contains, Option.isSome_iff_exists]

theorem slot?_eq_some_iff {body : Body} {handle : Handle} {slot : Slot} :
    body.slot? handle = some slot ↔ body.slots[handle.index]? = some (some slot) := by
  simp [slot?, Option.join_eq_some_iff]

/-- Handles in use are within the array of slots. -/
theorem lt_size_of_slot? {body : Body} {handle : Handle} {slot : Slot}
    (found : body.slot? handle = some slot) : handle.index < body.slots.size := by
  rw [slot?_eq_some_iff] at found
  exact (Array.getElem?_eq_some_iff.mp found).1

/-- There is no slot for the next handle. -/
theorem slot?_nextHandle (body : Body) : body.slot? body.nextHandle = none := by
  simp [slot?, nextHandle]

theorem slot_eq_ok_iff {body : Body} {handle : Handle} {slot : Slot} :
    body.slot handle = .ok slot ↔ body.slot? handle = some slot := by
  rw [Body.slot]
  cases found : body.slot? handle with
  | none => simp
  | some other => simp

theorem bci_eq_ok_iff {body : Body} {handle : Handle} {bci : Nat} :
    body.bci handle = .ok bci ↔ ∃ slot, body.slot? handle = some slot ∧ slot.bci = bci := by
  simp only [Body.bci, exceptBind_eq_ok_iff, exceptPure_eq_ok_iff, slot_eq_ok_iff]

theorem get_eq_ok_iff {body : Body} {handle : Handle} {instruction : Instruction Jump} :
    body.get handle = .ok instruction ↔
      ∃ slot, body.slot? handle = some slot ∧ slot.instruction = instruction := by
  simp only [Body.get, exceptBind_eq_ok_iff, exceptPure_eq_ok_iff, slot_eq_ok_iff]

theorem targetBci_eq_ok_iff {body : Body} {handle : Handle} {bci : Nat} :
    body.targetBci handle = .ok bci ↔ ∃ slot, body.slot? handle = some slot ∧ slot.bci = bci := by
  rw [targetBci]
  cases found : body.slot? handle with
  | none => simp
  | some slot => simp

/-- The shape of the instruction that a handle names. -/
def shape? (body : Body) (handle : Handle) : Option (Instruction Handle) :=
  (body.slot? handle).map fun slot => slot.instruction.shape

theorem shape?_eq_some_iff {body : Body} {handle : Handle} {shape : Instruction Handle} :
    body.shape? handle = some shape ↔
      ∃ slot, body.slot? handle = some slot ∧ slot.instruction.shape = shape := by
  rw [shape?, Option.map_eq_some_iff]

theorem contains_iff_shape? {body : Body} {handle : Handle} :
    body.contains handle = true ↔ ∃ shape, body.shape? handle = some shape := by
  rw [contains, shape?, ← Option.isSome_iff_exists, Option.isSome_map]

/-- The instruction laid out right after another one, if the other one is laid out. -/
def successor? (body : Body) (handle : Handle) : Option Handle :=
  Layout.successor? body.order.toList handle

theorem position_eq_ok_iff {body : Body} {handle : Handle} {position : Nat} :
    body.position handle = .ok position ↔
      body.order.toList.findIdx? (fun other => other = handle) = some position := by
  have listed : body.order.findIdx? (fun other => other = handle) =
      body.order.toList.findIdx? (fun other => other = handle) := by
    rw [← List.findIdx?_toArray, Array.toArray_toList]
  rw [Body.position, position?, listed]
  cases found : body.order.toList.findIdx? fun other => other = handle with
  | none => simp
  | some other => simp

theorem next?_eq_ok_iff {body : Body} {handle : Handle} {next : Option Handle} :
    body.next? handle = .ok next ↔
      handle ∈ body.order.toList ∧ body.successor? handle = next := by
  simp only [next?, exceptBind_eq_ok_iff, exceptPure_eq_ok_iff, position_eq_ok_iff]
  constructor
  · rintro ⟨position, found, rfl⟩
    refine ⟨Layout.mem_of_findIdx? found, ?_⟩
    rw [successor?, ← Layout.getElem?_successor found, Array.getElem?_toList]
  · rintro ⟨present, rfl⟩
    obtain ⟨position, found⟩ := Layout.findIdx?_of_mem present
    refine ⟨position, found, ?_⟩
    rw [successor?, ← Layout.getElem?_successor found, Array.getElem?_toList]

/-- What holds of all slots of the arena holds of all instructions. -/
theorem forall_slot?_iff {body : Body} {holds : Handle → Slot → Prop} :
    (∀ handle slot, body.slot? handle = some slot → holds handle slot) ↔
      ∀ index : Fin body.slots.size, ∀ slot ∈ body.slots[index], holds ⟨index⟩ slot := by
  constructor
  · intro all index slot found
    apply all ⟨index⟩ slot
    rw [slot?, Array.getElem?_eq_getElem index.isLt]
    exact found
  · intro all handle slot found
    rw [slot?, Option.join_eq_some_iff] at found
    obtain ⟨inside, found⟩ := Array.getElem?_eq_some_iff.mp found
    exact all ⟨handle.index, inside⟩ slot found

/-- A condition on all instructions is decided slot by slot. -/
def decidableForallSlot (body : Body) (holds : Handle → Slot → Prop)
    [∀ handle slot, Decidable (holds handle slot)] :
    Decidable (∀ handle slot, body.slot? handle = some slot → holds handle slot) :=
  decidable_of_iff _ forall_slot?_iff.symm

/-- Every instruction has the operands its opcode asks for. -/
def WellFormed (body : Body) : Prop :=
  ∀ handle slot, body.slot? handle = some slot → slot.instruction.isWellFormed = true

instance (body : Body) : Decidable body.WellFormed := decidableForallSlot body _

/-- A body is well formed if the shapes of its instructions are. -/
theorem wellFormed_iff {body : Body} :
    body.WellFormed ↔ ∀ handle shape, body.shape? handle = some shape → shape.isWellFormed = true := by
  constructor
  · intro wellFormed handle shape shaped
    obtain ⟨slot, found, rfl⟩ := shape?_eq_some_iff.mp shaped
    rw [Instruction.isWellFormed_shape]
    exact wellFormed handle slot found
  · intro shapes handle slot found
    rw [← Instruction.isWellFormed_shape]
    exact shapes handle _ (shape?_eq_some_iff.mpr ⟨slot, found, rfl⟩)

/-- The layout lists exactly the instructions of the body, each of them once. -/
structure Listed (body : Body) : Prop where
  distinct : body.order.toList.Nodup
  live : ∀ handle, handle ∈ body.order.toList ↔ body.contains handle = true

/-- Whether the order lists exactly the instructions in use can be decided. -/
theorem listed_iff {body : Body} :
    body.Listed ↔ body.order.toList.Nodup ∧
      (∀ handle ∈ body.order.toList, body.contains handle = true) ∧
        ∀ index : Fin body.slots.size, ∀ slot ∈ body.slots[index],
          (⟨index⟩ : Handle) ∈ body.order.toList := by
  rw [← @forall_slot?_iff body fun handle _ => handle ∈ body.order.toList]
  constructor
  · intro listed
    refine ⟨listed.distinct, fun handle present => (listed.live handle).mp present, ?_⟩
    intro handle slot found
    apply (listed.live handle).mpr
    rw [contains, found]
    rfl
  · intro ⟨distinct, contained, present⟩
    refine ⟨distinct, fun handle => ⟨contained handle, fun live => ?_⟩⟩
    obtain ⟨slot, found⟩ := Option.isSome_iff_exists.mp live
    exact present handle slot found

instance (body : Body) : Decidable body.Listed := decidable_of_iff _ listed_iff.symm

/-- The layout consists of the slots of all handles in the order. -/
theorem mem_laidOut_iff {body : Body} {handle : Handle} {slot : Slot} :
    (handle, slot) ∈ body.laidOut ↔
      handle ∈ body.order.toList ∧ body.slot? handle = some slot := by
  simp only [laidOut, List.mem_filterMap, Option.map_eq_some_iff, Prod.mk.injEq]
  constructor
  · rintro ⟨_, present, _, found, rfl, rfl⟩
    exact ⟨present, found⟩
  · rintro ⟨present, found⟩
    exact ⟨handle, present, slot, found, rfl, rfl⟩

/-- The oversized branches are those in the order whose offset is not near. -/
theorem mem_oversized_iff {body : Body} {branch : Handle} {opcode : Opcode} {jump : Jump} :
    (branch, opcode, jump) ∈ body.oversized ↔
      branch ∈ body.order.toList ∧ isNear jump.offset = false ∧
        ∃ slot, body.slot? branch = some slot ∧ slot.instruction = .branch opcode jump := by
  simp only [oversized, List.mem_filterMap, Prod.exists, mem_laidOut_iff]
  constructor
  · rintro ⟨handle, slot, ⟨present, found⟩, chosen⟩
    split at chosen
    · rename_i opcode' jump' same
      split at chosen
      · cases chosen
      · rename_i far
        cases chosen
        exact ⟨present, Bool.eq_false_of_not_eq_true far, slot, found, same⟩
    · cases chosen
  · rintro ⟨present, far, slot, found, same⟩
    exact ⟨branch, slot, ⟨present, found⟩, by simp [same, far]⟩

/-- An oversized branch has the shape of a branch to its target. -/
theorem shape?_of_mem_oversized {body : Body} {branch : Handle} {opcode : Opcode} {jump : Jump}
    (member : (branch, opcode, jump) ∈ body.oversized) :
    body.shape? branch = some (.branch opcode jump.target) := by
  obtain ⟨_, _, slot, found, same⟩ := mem_oversized_iff.mp member
  rw [shape?, found, Option.map_some, same]
  rfl

/-- Replacement changes the instruction of one slot and nothing else. -/
structure Replaces (handle : Handle) (instruction : Instruction Jump) (before after : Body) :
    Prop where
  present : before.contains handle = true
  slot? : ∀ other, after.slot? other =
    if other = handle then (before.slot? handle).map ({ · with instruction := instruction })
    else before.slot? other
  size : after.slots.size = before.slots.size
  rest : after = { before with slots := after.slots }

/-- Setting an instruction that is in use replaces it and nothing else. -/
theorem replaces_of_set {body result : Body} {handle : Handle} {instruction : Instruction Jump}
    (done : body.set handle instruction = .ok result) :
    Replaces handle instruction body result := by
  simp only [Body.set, exceptBind_eq_ok_iff, exceptPure_eq_ok_iff, slot_eq_ok_iff] at done
  obtain ⟨slot, found, rfl⟩ := done
  have inside := lt_size_of_slot? found
  refine ⟨contains_iff.mpr ⟨slot, found⟩, ?_, by simp, rfl⟩
  intro other
  by_cases same : other = handle
  · rw [if_pos same, same, found]
    simp [Body.slot?, inside]
  · have apart : handle.index ≠ other.index := by
      intro equal
      apply same
      cases other
      cases handle
      simpa using equal.symm
    rw [if_neg same]
    simp [Body.slot?, Array.getElem?_setIfInBounds_ne apart]

/-- A replacement puts no instruction in or out of use. -/
theorem Replaces.contains {before after : Body} {handle : Handle}
    {instruction : Instruction Jump} (replaced : Replaces handle instruction before after)
    (other : Handle) : after.contains other = before.contains other := by
  rw [Body.contains, replaced.slot?, Body.contains]
  split
  · rename_i same
    rw [same, Option.isSome_map]
  · rfl

/-- A replacement changes the shape of one instruction only. -/
theorem Replaces.shape? {before after : Body} {handle : Handle} {instruction : Instruction Jump}
    (replaced : Replaces handle instruction before after) (other : Handle) :
    after.shape? other =
      if other = handle then some instruction.shape else before.shape? other := by
  rw [Body.shape?, replaced.slot?]
  split
  · obtain ⟨slot, found⟩ := contains_iff.mp replaced.present
    simp [found]
  · rfl

theorem Replaces.shape?_self {before after : Body} {handle : Handle} {instruction : Instruction Jump}
    (replaced : Replaces handle instruction before after) :
    after.shape? handle = some instruction.shape := by
  rw [replaced.shape?, if_pos rfl]

theorem Replaces.shape?_of_ne {before after : Body} {handle other : Handle}
    {instruction : Instruction Jump} (replaced : Replaces handle instruction before after)
    (different : other ≠ handle) : after.shape? other = before.shape? other := by
  rw [replaced.shape?, if_neg different]

theorem Replaces.order {before after : Body} {handle : Handle} {instruction : Instruction Jump}
    (replaced : Replaces handle instruction before after) : after.order = before.order := by
  rw [replaced.rest]

/-- The order still lists all instructions after a replacement. -/
theorem Replaces.listed {before after : Body} {handle : Handle} {instruction : Instruction Jump}
    (replaced : Replaces handle instruction before after) (listed : before.Listed) :
    after.Listed := by
  refine ⟨by rw [replaced.order]; exact listed.distinct, fun other => ?_⟩
  rw [replaced.order, replaced.contains, listed.live]

/-- Insertion lists a new handle right after an anchor and changes nothing else. Until positions are
computed again, the new instruction takes the position of the one it displaces, or that of the end of
the code. -/
structure Inserts (anchor : Handle) (instruction : Instruction Jump) (before : Body)
    (new : Handle) (after : Body) : Prop where
  fresh : new = before.nextHandle
  present : anchor ∈ before.order.toList
  order : after.order.toList = Layout.insertAfter before.order.toList anchor new
  slot? : ∃ bci, ∀ other, after.slot? other =
    if other = new then some ⟨instruction, bci⟩ else before.slot? other
  takes : ∀ next slot, before.successor? anchor = some next → before.slot? next = some slot →
    after.slot? new = some ⟨instruction, slot.bci⟩
  ends : before.successor? anchor = none →
    after.slot? new = some ⟨instruction, before.codeLength⟩
  size : after.slots.size = before.slots.size + 1
  rest : after = { before with slots := after.slots, order := after.order }

/-- An insertion that succeeds adds an instruction after the anchor and changes nothing else. -/
theorem inserts_of_insertAfter {body result : Body} {anchor new : Handle}
    {instruction : Instruction Jump}
    (done : body.insertAfter anchor instruction = .ok (new, result)) :
    Inserts anchor instruction body new result := by
  simp only [Body.insertAfter, exceptBind_eq_ok_iff, position_eq_ok_iff] at done
  obtain ⟨position, found, done⟩ := done
  rw [Body.insert] at done
  split at done
  · simp only [Except.ok.injEq, Prod.mk.injEq] at done
    obtain ⟨rfl, rfl⟩ := done
    have placed : (body.splice (position + 1) instruction (by assumption)).slot? body.nextHandle =
        some ⟨instruction, body.bciAtPosition (position + 1)⟩ := by
      simp [Body.slot?, splice, nextHandle]
    refine ⟨rfl, Layout.mem_of_findIdx? found, ?_, ⟨body.bciAtPosition (position + 1), ?_⟩, ?_, ?_, ?_,
      rfl⟩
    · rw [← Layout.insertIdx_eq_insertAfter found]
      simp [splice]
    · intro other
      by_cases same : other = body.nextHandle
      · rw [if_pos same, same, placed]
      · have apart : other.index ≠ body.slots.size := by
          intro equal
          apply same
          cases other
          simpa [nextHandle] using equal
        rw [if_neg same]
        simp [Body.slot?, splice, Array.getElem?_push, apart]
    · intro next slot follows foundNext
      rw [Body.successor?, ← Layout.getElem?_successor found, Array.getElem?_toList] at follows
      rw [placed, bciAtPosition, follows]
      simp only [foundNext, Option.map_some, Option.getD_some]
    · intro last
      rw [Body.successor?, ← Layout.getElem?_successor found, Array.getElem?_toList] at last
      rw [placed, bciAtPosition, last]
    · simp [splice]
  · cases done

/-- A body in which one slot is new. -/
theorem contains_iff_of_slot? {before after : Body} {new : Handle} {slot : Slot}
    (slots : ∀ other, after.slot? other = if other = new then some slot else before.slot? other)
    (other : Handle) :
    after.contains other = true ↔ other = new ∨ before.contains other = true := by
  rw [Body.contains, slots]
  split
  · rename_i same
    simp [same]
  · rename_i different
    simp [different, Body.contains]

section Inserts

variable {before after : Body} {anchor new : Handle} {instruction : Instruction Jump}

/-- The new instruction is the only one that an insertion puts into use. -/
theorem Inserts.contains (inserted : Inserts anchor instruction before new after)
    (other : Handle) :
    after.contains other = true ↔ other = new ∨ before.contains other = true := by
  obtain ⟨bci, slots⟩ := inserted.slot?
  exact contains_iff_of_slot? slots other

theorem Inserts.shape? (inserted : Inserts anchor instruction before new after)
    (other : Handle) :
    after.shape? other = if other = new then some instruction.shape else before.shape? other := by
  obtain ⟨bci, slots⟩ := inserted.slot?
  rw [Body.shape?, slots]
  split
  · rfl
  · rfl

theorem Inserts.shape?_new (inserted : Inserts anchor instruction before new after) :
    after.shape? new = some instruction.shape := by
  rw [inserted.shape?, if_pos rfl]

/-- The handle of an inserted instruction was not in use before. -/
theorem Inserts.not_contains (inserted : Inserts anchor instruction before new after) :
    before.contains new = false := by
  rw [inserted.fresh, Body.contains, slot?_nextHandle]
  rfl

/-- Instructions that were in use before are not the inserted one. -/
theorem Inserts.ne_new (inserted : Inserts anchor instruction before new after) {handle : Handle}
    (present : before.contains handle = true) : handle ≠ new := by
  rintro rfl
  rw [inserted.not_contains] at present
  cases present

/-- Instructions that were in use before keep their shape. -/
theorem Inserts.shape?_of_present (inserted : Inserts anchor instruction before new after)
    {handle : Handle} {shape : Instruction Handle} (shaped : before.shape? handle = some shape) :
    after.shape? handle = some shape := by
  rw [inserted.shape?, if_neg (inserted.ne_new (contains_iff_shape?.mpr ⟨shape, shaped⟩)), shaped]

theorem Inserts.not_mem (inserted : Inserts anchor instruction before new after)
    (listed : before.Listed) : new ∉ before.order.toList := by
  rw [listed.live, inserted.not_contains]
  exact Bool.false_ne_true

/-- The order still lists all instructions after an insertion. -/
theorem Inserts.listed (inserted : Inserts anchor instruction before new after)
    (listed : before.Listed) : after.Listed := by
  refine ⟨?_, fun other => ?_⟩
  · rw [inserted.order]
    exact Layout.nodup_insertAfter listed.distinct inserted.present (inserted.not_mem listed)
  · rw [inserted.order, Layout.mem_insertAfter inserted.present, inserted.contains, listed.live]

/-- The inserted instruction follows its anchor. -/
theorem Inserts.successor?_anchor (inserted : Inserts anchor instruction before new after) :
    after.successor? anchor = some new := by
  rw [Body.successor?, inserted.order]
  exact Layout.successor?_insertAfter_anchor inserted.present

/-- The inserted instruction is followed by what followed its anchor. -/
theorem Inserts.successor?_new (inserted : Inserts anchor instruction before new after)
    (listed : before.Listed) : after.successor? new = before.successor? anchor := by
  rw [Body.successor?, inserted.order]
  exact Layout.successor?_insertAfter_new inserted.present (inserted.not_mem listed)

/-- All other instructions keep what follows them. -/
theorem Inserts.successor?_other (inserted : Inserts anchor instruction before new after)
    {other : Handle} (different : other ≠ anchor) (notNew : other ≠ new) :
    after.successor? other = before.successor? other := by
  rw [Body.successor?, inserted.order]
  exact Layout.successor?_insertAfter_other different notNew

end Inserts

end Body

end Classfile
