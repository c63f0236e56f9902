import Classfile.Proofs.Removal

/-!
Insertion taken back.

Changing handles is an action on bodies: one change after another is their composite, and a change that
fixes all references does nothing. Redirecting references to a new instruction and back is such a
change, so an instruction that is inserted and removed again leaves no trace but its empty slot, whether
or not it took over the references of its anchor in between.
-/

namespace Classfile

section Composition

variable (first second : Handle → Handle)

/-- Two changes of the creator of a type are one change. -/
theorem VerificationType.mapHandle_mapHandle (type : VerificationType) :
    (type.mapHandle first).mapHandle second = type.mapHandle (second ∘ first) := by
  cases type <;> rfl

theorem FrameKind.mapHandle_mapHandle (kind : FrameKind) :
    (kind.mapHandle first).mapHandle second = kind.mapHandle (second ∘ first) := by
  cases kind <;> simp [mapHandle, VerificationType.mapHandle_mapHandle]

theorem Frame.mapHandle_mapHandle (frame : Frame) :
    (frame.mapHandle first).mapHandle second = frame.mapHandle (second ∘ first) := by
  simp [mapHandle, FrameKind.mapHandle_mapHandle]

theorem ExceptionRange.mapHandle_mapHandle (range : ExceptionRange) :
    (range.mapHandle first).mapHandle second = range.mapHandle (second ∘ first) := by
  simp [mapHandle]

theorem LocalVariable.mapHandle_mapHandle (entry : LocalVariable) :
    (entry.mapHandle first).mapHandle second = entry.mapHandle (second ∘ first) := by
  simp [mapHandle]

theorem CodeTable.mapHandle_mapHandle (table : CodeTable) :
    (table.mapHandle first).mapHandle second = table.mapHandle (second ∘ first) := by
  cases table with
  | frames entries => simp [mapHandle, Frame.mapHandle_mapHandle]
  | lines entries => simp [mapHandle]
  | _ entries => simp [mapHandle, LocalVariable.mapHandle_mapHandle]

/-- Two changes of the handles of a body are one change. -/
theorem Body.mapHandle_mapHandle (body : Body) :
    (body.mapHandle first).mapHandle second = body.mapHandle (second ∘ first) := by
  simp [mapHandle, Function.comp_def, Instruction.mapLabels_mapLabels,
    ExceptionRange.mapHandle_mapHandle, CodeTable.mapHandle_mapHandle]

end Composition

section Fixed

variable {change : Handle → Handle}

theorem map_eq_self {A : Type} {act : A → A} {items : List A} (fixed : ∀ item ∈ items, act item = item) :
    items.map act = items :=
  (List.map_congr_left fixed).trans (List.map_id items)

/-- A change that keeps the creator of a type keeps the type. -/
theorem VerificationType.mapHandle_eq_self {type : VerificationType}
    (fixed : ∀ creator, type.creator? = some creator → change creator = creator) :
    type.mapHandle change = type := by
  cases type with
  | uninitialized creator => rw [mapHandle, fixed creator rfl]
  | _ => rfl

theorem FrameKind.mapHandle_eq_self {kind : FrameKind}
    (fixed : ∀ type ∈ kind.types, ∀ creator, type.creator? = some creator →
      change creator = creator) : kind.mapHandle change = kind := by
  have listed {types : List VerificationType} (among : ∀ type ∈ types, type ∈ kind.types) :
      types.map (·.mapHandle change) = types :=
    map_eq_self fun type present => VerificationType.mapHandle_eq_self (fixed type (among type present))
  cases kind with
  | oneItem item | oneItemExtended item =>
    rw [mapHandle, VerificationType.mapHandle_eq_self (fixed item (by simp [types]))]
  | append added => exact congrArg append (listed fun _ present => present)
  | full locals stack =>
    exact congrArg₂ full (listed fun _ present => List.mem_append_left _ present)
      (listed fun _ present => List.mem_append_right _ present)
  | _ => rfl

theorem Frame.mapHandle_eq_self {frame : Frame} (fixed : ∀ other ∈ frame.handles, change other = other) :
    frame.mapHandle change = frame := by
  have kind : frame.kind.mapHandle change = frame.kind := by
    refine FrameKind.mapHandle_eq_self fun type present creator named => fixed creator ?_
    exact List.mem_cons_of_mem _ (List.mem_filterMap.mpr ⟨type, present, named⟩)
  rw [mapHandle, kind, fixed frame.target List.mem_cons_self]

/-- An exclusive end is changed only if it names an instruction. -/
theorem mapStop_eq_self {stop : Option Handle} (fixed : ∀ other ∈ stop.toList, change other = other) :
    stop.map change = stop := by
  cases stop with
  | none => rfl
  | some other => rw [Option.map_some, fixed other (by simp)]

theorem ExceptionRange.mapHandle_eq_self {range : ExceptionRange}
    (fixed : ∀ other ∈ range.references, change other = other) : range.mapHandle change = range := by
  simp only [references, List.forall_mem_cons] at fixed
  rw [mapHandle, fixed.1, fixed.2.1, mapStop_eq_self fixed.2.2]

theorem LocalVariable.mapHandle_eq_self {entry : LocalVariable}
    (fixed : ∀ other ∈ entry.references, change other = other) : entry.mapHandle change = entry := by
  simp only [references, List.forall_mem_cons] at fixed
  rw [mapHandle, fixed.1, mapStop_eq_self fixed.2]

theorem CodeTable.mapHandle_eq_self {table : CodeTable}
    (fixed : ∀ other ∈ table.references, change other = other) : table.mapHandle change = table := by
  have unchanged {entries : List LocalVariable}
      (fixed : ∀ other ∈ entries.flatMap LocalVariable.references, change other = other) :
      entries.map (LocalVariable.mapHandle change) = entries :=
    map_eq_self fun entry listed => LocalVariable.mapHandle_eq_self fun other mentioned =>
      fixed other (List.mem_flatMap.mpr ⟨entry, listed, mentioned⟩)
  cases table with
  | frames entries =>
    refine congrArg CodeTable.frames (map_eq_self fun frame listed => ?_)
    exact Frame.mapHandle_eq_self fun other mentioned =>
      fixed other (List.mem_flatMap.mpr ⟨frame, listed, mentioned⟩)
  | lines entries =>
    refine congrArg CodeTable.lines (map_eq_self fun entry listed => ?_)
    rw [fixed entry.start (List.mem_map_of_mem listed)]
  | _ entries => rw [mapHandle, unchanged fixed]

/-- A change that fixes every reference of a body leaves the body alone. -/
theorem Body.mapHandle_eq_self {body : Body}
    (fixed : ∀ other ∈ body.references, change other = other) : body.mapHandle change = body := by
  have slots : (body.mapHandle change).slots = body.slots := by
    refine Array.ext_getElem? fun index => ?_
    rw [mapHandle, Array.getElem?_map]
    cases stored : body.slots[index]? with
    | none => rfl
    | some entry =>
      cases entry with
      | none => rfl
      | some slot =>
        have found : body.slot? ⟨index⟩ = some slot := slot?_eq_some_iff.mpr stored
        have instruction : (slot.instruction.mapLabels fun jump =>
            { jump with target := change jump.target }) = slot.instruction :=
          Instruction.mapLabels_eq_self fun jump labelled => by
            rw [fixed jump.target (mem_references_of_label found labelled)]
        simp only [Option.map_some, instruction]
  have ranges : (body.mapHandle change).ranges = body.ranges :=
    map_eq_self fun range listed => ExceptionRange.mapHandle_eq_self fun other mentioned =>
      fixed other (mem_references_iff.mpr (.inr (.inl ⟨range, listed, mentioned⟩)))
  have attributes : (body.mapHandle change).attributes = body.attributes := by
    refine map_eq_self fun entry listed => ?_
    rw [CodeTable.mapHandle_eq_self fun other mentioned =>
      fixed other (mem_references_iff.mpr (.inr (.inr ⟨entry, listed, mentioned⟩)))]
  calc body.mapHandle change
      = { body with
          slots := (body.mapHandle change).slots
          ranges := (body.mapHandle change).ranges
          attributes := (body.mapHandle change).attributes } := rfl
    _ = body := by rw [slots, ranges, attributes]

end Fixed

namespace Body

variable {body : Body} {anchor other : Handle} {instruction : Instruction Jump} {position : Nat}

/-- Nothing moves from an instruction that nothing refers to. -/
theorem replaceTargets_of_unreferenced {old : Handle} (new : Handle) (unreferenced : old ∉ body.references) :
    body.replaceTargets old new = body := by
  refine mapHandle_eq_self fun other mentioned => redirect_of_ne ?_
  rintro rfl
  exact unreferenced mentioned

/-- References that move to an instruction that nothing refers to can be moved back. -/
theorem replaceTargets_replaceTargets {old new : Handle} (unreferenced : new ∉ body.references) :
    (body.replaceTargets old new).replaceTargets new old = body := by
  rw [replaceTargets, replaceTargets, mapHandle_mapHandle]
  refine mapHandle_eq_self fun other mentioned => ?_
  have different : other ≠ new := by
    rintro rfl
    exact unreferenced mentioned
  by_cases same : other = old
  · rw [Function.comp_apply, same, redirect_self, redirect_self]
  · rw [Function.comp_apply, redirect_of_ne same, redirect_of_ne different]

/-- Nothing refers to a new instruction but what is done later. -/
theorem Intact.unreferenced_splice (intact : body.Intact) (inside : position ≤ body.order.size)
    (live : ∀ jump ∈ instruction.labels, body.contains jump.target = true) :
    body.nextHandle ∉ (body.splice position instruction inside).references := by
  have fresh {handle : Handle} (alive : body.contains handle = true) : handle ≠ body.nextHandle := by
    rintro rfl
    rw [not_contains_nextHandle] at alive
    cases alive
  intro mentioned
  rcases mem_references_splice inside mentioned with labelled | old
  · obtain ⟨jump, member, same⟩ := List.mem_map.mp labelled
    exact fresh (live jump member) same
  · exact fresh (intact.live _ old) rfl

/-- The body with one more slot that holds no instruction. -/
def withEmptySlot (body : Body) : Body := { body with slots := body.slots.push none }

/-- An empty slot is none of the instructions. -/
theorem slot?_withEmptySlot (body : Body) (handle : Handle) :
    body.withEmptySlot.slot? handle = body.slot? handle := by
  simp only [Body.slot?, withEmptySlot, Array.getElem?_push]
  split
  · rename_i last
    rw [last, Array.getElem?_eq_none (Nat.le_refl _)]
    rfl
  · rfl

/-- An empty slot is not written. -/
theorem toBytes_withEmptySlot (body : Body) : body.withEmptySlot.toBytes = body.toBytes := by
  have slots : body.withEmptySlot.slot? = body.slot? := funext body.slot?_withEmptySlot
  have laidOut : body.withEmptySlot.laidOut = body.laidOut := by
    rw [Body.laidOut, slots]
    rfl
  have bci : body.withEmptySlot.bci = body.bci := by
    funext handle
    rw [Body.bci, Body.slot, slots]
    rfl
  rw [toBytes, codeBytes, payloadSize, encodedLength, laidOut, bci]
  rfl

/-- A spliced instruction that is cleared again leaves an empty slot. -/
theorem clear_splice (inside : position ≤ body.order.size) :
    (body.splice position instruction inside).clear body.nextHandle position = body.withEmptySlot := by
  have order : (body.order.insertIdx position body.nextHandle inside).eraseIdxIfInBounds position =
      body.order := by
    rw [Array.eraseIdxIfInBounds, dif_pos (by simp; omega), Array.eraseIdx_insertIdx_self]
  have slots (slot : Slot) :
      (body.slots.push (some slot)).setIfInBounds body.nextHandle.index none = body.slots.push none := by
    refine Array.ext_getElem? fun index => ?_
    simp only [nextHandle, Array.getElem?_setIfInBounds, Array.getElem?_push, Array.size_push]
    by_cases last : index = body.slots.size
    · simp [last]
    · simp [last, Ne.symm last]
  rw [clear, splice, order, slots, withEmptySlot]

/-- A spliced instruction has the position that was asked for. -/
theorem Listed.position_splice (listed : body.Listed) (inside : position ≤ body.order.size) :
    (body.splice position instruction inside).position body.nextHandle = .ok position := by
  have within : position ≤ body.order.toList.length := by simpa using inside
  rw [position_eq_ok_iff, order_splice, List.findIdx?_eq_some_iff_getElem]
  refine ⟨by rw [List.length_insertIdx_of_le_length within]; omega, ?_, fun earlier before => ?_⟩
  · rw [List.getElem_insertIdx_self]
    exact decide_eq_true rfl
  · rw [List.getElem_insertIdx_of_lt before]
    intro same
    have member : body.order.toList[earlier] ∈ body.order.toList := List.getElem_mem _
    rw [of_decide_eq_true same, listed.live, not_contains_nextHandle] at member
    cases member

/-- A body refers to the instructions that have a frame. -/
theorem mem_references_of_frameAt? {handle : Handle} (framed : (body.frameAt? handle).isSome) :
    handle ∈ body.references := by
  obtain ⟨frame, member, rfl⟩ := isSome_frameAt?_iff.mp framed
  exact mem_references_of_mem_frames member List.mem_cons_self

/-- A new instruction is removed where the references that its anchor gets are those that the anchor
had before, and one of the two has no frame. -/
theorem Intact.removed_of_returned (intact : body.Intact) {middle : Body}
    (inside : position ≤ body.order.size) (displaced : body.order[position]? = some anchor)
    (nonempty : ∀ range ∈ body.ranges, range.stop ≠ some range.start)
    (laidOut : middle.order = (body.splice position instruction inside).order)
    (returned : middle.replaceTargets body.nextHandle anchor = body.splice position instruction inside)
    (unframed : body.nextHandle ∉ middle.references ∨ anchor ∉ middle.references) :
    middle.removed body.nextHandle = .ok (instruction, [], body.withEmptySlot) := by
  have located : middle.position body.nextHandle = .ok position := by
    rw [Body.position, position?, laidOut]
    exact intact.listed.position_splice inside
  have follows : middle.order[position + 1]? = some anchor := by
    rw [laidOut, ← displaced, ← Array.getElem?_toList, ← Array.getElem?_toList, order_splice,
      List.getElem?_insertIdx_of_gt (Nat.lt_succ_self position)]
    rfl
  -- Two frames at one place are the only thing in the way of a release.
  have released : middle.release body.nextHandle (some anchor) =
      .ok (body.splice position instruction inside) := by
    rw [release, if_neg, returned]
    rintro ⟨framed, anchorFramed⟩
    rcases unframed with absent | absent
    · exact absent (mem_references_of_frameAt? framed)
    · exact absent (mem_references_of_frameAt? anchorFramed)
  have found : (body.splice position instruction inside).get body.nextHandle = .ok instruction :=
    get_eq_ok_iff.mpr ⟨_, by rw [slot?_splice, if_pos rfl], rfl⟩
  have ranges : (body.splice position instruction inside).ranges.partition ExceptionRange.isEmpty =
      ([], body.ranges) := by
    change body.ranges.partition ExceptionRange.isEmpty = ([], body.ranges)
    rw [List.partition_eq_filter_filter, Prod.mk.injEq, List.filter_eq_nil_iff, List.filter_eq_self]
    refine ⟨fun range listed => ?_, fun range listed => ?_⟩
    · simpa [ExceptionRange.isEmpty] using nonempty range listed
    · simpa [ExceptionRange.isEmpty] using nonempty range listed
  rw [removed, located]
  change (middle.release body.nextHandle middle.order[position + 1]? >>= _) = _
  rw [follows, released]
  change (Body.get (body.splice position instruction inside) body.nextHandle >>= _) = _
  rw [found, ranges, clear_splice]
  rfl

/-- An instruction that is inserted before another one can be removed again, whether or not it took over
the references of the other one in between. The body is then the same but for an empty slot, and it is
written as the same bytes. -/
theorem insertBefore_undone (intact : body.Intact)
    (nonempty : ∀ range ∈ body.ranges, range.stop ≠ some range.start)
    (present : body.contains anchor = true)
    (live : ∀ jump ∈ instruction.labels, body.contains jump.target = true) (events : Array Event) :
    ∃ inserted, body.insertBefore anchor instruction = .ok (body.nextHandle, inserted) ∧
      Body.remove body.nextHandle ⟨inserted.replaceTargets anchor body.nextHandle, events⟩ =
        .ok instruction ⟨body.withEmptySlot, events⟩ ∧
      Body.remove body.nextHandle ⟨inserted, events⟩ = .ok instruction ⟨body.withEmptySlot, events⟩ ∧
      (∀ handle, body.withEmptySlot.slot? handle = body.slot? handle) ∧
      body.withEmptySlot.toBytes = body.toBytes := by
  obtain ⟨position, inside, displaced, inserted⟩ :=
    exists_splice_insertBefore ((intact.listed.live anchor).mpr present) instruction
  have unreferenced := intact.unreferenced_splice inside live
  have different : body.nextHandle ≠ anchor := by
    rintro rfl
    rw [not_contains_nextHandle] at present
    cases present
  have unanchored : anchor ∉
      ((body.splice position instruction inside).replaceTargets anchor body.nextHandle).references :=
    fun mentioned => (mem_references_replaceTargets different mentioned).1 rfl
  -- Removal hands the references back to the anchor, whether they were taken over or never left it.
  have takenOver : ((body.splice position instruction inside).replaceTargets anchor
      body.nextHandle).removed body.nextHandle = .ok (instruction, [], body.withEmptySlot) :=
    intact.removed_of_returned inside displaced nonempty rfl (replaceTargets_replaceTargets unreferenced)
      (.inr unanchored)
  have left : (body.splice position instruction inside).removed body.nextHandle =
      .ok (instruction, [], body.withEmptySlot) :=
    intact.removed_of_returned inside displaced nonempty rfl
      (replaceTargets_of_unreferenced anchor unreferenced) (.inl unreferenced)
  exact ⟨_, inserted, run_remove takenOver events, run_remove left events, body.slot?_withEmptySlot,
    body.toBytes_withEmptySlot⟩

theorem insertBefore_undone_selfJump :
    selfJump.Intact ∧ (∀ range ∈ selfJump.ranges, range.stop ≠ some range.start) ∧
      selfJump.contains ⟨1⟩ = true ∧ ∃ inserted,
        selfJump.insertBefore ⟨1⟩ (.branch .ifeq (.to ⟨1⟩)) = .ok (⟨3⟩, inserted) ∧
        Body.remove ⟨3⟩ ⟨inserted.replaceTargets ⟨1⟩ ⟨3⟩, #[]⟩ =
          .ok (.branch .ifeq (.to ⟨1⟩)) ⟨selfJump.withEmptySlot, #[]⟩ ∧
        Body.remove ⟨3⟩ ⟨inserted, #[]⟩ =
          .ok (.branch .ifeq (.to ⟨1⟩)) ⟨selfJump.withEmptySlot, #[]⟩ := by
  have intact : selfJump.Intact := ⟨by decide, by decide⟩
  have nonempty : ∀ range ∈ selfJump.ranges, range.stop ≠ some range.start := by decide
  have live : ∀ jump ∈ (Instruction.branch .ifeq (Jump.to ⟨1⟩)).labels,
      selfJump.contains jump.target = true := by decide
  obtain ⟨inserted, spliced, takenOver, left, _⟩ :=
    @insertBefore_undone selfJump ⟨1⟩ _ intact nonempty rfl live #[]
  exact ⟨intact, nonempty, rfl, inserted, spliced, takenOver, left⟩

end Body

end Classfile
