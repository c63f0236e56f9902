import Classfile.Proofs.BodyRoundTrip
import Classfile.Proofs.Outcomes

/-!
Removal.

What was said of a removed instruction is said of the next one from then on: a reference to it moves
there, and so does an exclusive end, which at the last instruction becomes the end of the code. The
relations `Moves` say this of each kind of data that mentions instructions. Removal either does all of
it or fails and changes nothing, and `remove_ends` tells which of the two happens.
-/

namespace Classfile

section Moves

variable (handle : Handle) (next? : Option Handle)

/-- A reference to the handle moves to the instruction after it, which has to be there, and any other
reference stays. -/
def Handle.Moves (old new : Handle) : Prop :=
  if old = handle then next? = some new else new = old

/-- An exclusive end at the handle moves to the instruction after it or to the end of the code. -/
def Handle.StopMoves (old new : Option Handle) : Prop :=
  new = if old = some handle then next? else old

/-- The offset of a jump is not computed again. -/
structure Jump.Moves (old new : Jump) : Prop where
  target : Handle.Moves handle next? old.target new.target
  offset : new.offset = old.offset

/-- Instructions that differ in the targets of their jumps alone. -/
structure Instruction.Moves (old new : Instruction Jump) : Prop where
  form : new.mapLabels (fun _ => ()) = old.mapLabels fun _ => ()
  labels : List.Forall₂ (Jump.Moves handle next?) old.labels new.labels

/-- The jumps of a slot move, and its position is not computed again. -/
structure Slot.Moves (old new : Slot) : Prop where
  instruction : old.instruction.Moves handle next? new.instruction
  bci : new.bci = old.bci

/-- The ends of a range move, and what it catches stays. -/
structure ExceptionRange.Moves (old new : ExceptionRange) : Prop where
  start : Handle.Moves handle next? old.start new.start
  stop : Handle.StopMoves handle next? old.stop new.stop
  handler : Handle.Moves handle next? old.handler new.handler
  catchType : new.catchType = old.catchType

/-- The start of a line moves. -/
structure LineNumber.Moves (old new : LineNumber) : Prop where
  start : Handle.Moves handle next? old.start new.start
  line : new.line = old.line

/-- The ends of the range of a variable move. -/
structure LocalVariable.Moves (old new : LocalVariable) : Prop where
  start : Handle.Moves handle next? old.start new.start
  stop : Handle.StopMoves handle next? old.stop new.stop
  rest : new = { old with start := new.start, stop := new.stop }

/-- The creator of a value moves. -/
inductive VerificationType.Moves : VerificationType → VerificationType → Prop
  | creator {old new : Handle} (moves : Handle.Moves handle next? old new) :
    Moves (.uninitialized old) (.uninitialized new)
  | other {type : VerificationType} (unnamed : type.creator? = none) : Moves type type

/-- The types of an encoding move. -/
inductive FrameKind.Moves : FrameKind → FrameKind → Prop
  | same : Moves .same .same
  | sameExtended : Moves .sameExtended .sameExtended
  | chop (count : UInt8) : Moves (.chop count) (.chop count)
  | oneItem {old new : VerificationType} (item : old.Moves handle next? new) :
    Moves (.oneItem old) (.oneItem new)
  | oneItemExtended {old new : VerificationType} (item : old.Moves handle next? new) :
    Moves (.oneItemExtended old) (.oneItemExtended new)
  | append {olds news : List VerificationType}
      (added : List.Forall₂ (VerificationType.Moves handle next?) olds news) :
    Moves (.append olds) (.append news)
  | full {oldLocals newLocals oldStack newStack : List VerificationType}
      (locals : List.Forall₂ (VerificationType.Moves handle next?) oldLocals newLocals)
      (stack : List.Forall₂ (VerificationType.Moves handle next?) oldStack newStack) :
    Moves (.full oldLocals oldStack) (.full newLocals newStack)

/-- The delta of a frame is not computed again. -/
structure Frame.Moves (old new : Frame) : Prop where
  target : Handle.Moves handle next? old.target new.target
  delta : new.delta = old.delta
  kind : old.kind.Moves handle next? new.kind

/-- The types of a state move. -/
structure FrameState.Moves (old new : FrameState) : Prop where
  locals : List.Forall₂ (VerificationType.Moves handle next?) old.locals new.locals
  stack : List.Forall₂ (VerificationType.Moves handle next?) old.stack new.stack

/-- The entries of a table move. -/
inductive CodeTable.Moves : CodeTable → CodeTable → Prop
  | frames {olds news : List Frame} (entries : List.Forall₂ (Frame.Moves handle next?) olds news) :
    Moves (.frames olds) (.frames news)
  | lines {olds news : List LineNumber}
      (entries : List.Forall₂ (LineNumber.Moves handle next?) olds news) :
    Moves (.lines olds) (.lines news)
  | variables {olds news : List LocalVariable}
      (entries : List.Forall₂ (LocalVariable.Moves handle next?) olds news) :
    Moves (.variables olds) (.variables news)
  | variableTypes {olds news : List LocalVariable}
      (entries : List.Forall₂ (LocalVariable.Moves handle next?) olds news) :
    Moves (.variableTypes olds) (.variableTypes news)

/-- The entries of an attribute move, and its name stays. -/
structure CodeAttribute.Moves (old new : CodeAttribute) : Prop where
  nameIndex : new.nameIndex = old.nameIndex
  table : old.table.Moves handle next? new.table

/-- A table mentions an instruction other than as an exclusive end. -/
inductive CodeTable.Mentions : CodeTable → Prop
  | target {entries : List Frame} {frame : Frame} (listed : frame ∈ entries)
      (same : frame.target = handle) : Mentions (.frames entries)
  | creator {entries : List Frame} {frame : Frame} (listed : frame ∈ entries)
      (created : .uninitialized handle ∈ frame.kind.types) : Mentions (.frames entries)
  | line {entries : List LineNumber} {entry : LineNumber} (listed : entry ∈ entries)
      (same : entry.start = handle) : Mentions (.lines entries)
  | variable {entries : List LocalVariable} {entry : LocalVariable} (listed : entry ∈ entries)
      (same : entry.start = handle) : Mentions (.variables entries)
  | variableType {entries : List LocalVariable} {entry : LocalVariable} (listed : entry ∈ entries)
      (same : entry.start = handle) : Mentions (.variableTypes entries)

/-- A body mentions an instruction other than as an exclusive end. -/
inductive Body.Mentions (body : Body) : Prop
  | label {source : Handle} {slot : Slot} {jump : Jump} (found : body.slot? source = some slot)
      (labelled : jump ∈ slot.instruction.labels) (same : jump.target = handle)
  | start {range : ExceptionRange} (listed : range ∈ body.ranges) (same : range.start = handle)
  | handler {range : ExceptionRange} (listed : range ∈ body.ranges) (same : range.handler = handle)
  | table {entry : CodeAttribute} (listed : entry ∈ body.attributes)
      (mentioned : entry.table.Mentions handle)

/-- A body without one of its instructions, where everything that was said of the instruction is said
of the next one. -/
structure Body.Removed (before after : Body) : Prop where
  order : after.order.toList = before.order.toList.filter fun other => other ≠ handle
  size : after.slots.size = before.slots.size
  gone : after.slot? handle = none
  unreferenced : handle ∉ after.references
  slots : ∀ other, other ≠ handle →
    Option.Rel (Slot.Moves handle next?) (before.slot? other) (after.slot? other)
  /-- Exactly the ranges that end where they start now are dropped. -/
  ranges : ∃ moved, List.Forall₂ (ExceptionRange.Moves handle next?) before.ranges moved ∧
    after.ranges = moved.filter fun range => range.stop ≠ some range.start
  attributes : List.Forall₂ (CodeAttribute.Moves handle next?) before.attributes after.attributes
  frames : List.Forall₂ (Frame.Moves handle next?) before.frames after.frames
  states : ∀ entry : FrameState, entry.Live (fun creator => creator ≠ handle) →
    List.Forall₂ (FrameState.Moves handle next?) (entry.expand before.frames)
      (entry.expand after.frames)
  rest : after = { before with
    slots := after.slots, order := after.order, ranges := after.ranges,
    attributes := after.attributes }

end Moves

section Change

variable {handle : Handle} {next? : Option Handle} {change : Handle → Handle}

/-- Redirecting a handle to the next instruction moves it. -/
theorem Handle.moves_redirect (handle next other : Handle) :
    Handle.Moves handle (some next) other (Handle.redirect handle next other) := by
  rw [Handle.Moves]
  split
  · rename_i same
    rw [same, Body.redirect_self]
  · rename_i different
    rw [Body.redirect_of_ne different]

/-- Other handles stay. -/
theorem Handle.moves_of_ne {other : Handle} (different : other ≠ handle) :
    Handle.Moves handle next? other other := by
  rw [Handle.Moves, if_neg different]

/-- Redirecting an end to the next instruction moves it. -/
theorem Handle.stopMoves_redirect (handle next : Handle) (stop : Option Handle) :
    Handle.StopMoves handle (some next) stop (stop.map (Handle.redirect handle next)) := by
  cases stop with
  | none => rfl
  | some other =>
    rw [Handle.StopMoves, Option.map_some, Handle.redirect]
    by_cases same : other = handle <;> simp [same]

/-- The jumps of an instruction move if their targets do. -/
theorem Instruction.moves_mapLabels {instruction : Instruction Jump}
    (moves : ∀ jump ∈ instruction.labels, Handle.Moves handle next? jump.target (change jump.target)) :
    instruction.Moves handle next?
      (instruction.mapLabels fun jump => { jump with target := change jump.target }) := by
  refine ⟨?_, ?_⟩
  · rw [mapLabels_mapLabels]
  · rw [labels_mapLabels, List.forall₂_map_right_iff, List.forall₂_same]
    exact fun jump present => ⟨moves jump present, rfl⟩

/-- A type moves if its creator does. -/
theorem VerificationType.moves_mapHandle {type : VerificationType}
    (moves : ∀ creator, type.creator? = some creator → Handle.Moves handle next? creator (change creator)) :
    type.Moves handle next? (type.mapHandle change) := by
  cases type with
  | uninitialized creator => exact .creator (moves creator rfl)
  | _ => exact .other rfl

theorem VerificationType.moves_map {types : List VerificationType}
    (moves : ∀ type ∈ types, ∀ creator, type.creator? = some creator →
      Handle.Moves handle next? creator (change creator)) :
    List.Forall₂ (VerificationType.Moves handle next?) types
      (types.map fun type => type.mapHandle change) := by
  rw [List.forall₂_map_right_iff, List.forall₂_same]
  exact fun type present => moves_mapHandle (moves type present)

theorem FrameKind.moves_mapHandle {kind : FrameKind}
    (moves : ∀ type ∈ kind.types, ∀ creator, type.creator? = some creator →
      Handle.Moves handle next? creator (change creator)) :
    kind.Moves handle next? (kind.mapHandle change) := by
  cases kind with
  | same => exact .same
  | sameExtended => exact .sameExtended
  | chop count => exact .chop count
  | oneItem item => exact .oneItem (VerificationType.moves_mapHandle (moves item (by simp [types])))
  | oneItemExtended item =>
    exact .oneItemExtended (VerificationType.moves_mapHandle (moves item (by simp [types])))
  | append added => exact .append (VerificationType.moves_map moves)
  | full locals stack =>
    refine .full (VerificationType.moves_map fun type present => ?_)
      (VerificationType.moves_map fun type present => ?_)
    · exact moves type (List.mem_append_left _ present)
    · exact moves type (List.mem_append_right _ present)

theorem Frame.moves_mapHandle {frame : Frame}
    (moves : ∀ other ∈ frame.handles, Handle.Moves handle next? other (change other)) :
    frame.Moves handle next? (frame.mapHandle change) := by
  refine ⟨moves _ List.mem_cons_self, rfl, FrameKind.moves_mapHandle ?_⟩
  intro type present creator named
  exact moves creator (List.mem_cons_of_mem _ (List.mem_filterMap.mpr ⟨type, present, named⟩))

/-- A type keeps its creator if no handle changes. -/
theorem VerificationType.mapHandle_id (type : VerificationType) : type.mapHandle id = type := by
  cases type <;> rfl

/-- A type with another creator stays as it is. -/
theorem VerificationType.moves_self {type : VerificationType}
    (apart : ∀ creator, type.creator? = some creator → creator ≠ handle) :
    type.Moves handle next? type := by
  have moves : type.Moves handle next? (type.mapHandle id) :=
    moves_mapHandle fun creator named => Handle.moves_of_ne (apart creator named)
  rwa [mapHandle_id] at moves

theorem Frame.moves_self {frame : Frame} (apart : handle ∉ frame.handles) :
    frame.Moves handle next? frame := by
  have kind : frame.kind.mapHandle id = frame.kind := by
    cases frame.kind <;> simp [FrameKind.mapHandle, VerificationType.mapHandle_id]
  have moves : frame.Moves handle next? (frame.mapHandle id) := moves_mapHandle fun other mentioned =>
    Handle.moves_of_ne fun same => apart (same ▸ mentioned)
  rwa [mapHandle, kind] at moves

/-- The entries of a table move if the handle is redirected. -/
theorem CodeTable.moves_redirect (handle next : Handle) (table : CodeTable) :
    table.Moves handle (some next) (table.mapHandle (Handle.redirect handle next)) := by
  have moved (entries : List LocalVariable) :
      List.Forall₂ (LocalVariable.Moves handle (some next)) entries
        (entries.map (LocalVariable.mapHandle (Handle.redirect handle next))) := by
    rw [List.forall₂_map_right_iff, List.forall₂_same]
    intro entry _
    exact ⟨Handle.moves_redirect handle next _, Handle.stopMoves_redirect handle next _, rfl⟩
  cases table with
  | frames entries =>
    refine .frames ?_
    rw [List.forall₂_map_right_iff, List.forall₂_same]
    exact fun frame _ => Frame.moves_mapHandle fun other _ => Handle.moves_redirect handle next other
  | lines entries =>
    refine .lines ?_
    rw [List.forall₂_map_right_iff, List.forall₂_same]
    exact fun entry _ => ⟨Handle.moves_redirect handle next _, rfl⟩
  | _ entries =>
    constructor
    exact moved entries

/-- Only exclusive ends at the last instruction change when they are released. -/
theorem CodeTable.moves_release {table : CodeTable} (unmentioned : ¬table.Mentions handle) :
    table.Moves handle none
      (table.mapStops fun stop => if stop = some handle then none else stop) := by
  have moved {entries : List LocalVariable} (apart : ∀ entry ∈ entries, entry.start ≠ handle) :
      List.Forall₂ (LocalVariable.Moves handle none) entries
        (entries.map fun entry =>
          { entry with stop := if entry.stop = some handle then none else entry.stop }) := by
    rw [List.forall₂_map_right_iff, List.forall₂_same]
    exact fun entry listed => ⟨Handle.moves_of_ne (apart entry listed), rfl, rfl⟩
  cases table with
  | frames entries =>
    refine .frames (List.forall₂_same.mpr fun frame listed => Frame.moves_self fun mentioned => ?_)
    rcases List.mem_cons.mp mentioned with same | created
    · exact unmentioned (.target listed same.symm)
    · obtain ⟨type, present, named⟩ := List.mem_filterMap.mp created
      cases type <;> cases named
      exact unmentioned (.creator listed present)
  | lines entries =>
    refine .lines (List.forall₂_same.mpr fun entry listed => ⟨Handle.moves_of_ne ?_, rfl⟩)
    exact fun same => unmentioned (.line listed same)
  | _ entries =>
    constructor
    refine moved fun entry listed same => unmentioned ?_
    constructor
    · exact listed
    · exact same

end Change

section States

variable {handle : Handle} {next? : Option Handle}

/-- States that moved have moved after a frame as well. -/
theorem FrameState.Moves.apply {old new : FrameState} (moves : old.Moves handle next? new)
    {oldKind newKind : FrameKind} (kinds : oldKind.Moves handle next? newKind) :
    (old.apply oldKind).Moves handle next? (new.apply newKind) := by
  cases kinds with
  | same | sameExtended => exact ⟨moves.locals, .nil⟩
  | oneItem item | oneItemExtended item => exact ⟨moves.locals, .cons item .nil⟩
  | chop count =>
    refine ⟨?_, .nil⟩
    change List.Forall₂ _ (old.locals.take _) (new.locals.take _)
    rw [moves.locals.length_eq]
    exact List.forall₂_take _ moves.locals
  | append added => exact ⟨List.rel_append moves.locals added, .nil⟩
  | full locals stack => exact ⟨locals, stack⟩

/-- The states that moved frames describe have moved. -/
theorem FrameState.Moves.expand {old new : FrameState} (moves : old.Moves handle next? new)
    {olds news : List Frame} (frames : List.Forall₂ (Frame.Moves handle next?) olds news) :
    List.Forall₂ (FrameState.Moves handle next?) (old.expand olds) (new.expand news) := by
  induction frames generalizing old new with
  | nil => exact .nil
  | cons first _ inductionHypothesis =>
    have applied := moves.apply first.kind
    exact .cons applied (inductionHypothesis applied)

/-- A state that does not mention the removed instruction stays as it is. -/
theorem FrameState.Live.moves {state : FrameState}
    (alive : state.Live fun creator => creator ≠ handle) : state.Moves handle next? state := by
  have same {types : List VerificationType} (among : ∀ type ∈ types, type ∈ state.locals ++ state.stack) :
      List.Forall₂ (VerificationType.Moves handle next?) types types := by
    refine List.forall₂_same.mpr fun type present => VerificationType.moves_self ?_
    exact alive type (among type present)
  exact ⟨same fun _ => List.mem_append_left _, same fun _ => List.mem_append_right _⟩

end States

namespace Body

variable {body : Body} {handle : Handle}

/-- The frames of a body have moved if its tables have. -/
theorem frames_moves {next? : Option Handle} {before after : Body}
    (attributes : List.Forall₂ (CodeAttribute.Moves handle next?) before.attributes after.attributes) :
    List.Forall₂ (Frame.Moves handle next?) before.frames after.frames := by
  rw [frames, frames, frames?, frames?]
  generalize before.attributes = olds at attributes
  generalize after.attributes = news at attributes
  induction attributes with
  | nil => exact .nil
  | cons first _ inductionHypothesis =>
    rw [List.findSome?_cons, List.findSome?_cons]
    obtain ⟨_, table⟩ := first
    revert table
    generalize CodeAttribute.table _ = old
    generalize CodeAttribute.table _ = new
    rintro table
    cases table with
    | frames entries => exact entries
    | _ => exact inductionHypothesis

/-- The handles of a table are those that it mentions. -/
theorem mem_handles_iff {table : CodeTable} : handle ∈ table.handles ↔ table.Mentions handle := by
  constructor
  · intro mentioned
    cases table with
    | frames entries =>
      obtain ⟨frame, listed, inside⟩ := List.mem_flatMap.mp mentioned
      rcases List.mem_cons.mp inside with same | created
      · exact .target listed same.symm
      · obtain ⟨type, present, named⟩ := List.mem_filterMap.mp created
        cases type <;> cases named
        exact .creator listed present
    | lines entries =>
      obtain ⟨entry, listed, same⟩ := List.mem_map.mp mentioned
      exact .line listed same
    | _ entries =>
      obtain ⟨entry, listed, same⟩ := List.mem_map.mp mentioned
      constructor
      · exact listed
      · exact same
  · intro mentioned
    cases mentioned with
    | target listed same => exact List.mem_flatMap.mpr ⟨_, listed, by simp [Frame.handles, same]⟩
    | creator listed created =>
      refine List.mem_flatMap.mpr ⟨_, listed, List.mem_cons_of_mem _ ?_⟩
      exact List.mem_filterMap.mpr ⟨_, created, rfl⟩
    | line listed same | «variable» listed same | variableType listed same =>
      exact List.mem_map.mpr ⟨_, listed, same⟩

/-- The check finds every reference other than an exclusive end, and no other. -/
theorem isReferenced_iff : body.isReferenced handle = true ↔ body.Mentions handle := by
  simp only [isReferenced, Bool.or_eq_true, Array.any_eq_true', List.any_eq_true, decide_eq_true_eq,
    mem_handles_iff]
  constructor
  · rintro ((⟨entry, present, labelled⟩ | ⟨range, listed, start | handler⟩) |
      ⟨entry, listed, mentioned⟩)
    · cases entry with
      | none => cases labelled
      | some slot =>
        obtain ⟨index, found⟩ := Array.getElem?_of_mem present
        obtain ⟨jump, member, same⟩ := List.any_eq_true.mp labelled
        have found : body.slot? ⟨index⟩ = some slot := slot?_eq_some_iff.mpr found
        exact .label found member (of_decide_eq_true same)
    · exact .start listed start
    · exact .handler listed handler
    · exact .table listed mentioned
  · intro mentioned
    cases mentioned with
    | label found labelled same =>
      refine .inl (.inl ⟨_, Array.mem_of_getElem? (slot?_eq_some_iff.mp found), ?_⟩)
      exact List.any_eq_true.mpr ⟨_, labelled, decide_eq_true same⟩
    | start listed same => exact .inl (.inr ⟨_, listed, .inl same⟩)
    | handler listed same => exact .inl (.inr ⟨_, listed, .inr same⟩)
    | table listed mentioned => exact .inr ⟨_, listed, mentioned⟩

/-- There is a frame at an instruction if it is framed. -/
theorem isSome_frameAt?_iff_framed : (body.frameAt? handle).isSome ↔ body.Framed handle :=
  isSome_frameAt?_iff

/-- What moves when an instruction is released; the instruction itself is still there. -/
structure Moved (handle : Handle) (next? : Option Handle) (before after : Body) : Prop where
  slots : ∀ other, Option.Rel (Slot.Moves handle next?) (before.slot? other) (after.slot? other)
  ranges : List.Forall₂ (ExceptionRange.Moves handle next?) before.ranges after.ranges
  attributes : List.Forall₂ (CodeAttribute.Moves handle next?) before.attributes after.attributes
  rest : after = { before with
    slots := after.slots, ranges := after.ranges, attributes := after.attributes }

/-- Replacing targets moves all references to the next instruction. -/
theorem moved_replaceTargets (body : Body) (handle next : Handle) :
    Moved handle (some next) body (body.replaceTargets handle next) := by
  refine ⟨fun other => ?_, ?_, ?_, rfl⟩
  · rw [replaceTargets, slot?_mapHandle]
    cases body.slot? other with
    | none => exact .none
    | some slot =>
      refine .some ⟨Instruction.moves_mapLabels fun jump _ => ?_, rfl⟩
      exact Handle.moves_redirect handle next jump.target
  · refine List.forall₂_map_right_iff.mpr (List.forall₂_same.mpr fun range _ => ?_)
    exact ⟨Handle.moves_redirect handle next _, Handle.stopMoves_redirect handle next _,
      Handle.moves_redirect handle next _, rfl⟩
  · refine List.forall₂_map_right_iff.mpr (List.forall₂_same.mpr fun entry _ => ?_)
    exact ⟨rfl, entry.table.moves_redirect handle next⟩

/-- If only ends refer to an instruction, releasing them moves all references to the end of the
code. -/
theorem moved_releaseStops (unmentioned : ¬body.Mentions handle) :
    Moved handle none body (body.releaseStops handle) := by
  refine ⟨fun other => ?_, ?_, ?_, rfl⟩
  · change Option.Rel _ (body.slot? other) (body.slot? other)
    cases found : body.slot? other with
    | none => exact .none
    | some slot =>
      refine .some ⟨⟨rfl, List.forall₂_same.mpr fun jump labelled => ⟨Handle.moves_of_ne ?_, rfl⟩⟩, rfl⟩
      exact fun same => unmentioned (.label found labelled same)
  · refine List.forall₂_map_right_iff.mpr (List.forall₂_same.mpr fun range listed => ?_)
    refine ⟨Handle.moves_of_ne ?_, rfl, Handle.moves_of_ne ?_, rfl⟩
    · exact fun same => unmentioned (.start listed same)
    · exact fun same => unmentioned (.handler listed same)
  · refine List.forall₂_map_right_iff.mpr (List.forall₂_same.mpr fun entry listed => ⟨rfl, ?_⟩)
    exact CodeTable.moves_release fun mentioned => unmentioned (.table listed mentioned)

/-- The next instruction can take over from a removed one. -/
structure Replaceable (body : Body) (handle : Handle) : Prop where
  unframed : ∀ next, body.successor? handle = some next →
    ¬(body.Framed handle ∧ body.Framed next)
  unmentioned : body.successor? handle = none → ¬body.Mentions handle

/-- An instruction that can be replaced can be released. -/
theorem Replaceable.exists_release (replaceable : body.Replaceable handle) :
    ∃ released, body.release handle (body.successor? handle) = .ok released ∧
      Moved handle (body.successor? handle) body released := by
  unfold release
  cases follows : body.successor? handle with
  | some next =>
    have free := replaceable.unframed next follows
    simp only [isSome_frameAt?_iff_framed, if_neg free]
    exact ⟨_, rfl, moved_replaceTargets body handle next⟩
  | none =>
    have free := replaceable.unmentioned follows
    have unreferenced : ¬body.isReferenced handle = true := isReferenced_iff.not.mpr free
    simp only [if_neg unreferenced]
    exact ⟨_, rfl, moved_releaseStops free⟩

/-- Everything else that removal does is done once the instruction is released. -/
theorem Intact.removed_of_released (intact : body.Intact) {released : Body} {slot : Slot}
    (freed : body.release handle (body.successor? handle) = .ok released)
    (found : released.slot? handle = some slot) :
    ∃ after, body.removed handle =
        .ok (slot.instruction, released.ranges.filter ExceptionRange.isEmpty, after) ∧
      after.ranges = released.ranges.filter (fun range => range.stop ≠ some range.start) ∧
      after.attributes = released.attributes ∧
      (∀ other, after.slot? other = if other = handle then none else released.slot? other) ∧
      after = { released with slots := after.slots, order := after.order, ranges := after.ranges } := by
  -- Only the slot, its place in the layout and the emptied ranges are left to be dealt with.
  have present : body.contains handle = true := by
    rw [← (intact.releases freed).contains]
    exact contains_iff.mpr ⟨slot, found⟩
  obtain ⟨position, located⟩ := Layout.findIdx?_of_mem ((intact.listed.live handle).mpr present)
  have inside := lt_size_of_slot? found
  refine ⟨{ released.clear handle position with
    ranges := released.ranges.filter (not ∘ ExceptionRange.isEmpty) }, ?_, ?_, rfl, fun other => ?_, rfl⟩
  · rw [removed, position_eq_ok_iff.mpr located]
    change (body.release handle body.order[position + 1]? >>= _) = _
    rw [← Array.getElem?_toList, Layout.getElem?_successor located, ← successor?, freed]
    change (released.get handle >>= _) = _
    rw [get_eq_ok_iff.mpr ⟨slot, found, rfl⟩, List.partition_eq_filter_filter]
    rfl
  · refine List.filter_congr fun range _ => ?_
    simp [ExceptionRange.isEmpty]
  · by_cases same : other = handle
    · rw [if_pos same, same]
      simp [Body.slot?, Body.clear, inside]
    · rw [if_neg same]
      simp [Body.slot?, Body.clear, Array.getElem?_setIfInBounds_ne (Handle.index_ne (Ne.symm same))]

/-- One report is made for each of some items. -/
theorem forM_report {S A : Type} (event : Event) (items : List A) (before : Logged S) :
    (items.forM fun _ => Task.report event) before =
      .ok () ⟨before.state, before.events ++ Array.replicate items.length event⟩ := by
  induction items generalizing before with
  | nil => simp [Task.forM_nil]
  | cons _ items inductionHypothesis =>
    refine Task.forM_cons_eq_ok_iff.mpr ⟨_, Task.report_eq_ok_iff.mpr rfl, ?_⟩
    rw [inductionHypothesis, ← Array.append_singleton, Array.append_assoc, List.length_cons,
      Nat.add_comm, ← Array.replicate_append_replicate]
    rfl

/-- The run of a removal whose checks succeed. -/
theorem run_remove {instruction : Instruction Jump} {emptied : List ExceptionRange} {after : Body}
    (done : body.removed handle = .ok (instruction, emptied, after)) (events : Array Event) :
    Body.remove handle ⟨body, events⟩ =
      .ok instruction ⟨after, events ++ Array.replicate emptied.length (.handlerDropped handle)⟩ := by
  refine Task.bind_eq_ok_iff.mpr ⟨body, ⟨body, events⟩, rfl, ?_⟩
  refine Task.bind_eq_ok_iff.mpr ⟨_, ⟨body, events⟩, Task.ofExcept_eq_ok_iff.mpr ⟨done, rfl⟩, ?_⟩
  refine Task.bind_eq_ok_iff.mpr ⟨(), ⟨after, events⟩, rfl, ?_⟩
  exact Task.bind_eq_ok_iff.mpr ⟨(), _, forM_report _ emptied _, rfl⟩

/-- The run of a removal whose checks fail. -/
theorem run_remove_of_release (intact : body.Intact) (present : body.contains handle = true)
    {error : Error} (failed : body.release handle (body.successor? handle) = .error error)
    (events : Array Event) :
    Body.remove handle ⟨body, events⟩ = .error error ⟨body, events⟩ := by
  obtain ⟨position, located⟩ := Layout.findIdx?_of_mem ((intact.listed.live handle).mpr present)
  have stopped : body.removed handle = .error error := by
    rw [removed, position_eq_ok_iff.mpr located]
    change (body.release handle body.order[position + 1]? >>= _) = _
    rw [← Array.getElem?_toList, Layout.getElem?_successor located, ← successor?, failed]
    rfl
  have read : (Task.read : Task Body Body) ⟨body, events⟩ = .ok body ⟨body, events⟩ := rfl
  rw [Body.remove, Task.bind_of_eq_ok read, stopped]
  rfl

/-- What the next instruction can take over it does. -/
theorem Replaceable.exists_removed (replaceable : body.Replaceable handle) (intact : body.Intact)
    (present : body.contains handle = true) :
    ∃ slot instruction emptied after,
      body.removed handle = .ok (instruction, emptied, after) ∧
      body.slot? handle = some slot ∧
      slot.instruction.Moves handle (body.successor? handle) instruction ∧
      body.ranges.length = after.ranges.length + emptied.length ∧
      Removed handle (body.successor? handle) body after := by
  obtain ⟨slot, found⟩ := contains_iff.mp present
  obtain ⟨released, freed, moved⟩ := replaceable.exists_release
  have atHandle := moved.slots handle
  rw [found] at atHandle
  cases kept : released.slot? handle with
  | none =>
    rw [kept] at atHandle
    cases atHandle
  | some keptSlot =>
    rw [kept] at atHandle
    cases atHandle with
    | some movedSlot =>
      obtain ⟨after, done, ranges, attributes, cleared, rest⟩ := intact.removed_of_released freed kept
      have removes := intact.removes done
      have tables : List.Forall₂ (CodeAttribute.Moves handle (body.successor? handle))
          body.attributes after.attributes := by
        rw [attributes]
        exact moved.attributes
      have frames := frames_moves tables
      refine ⟨slot, keptSlot.instruction, _, after, done, found, movedSlot.instruction, ?_,
        ⟨removes.order, removes.size, ?_, ?_, ?_, ⟨_, moved.ranges, ranges⟩, tables, frames, ?_, ?_⟩⟩
      · rw [moved.ranges.length_eq, ranges, List.length_eq_length_filter_add ExceptionRange.isEmpty,
          Nat.add_comm]
        congr 2
        refine List.filter_congr fun range _ => ?_
        simp [ExceptionRange.isEmpty]
      · rw [cleared, if_pos rfl]
      · intro mentioned
        obtain ⟨_, freedAgain, _, fewer⟩ := removes.released
        exact ((intact.releases freedAgain).references handle (fewer handle mentioned)).2 rfl
      · intro other different
        rw [cleared, if_neg different]
        exact moved.slots other
      · exact fun entry alive => alive.moves.expand frames
      · rw [rest, moved.rest]

/-- Removal of an instruction of an intact body is all or nothing. It fails, and changes nothing, if
frames would meet on the next instruction, or if the instruction is the last one and is mentioned
other than as an exclusive end. Otherwise it succeeds, and everything that was said of the instruction
is said of the next one. Each exception range emptied by that is reported. -/
theorem remove_all_or_nothing (intact : body.Intact) (present : body.contains handle = true)
    (events : Array Event) :
    (∀ next, body.successor? handle = some next → body.Framed handle → body.Framed next →
      Body.remove handle ⟨body, events⟩ = .error (.conflictingFrames next) ⟨body, events⟩) ∧
    (body.successor? handle = none → body.Mentions handle →
      Body.remove handle ⟨body, events⟩ = .error (.danglingReference handle) ⟨body, events⟩) ∧
    (body.Replaceable handle → ∃ slot instruction after dropped,
      Body.remove handle ⟨body, events⟩ =
        .ok instruction ⟨after, events ++ Array.replicate dropped (.handlerDropped handle)⟩ ∧
      body.slot? handle = some slot ∧
      slot.instruction.Moves handle (body.successor? handle) instruction ∧
      body.ranges.length = after.ranges.length + dropped ∧
      Removed handle (body.successor? handle) body after) := by
  refine ⟨fun next follows framed nextFramed => ?_, fun last mentioned => ?_, fun replaceable => ?_⟩
  · refine run_remove_of_release intact present ?_ events
    rw [follows]
    exact if_pos ⟨isSome_frameAt?_iff_framed.mpr framed, isSome_frameAt?_iff_framed.mpr nextFramed⟩
  · refine run_remove_of_release intact present ?_ events
    rw [last]
    exact if_pos (isReferenced_iff.mpr mentioned)
  · obtain ⟨slot, instruction, emptied, after, done, found, moves, counted, removed⟩ :=
      replaceable.exists_removed intact present
    exact ⟨slot, instruction, after, emptied.length, run_remove done events, found, moves, counted,
      removed⟩

/-- A branch to itself that everything else refers to as well. A range starts at it and ends at the
instruction after it, and another one ends at it. -/
def selfJump : Body where
  nameIndex := 1
  maxStack := 1
  maxLocals := 1
  slots := #[some ⟨.simple .iconst0, 0⟩, some ⟨.branch .ifeq ⟨⟨1⟩, 0⟩, 1⟩, some ⟨.simple .returnVoid, 4⟩]
  order := #[⟨0⟩, ⟨1⟩, ⟨2⟩]
  codeLength := 5
  ranges := [⟨⟨1⟩, some ⟨2⟩, ⟨1⟩, none⟩, ⟨⟨0⟩, some ⟨1⟩, ⟨2⟩, none⟩]
  attributes := [
    ⟨2, .frames [⟨⟨1⟩, 1, .oneItem (.uninitialized ⟨1⟩)⟩]⟩,
    ⟨3, .lines [⟨⟨0⟩, 7⟩, ⟨⟨1⟩, 8⟩]⟩,
    ⟨4, .variables [⟨⟨1⟩, some ⟨1⟩, 5, 6, 0⟩]⟩]
  context := none

theorem remove_all_or_nothing_selfJump :
    selfJump.Intact ∧ selfJump.contains ⟨1⟩ = true ∧ ∃ instruction after dropped,
      Body.remove ⟨1⟩ ⟨selfJump, #[]⟩ =
        .ok instruction ⟨after, #[] ++ Array.replicate dropped (.handlerDropped ⟨1⟩)⟩ ∧
      Removed ⟨1⟩ (some ⟨2⟩) selfJump after := by
  have intact : selfJump.Intact := ⟨by decide, by decide⟩
  have present : selfJump.contains ⟨1⟩ = true := rfl
  have follows : selfJump.successor? ⟨1⟩ = some ⟨2⟩ := rfl
  have replaceable : selfJump.Replaceable ⟨1⟩ := by
    refine ⟨fun next known => ?_, fun last => ?_⟩
    · rw [follows, Option.some.injEq] at known
      rw [← known]
      decide
    · rw [follows] at last
      cases last
  obtain ⟨_, instruction, after, dropped, ran, _, _, _, removed⟩ :=
    (remove_all_or_nothing intact present #[]).2.2 replaceable
  exact ⟨intact, present, instruction, after, dropped, ran, follows ▸ removed⟩

end Body

end Classfile
