import Classfile.Proofs.BodySoundness
import Classfile.Proofs.IslandPlacement

/-!
The references of a body.

Jumps, exception ranges and tables refer to instructions by handle. `Body.references` collects these
handles, and a body is intact if its layout lists its instructions and every reference leads to one
of them. Insertion, replacement and removal keep a body intact, and what they do to the layout keeps
frames in order.
-/

namespace Classfile

namespace Layout

/-- Inserting a handle that a filter drops does not change what the filter keeps. -/
theorem filter_insertIdx {order : List Handle} {position : Nat} {new : Handle}
    {keep : Handle → Bool} (dropped : keep new = false) :
    (order.insertIdx position new).filter keep = order.filter keep := by
  induction order generalizing position with
  | nil => cases position <;> simp [dropped]
  | cons first rest inductionHypothesis =>
    cases position with
    | zero => simp [dropped]
    | succ position =>
      rw [List.insertIdx_succ_cons, List.filter_cons, List.filter_cons, inductionHypothesis]

/-- The order without the place of a handle is the order without the handle. -/
theorem eraseIdx_eq_filter {order : List Handle} {position : Nat} {handle : Handle} (distinct : order.Nodup)
    (found : order.findIdx? (fun other => other = handle) = some position) :
    order.eraseIdx position = order.filter fun other => other ≠ handle := by
  induction order generalizing position with
  | nil => simp at found
  | cons first rest inductionHypothesis =>
    obtain ⟨absent, distinct⟩ := List.nodup_cons.mp distinct
    rw [List.findIdx?_cons] at found
    by_cases same : first = handle
    · simp only [same, decide_true, if_true, Option.some.injEq] at found
      have untouched : rest.filter (fun other => other ≠ handle) = rest := by
        refine List.filter_eq_self.mpr fun other present => ?_
        exact decide_eq_true fun equal => absent (by rwa [same, ← equal])
      rw [← found, List.eraseIdx_cons_zero, List.filter_cons_of_neg (by simp [same]), untouched]
    · simp only [same, decide_false, Bool.false_eq_true, if_false, Option.map_eq_some_iff] at found
      obtain ⟨earlier, foundRest, rfl⟩ := found
      rw [List.eraseIdx_cons_succ, List.filter_cons_of_pos (by simp [same]),
        inductionHypothesis distinct foundRest]

end Layout

/-- The instructions a range refers to. -/
def ExceptionRange.references (range : ExceptionRange) : List Handle :=
  range.start :: range.handler :: range.stop.toList

/-- The instructions a variable refers to. -/
def LocalVariable.references (entry : LocalVariable) : List Handle :=
  entry.start :: entry.stop.toList

/-- The instructions a table refers to, exclusive ends included. -/
def CodeTable.references : CodeTable → List Handle
  | .frames entries => entries.flatMap Frame.handles
  | .lines entries => entries.map LineNumber.start
  | .variables entries | .variableTypes entries => entries.flatMap LocalVariable.references

/-- A range with other handles refers to those. -/
theorem ExceptionRange.references_mapHandle (change : Handle → Handle) (range : ExceptionRange) :
    (range.mapHandle change).references = range.references.map change := by
  cases stop : range.stop <;> simp [references, mapHandle, stop]

theorem LocalVariable.references_mapHandle (change : Handle → Handle) (entry : LocalVariable) :
    (entry.mapHandle change).references = entry.references.map change := by
  cases stop : entry.stop <;> simp [references, mapHandle, stop]

theorem VerificationType.creator?_mapHandle (change : Handle → Handle) (type : VerificationType) :
    (type.mapHandle change).creator? = type.creator?.map change := by
  cases type <;> rfl

theorem FrameKind.types_mapHandle (change : Handle → Handle) (kind : FrameKind) :
    (kind.mapHandle change).types = kind.types.map (·.mapHandle change) := by
  cases kind <;> simp [mapHandle, types]

theorem Frame.handles_mapHandle (change : Handle → Handle) (frame : Frame) :
    (frame.mapHandle change).handles = frame.handles.map change := by
  have creators : VerificationType.creator? ∘ VerificationType.mapHandle change =
      fun type => type.creator?.map change := by
    funext type
    exact type.creator?_mapHandle change
  rw [handles, handles, mapHandle, FrameKind.types_mapHandle, List.filterMap_map, creators,
    List.map_cons, List.map_filterMap]

/-- A table with other handles refers to those. -/
theorem CodeTable.references_mapHandle (change : Handle → Handle) (table : CodeTable) :
    (table.mapHandle change).references = table.references.map change := by
  cases table with
  | frames entries =>
    simp only [mapHandle, references, List.flatMap_map, List.map_flatMap, Frame.handles_mapHandle]
  | lines entries => simp [mapHandle, references, Function.comp_def]
  | _ entries =>
    simp only [mapHandle, references, List.flatMap_map, List.map_flatMap,
      LocalVariable.references_mapHandle]

/-- The references of a table include those that are not exclusive ends. -/
theorem CodeTable.mem_references_of_handles {table : CodeTable} {handle : Handle}
    (present : handle ∈ table.handles) :
    handle ∈ table.references := by
  have started {entries : List LocalVariable} (present : handle ∈ entries.map LocalVariable.start) :
      handle ∈ entries.flatMap LocalVariable.references := by
    obtain ⟨entry, member, rfl⟩ := List.mem_map.mp present
    exact List.mem_flatMap.mpr ⟨entry, member, List.mem_cons_self⟩
  cases table with
  | frames entries | lines entries => exact present
  | _ entries => exact started present

/-- A table with other ends still refers to its starts, and to what its ends are changed to. -/
theorem CodeTable.mem_references_mapStops {change : Option Handle → Option Handle} {table : CodeTable}
    {handle : Handle} (mentioned : handle ∈ (table.mapStops change).references) :
    handle ∈ table.handles ∨
      ∃ stop, change stop = some handle ∧ ∀ other, stop = some other → other ∈ table.references := by
  have changed {entries : List LocalVariable}
      (mentioned : handle ∈ (entries.map fun entry => { entry with stop := change entry.stop }).flatMap
        LocalVariable.references) :
      handle ∈ entries.map LocalVariable.start ∨ ∃ stop, change stop = some handle ∧
        ∀ other, stop = some other → other ∈ entries.flatMap LocalVariable.references := by
    obtain ⟨_, changed, mentioned⟩ := List.mem_flatMap.mp mentioned
    obtain ⟨entry, member, rfl⟩ := List.mem_map.mp changed
    rcases List.mem_cons.mp mentioned with rfl | stopped
    · exact .inl (List.mem_map.mpr ⟨entry, member, rfl⟩)
    · refine .inr ⟨entry.stop, Option.mem_toList.mp stopped, fun other known => ?_⟩
      refine List.mem_flatMap.mpr ⟨entry, member, List.mem_cons_of_mem _ ?_⟩
      exact Option.mem_toList.mpr known
  cases table with
  | frames entries | lines entries => exact .inl mentioned
  | _ entries => exact changed mentioned

namespace Body

/-- All instructions that a body refers to: targets of jumps, starts, ends and handlers of exception
ranges, and what its tables mention. -/
def references (body : Body) : List Handle :=
  (body.slots.toList.filterMap id).flatMap (fun slot => slot.instruction.labels.map Jump.target) ++
    (body.ranges.flatMap ExceptionRange.references ++
      body.attributes.flatMap fun entry => entry.table.references)

/-- The layout lists the instructions of the body, and no reference dangles. -/
structure Intact (body : Body) : Prop where
  listed : body.Listed
  live : ∀ handle ∈ body.references, body.contains handle = true

/-- The frames of the first stack map table are listed in layout order, each at an instruction of its
own. -/
def Sorted (body : Body) : Prop := body.FramesOrdered body.frames

section Membership

variable {body : Body} {handle : Handle}

/-- A body refers to a handle in a jump, in an exception range or in a table. -/
theorem mem_references_iff :
    handle ∈ body.references ↔
      (∃ source shape, body.shape? source = some shape ∧ handle ∈ shape.labels) ∨
        (∃ range ∈ body.ranges, handle ∈ range.references) ∨
          ∃ entry ∈ body.attributes, handle ∈ entry.table.references := by
  have jumps : (∃ slot ∈ body.slots.toList.filterMap id,
      handle ∈ slot.instruction.labels.map Jump.target) ↔
        ∃ source shape, body.shape? source = some shape ∧ handle ∈ shape.labels := by
    constructor
    · rintro ⟨slot, present, labelled⟩
      obtain ⟨_, present, rfl⟩ := List.mem_filterMap.mp present
      obtain ⟨index, found⟩ := Array.getElem?_of_mem (Array.mem_toList_iff.mp present)
      refine ⟨⟨index⟩, slot.instruction.shape, ?_, by rwa [Instruction.labels_shape]⟩
      exact shape?_eq_some_iff.mpr ⟨slot, slot?_eq_some_iff.mpr found, rfl⟩
    · rintro ⟨source, _, shaped, labelled⟩
      obtain ⟨slot, found, rfl⟩ := shape?_eq_some_iff.mp shaped
      refine ⟨slot, ?_, by rwa [Instruction.labels_shape] at labelled⟩
      refine List.mem_filterMap.mpr ⟨some slot, Array.mem_toList_iff.mpr ?_, rfl⟩
      exact Array.mem_of_getElem? (slot?_eq_some_iff.mp found)
  simp only [references, List.mem_append, List.mem_flatMap, ← jumps]

/-- A body refers to the targets of its jumps. -/
theorem mem_references_of_label {source : Handle} {slot : Slot} {jump : Jump}
    (found : body.slot? source = some slot) (present : jump ∈ slot.instruction.labels) :
    jump.target ∈ body.references := by
  refine mem_references_iff.mpr (.inl ⟨source, slot.instruction.shape, ?_, ?_⟩)
  · exact shape?_eq_some_iff.mpr ⟨slot, found, rfl⟩
  · rw [Instruction.labels_shape]
    exact List.mem_map_of_mem present

/-- A body refers to what its table of frames refers to. -/
theorem mem_references_of_frame {frames : List Frame} (known : body.frames? = some frames)
    {frame : Frame} (member : frame ∈ frames) (mentioned : handle ∈ frame.handles) :
    handle ∈ body.references := by
  obtain ⟨entry, present, table⟩ := mem_attributes_of_frames? known
  refine mem_references_iff.mpr (.inr (.inr ⟨entry, present, ?_⟩))
  rw [table]
  exact List.mem_flatMap.mpr ⟨frame, member, mentioned⟩

/-- The jumps of an intact body lead to instructions in use. -/
theorem Intact.jumpsLive (intact : body.Intact) : body.JumpsLive :=
  fun _ _ found _ present => intact.live _ (mem_references_of_label found present)

theorem Intact.range (intact : body.Intact) {range : ExceptionRange} (present : range ∈ body.ranges)
    (mentioned : handle ∈ range.references) : body.contains handle = true :=
  intact.live _ (mem_references_iff.mpr (.inr (.inl ⟨range, present, mentioned⟩)))

theorem Intact.table (intact : body.Intact) {entry : CodeAttribute}
    (present : entry ∈ body.attributes) (mentioned : handle ∈ entry.table.references) :
    body.contains handle = true :=
  intact.live _ (mem_references_iff.mpr (.inr (.inr ⟨entry, present, mentioned⟩)))

theorem mem_references_of_mem_frames {frame : Frame} (member : frame ∈ body.frames)
    (mentioned : handle ∈ frame.handles) : handle ∈ body.references := by
  cases known : body.frames? with
  | none => simp [frames, known] at member
  | some listed =>
    rw [frames_of_frames? known] at member
    exact mem_references_of_frame known member mentioned

/-- The frames of an intact body refer to instructions in use. -/
theorem Intact.frame (intact : body.Intact) {frame : Frame} (member : frame ∈ body.frames)
    (mentioned : handle ∈ frame.handles) : body.contains handle = true :=
  intact.live _ (mem_references_of_mem_frames member mentioned)

end Membership

/-- Handles are only ever added, and one that names no instruction anymore stays so. -/
structure Descends (before after : Body) : Prop where
  size : before.slots.size ≤ after.slots.size
  gone : ∀ handle, handle.index < before.slots.size → before.contains handle = false →
    after.contains handle = false

theorem Descends.refl (body : Body) : Descends body body := ⟨Nat.le_refl _, fun _ _ dead => dead⟩

theorem Descends.trans {before middle after : Body} (first : Descends before middle)
    (second : Descends middle after) : Descends before after := by
  refine ⟨first.size.trans second.size, fun handle inside dead => ?_⟩
  exact second.gone handle (inside.trans_le first.size) (first.gone handle inside dead)

/-- An intact body in which every instruction of an earlier one is still there, with frames in order
if they were. -/
structure Outgrows (before after : Body) : Prop extends Descends before after where
  intact : after.Intact
  kept : ∀ handle, before.contains handle = true → after.contains handle = true
  sorted : before.Sorted → after.Sorted

theorem Intact.outgrows {body : Body} (intact : body.Intact) : Outgrows body body :=
  ⟨Descends.refl body, intact, fun _ present => present, fun sorted => sorted⟩

theorem Outgrows.trans {before middle after : Body} (first : Outgrows before middle)
    (second : Outgrows middle after) : Outgrows before after :=
  ⟨first.toDescends.trans second.toDescends, second.intact,
    fun handle present => second.kept handle (first.kept handle present),
    fun sorted => second.sorted (first.sorted sorted)⟩

section Change

variable {body after : Body} {handle : Handle}

/-- A spliced instruction is in the next slot, and all others are where they were. -/
theorem slot?_splice {position : Nat} {instruction : Instruction Jump}
    (inside : position ≤ body.order.size) (other : Handle) :
    (body.splice position instruction inside).slot? other =
      if other = body.nextHandle then some ⟨instruction, body.bciAtPosition position⟩
      else body.slot? other := by
  by_cases same : other = body.nextHandle
  · rw [if_pos same, same]
    simp [Body.slot?, splice, nextHandle]
  · have apart : other.index ≠ body.slots.size := Handle.index_ne same
    rw [if_neg same]
    simp [Body.slot?, splice, Array.getElem?_push, apart]

/-- What a body refers to in which one instruction is new. -/
theorem mem_references_of_shape? {changed : Handle} {instruction : Instruction Jump}
    (shapes : ∀ other, after.shape? other =
      if other = changed then some instruction.shape else body.shape? other)
    (ranges : after.ranges = body.ranges) (attributes : after.attributes = body.attributes)
    (mentioned : handle ∈ after.references) :
    handle ∈ instruction.labels.map Jump.target ∨ handle ∈ body.references := by
  rw [mem_references_iff, ranges, attributes] at mentioned
  rcases mentioned with ⟨source, shape, shaped, labelled⟩ | others
  · rw [shapes] at shaped
    split at shaped
    · cases shaped
      rw [Instruction.labels_shape] at labelled
      exact .inl labelled
    · exact .inr (mem_references_iff.mpr (.inl ⟨source, shape, shaped, labelled⟩))
  · exact .inr (mem_references_iff.mpr (.inr others))

/-- The only new references after a splice are those of the new instruction. -/
theorem mem_references_splice {position : Nat} {instruction : Instruction Jump}
    (inside : position ≤ body.order.size)
    (mentioned : handle ∈ (body.splice position instruction inside).references) :
    handle ∈ instruction.labels.map Jump.target ∨ handle ∈ body.references := by
  have shapes (other : Handle) : (body.splice position instruction inside).shape? other =
      if other = body.nextHandle then some instruction.shape else body.shape? other := by
    rw [shape?, slot?_splice]
    split <;> rfl
  exact mem_references_of_shape? shapes rfl rfl mentioned

/-- After a splice the next handle is in use, and so are all that were. -/
theorem contains_splice {position : Nat} {instruction : Instruction Jump}
    (inside : position ≤ body.order.size) (other : Handle) :
    (body.splice position instruction inside).contains other = true ↔
      other = body.nextHandle ∨ body.contains other = true :=
  contains_iff_of_slot? (slot?_splice inside) other

/-- The next handle is not in use yet. -/
theorem not_contains_nextHandle (body : Body) : body.contains body.nextHandle = false := by
  rw [Body.contains, slot?_nextHandle]
  rfl

/-- A splice puts the next handle at the position that is asked for. -/
theorem order_splice {position : Nat} {instruction : Instruction Jump}
    (inside : position ≤ body.order.size) :
    (body.splice position instruction inside).order.toList =
      body.order.toList.insertIdx position body.nextHandle := by
  simp [splice]

/-- What is dropped from both layouts does not change how the rest is ordered. -/
theorem rank_lt_iff_of_filter {first second : Handle} (keep : Handle → Bool)
    (same : after.order.toList.filter keep = body.order.toList.filter keep)
    (keptFirst : keep first = true) (keptSecond : keep second = true) :
    after.rank first < after.rank second ↔ body.rank first < body.rank second := by
  rw [Body.rank, Body.rank, ← Layout.idxOf_filter_lt_iff keptFirst keptSecond, same,
    Layout.idxOf_filter_lt_iff keptFirst keptSecond, Body.rank, Body.rank]

/-- The order still lists all instructions after a splice. -/
theorem Listed.splice (listed : body.Listed) {position : Nat} {instruction : Instruction Jump}
    (inside : position ≤ body.order.size) : (body.splice position instruction inside).Listed := by
  have within : position ≤ body.order.toList.length := by simpa using inside
  have fresh : body.nextHandle ∉ body.order.toList := by
    rw [listed.live, not_contains_nextHandle]
    exact Bool.false_ne_true
  refine ⟨?_, fun other => ?_⟩
  · rw [order_splice, (List.perm_insertIdx _ _ within).nodup_iff, List.nodup_cons]
    exact ⟨fresh, listed.distinct⟩
  · rw [order_splice, List.mem_insertIdx within, contains_splice, listed.live]

/-- A body outgrows the one it comes from by a new instruction whose targets are there. -/
theorem Intact.outgrows_of_new (intact : body.Intact) {new : Handle} {instruction : Instruction Jump}
    (fresh : new = body.nextHandle) (listed : after.Listed)
    (size : body.slots.size ≤ after.slots.size)
    (contains : ∀ other, after.contains other = true ↔ other = new ∨ body.contains other = true)
    (order : after.order.toList.filter body.contains = body.order.toList.filter body.contains)
    (attributes : after.attributes = body.attributes)
    (references : ∀ other ∈ after.references,
      other ∈ instruction.labels.map Jump.target ∨ other ∈ body.references)
    (live : ∀ jump ∈ instruction.labels, body.contains jump.target = true) :
    Outgrows body after := by
  have kept (other : Handle) (present : body.contains other = true) : after.contains other = true :=
    (contains other).mpr (.inr present)
  refine ⟨⟨size, ?_⟩, ⟨listed, ?_⟩, kept, ?_⟩
  · intro other below dead
    rw [Bool.eq_false_iff] at dead ⊢
    intro present
    rcases (contains other).mp present with rfl | old
    · rw [fresh] at below
      exact Nat.lt_irrefl _ below
    · exact dead old
  · intro other present
    apply kept
    rcases references other present with labelled | old
    · obtain ⟨jump, member, rfl⟩ := List.mem_map.mp labelled
      exact live jump member
    · exact intact.live other old
  · intro sorted
    rw [Sorted, frames, frames?_of_attributes attributes]
    refine sorted.imp_of_mem fun {first second} memberFirst memberSecond before => ?_
    have old (frame : Frame) (member : frame ∈ body.frames) : body.contains frame.target = true :=
      intact.frame member (by simp [Frame.handles])
    exact (rank_lt_iff_of_filter body.contains order (old first memberFirst)
      (old second memberSecond)).mpr before

/-- A splice of an instruction whose jumps lead somewhere keeps a body intact. -/
theorem Intact.splice (intact : body.Intact) {position : Nat} {instruction : Instruction Jump}
    (inside : position ≤ body.order.size)
    (live : ∀ jump ∈ instruction.labels, body.contains jump.target = true) :
    Outgrows body (body.splice position instruction inside) := by
  refine intact.outgrows_of_new rfl (intact.listed.splice inside) (by simp [Body.splice])
    (contains_splice inside) ?_ rfl (fun _ => mem_references_splice inside) live
  rw [order_splice]
  exact Layout.filter_insertIdx (not_contains_nextHandle body)

theorem Inserts.references {anchor new : Handle} {instruction : Instruction Jump}
    (inserted : Inserts anchor instruction body new after) (mentioned : handle ∈ after.references) :
    handle ∈ instruction.labels.map Jump.target ∨ handle ∈ body.references :=
  mem_references_of_shape? inserted.shape? (by rw [inserted.rest]) (by rw [inserted.rest]) mentioned

theorem Intact.inserts (intact : body.Intact) {anchor new : Handle} {instruction : Instruction Jump}
    (inserted : Inserts anchor instruction body new after)
    (live : ∀ jump ∈ instruction.labels, body.contains jump.target = true) :
    Outgrows body after := by
  refine intact.outgrows_of_new inserted.fresh (inserted.listed intact.listed)
    (by rw [inserted.size]; exact Nat.le_succ _) inserted.contains ?_ (by rw [inserted.rest])
    (fun _ => inserted.references) live
  rw [inserted.order]
  exact Layout.filter_insertAfter body.contains inserted.not_contains

theorem Replaces.references {branch : Handle} {instruction : Instruction Jump}
    (replaced : Replaces branch instruction body after) (mentioned : handle ∈ after.references) :
    handle ∈ instruction.labels.map Jump.target ∨ handle ∈ body.references :=
  mem_references_of_shape? replaced.shape? (by rw [replaced.rest]) (by rw [replaced.rest]) mentioned

theorem Intact.replaces (intact : body.Intact) {instruction : Instruction Jump}
    (replaced : Replaces handle instruction body after)
    (live : ∀ jump ∈ instruction.labels, body.contains jump.target = true) :
    Outgrows body after := by
  have attributes : after.attributes = body.attributes := by rw [replaced.rest]
  refine ⟨⟨Nat.le_of_eq replaced.size.symm, ?_⟩, ⟨replaced.listed intact.listed, ?_⟩, ?_, ?_⟩
  · intro other _ dead
    rw [replaced.contains, dead]
  · intro other present
    rw [replaced.contains]
    rcases replaced.references present with labelled | old
    · obtain ⟨jump, member, rfl⟩ := List.mem_map.mp labelled
      exact live jump member
    · exact intact.live other old
  · intro other present
    rw [replaced.contains, present]
  · intro sorted
    rw [Sorted, frames, frames?_of_attributes attributes, FramesOrdered]
    simp only [Body.rank, replaced.order]
    exact sorted

/-- Tables with other frames refer to what those and the old tables refer to. -/
theorem mem_references_replaceFrames {frames : List Frame} {attributes : List CodeAttribute}
    {entry : CodeAttribute} (present : entry ∈ replaceFrames frames attributes)
    (mentioned : handle ∈ entry.table.references) :
    (∃ frame ∈ frames, handle ∈ frame.handles) ∨
      ∃ old ∈ attributes, handle ∈ old.table.references := by
  induction attributes with
  | nil => cases present
  | cons first rest inductionHypothesis =>
    rw [replaceFrames] at present
    split at present
    · rcases List.mem_cons.mp present with rfl | later
      · exact .inl (List.mem_flatMap.mp mentioned)
      · exact .inr ⟨entry, List.mem_cons_of_mem _ later, mentioned⟩
    · rcases List.mem_cons.mp present with rfl | later
      · exact .inr ⟨entry, by simp, mentioned⟩
      · rcases inductionHypothesis later with new | ⟨old, member, found⟩
        · exact .inl new
        · exact .inr ⟨old, List.mem_cons_of_mem _ member, found⟩

/-- A body with other frames refers to what those and the old body refer to. -/
theorem mem_references_setFrames {frames : List Frame}
    (mentioned : handle ∈ (body.setFrames frames).references) :
    (∃ frame ∈ frames, handle ∈ frame.handles) ∨ handle ∈ body.references := by
  rcases mem_references_iff.mp mentioned with jump | range | ⟨entry, member, mentions⟩
  · exact .inr (mem_references_iff.mpr (.inl jump))
  · exact .inr (mem_references_iff.mpr (.inr (.inl range)))
  · refine (mem_references_replaceFrames member mentions).imp_right fun old => ?_
    exact mem_references_iff.mpr (.inr (.inr old))

/-- A body stays intact with frames that refer to instructions in use. -/
theorem Intact.setFrames (intact : body.Intact) {frames : List Frame}
    (live : ∀ frame ∈ frames, ∀ other ∈ frame.handles, body.contains other = true) :
    (body.setFrames frames).Intact := by
  refine ⟨⟨intact.listed.distinct, intact.listed.live⟩, fun other present => ?_⟩
  change body.contains other = true
  rcases mem_references_setFrames present with ⟨frame, listed, found⟩ | old
  · exact live frame listed other found
  · exact intact.live other old

/-- A body with other handles refers to those. -/
theorem references_mapHandle (change : Handle → Handle) (body : Body) :
    (body.mapHandle change).references = body.references.map change := by
  have jumps : (body.mapHandle change).slots.toList.filterMap id =
      (body.slots.toList.filterMap id).map fun slot =>
        { slot with instruction := slot.instruction.mapLabels fun jump =>
            { jump with target := change jump.target } } := by
    rw [mapHandle, Array.toList_map, List.filterMap_map, List.map_filterMap]
    rfl
  have ranges : (body.mapHandle change).ranges.flatMap ExceptionRange.references =
      (body.ranges.flatMap ExceptionRange.references).map change := by
    simp only [mapHandle, List.flatMap_map, List.map_flatMap, ExceptionRange.references_mapHandle]
  have tables : ((body.mapHandle change).attributes.flatMap fun entry => entry.table.references) =
      (body.attributes.flatMap fun entry => entry.table.references).map change := by
    simp only [mapHandle, List.flatMap_map, List.map_flatMap, CodeTable.references_mapHandle]
  rw [references, references, ranges, tables, jumps, List.map_append, List.map_append]
  simp only [List.flatMap_map, List.map_flatMap, Instruction.labels_mapLabels, List.map_map,
    Function.comp_def]

/-- Changing references puts no instruction in or out of use. -/
theorem contains_mapHandle (change : Handle → Handle) (body : Body) (other : Handle) :
    (body.mapHandle change).contains other = body.contains other := by
  simp only [Body.contains, Body.slot?, mapHandle, Array.getElem?_map]
  cases body.slots[other.index]? with
  | none => rfl
  | some entry => cases entry <;> rfl

theorem redirect_of_ne {old new other : Handle} (different : other ≠ old) :
    Handle.redirect old new other = other := if_neg different

theorem redirect_self (old new : Handle) : Handle.redirect old new old = new := if_pos rfl

/-- Nothing refers to an instruction after its references were redirected. -/
theorem mem_references_replaceTargets {old new : Handle} (different : new ≠ old)
    (present : handle ∈ (body.replaceTargets old new).references) :
    handle ≠ old ∧ (handle = new ∨ handle ∈ body.references) := by
  rw [replaceTargets, references_mapHandle, List.mem_map] at present
  obtain ⟨other, member, rfl⟩ := present
  by_cases same : other = old
  · rw [same, redirect_self]
    exact ⟨different, .inl rfl⟩
  · rw [redirect_of_ne same]
    exact ⟨same, .inr member⟩

/-- A body stays intact if references move to an instruction in use. -/
theorem Intact.replaceTargets (intact : body.Intact) (old : Handle) {new : Handle}
    (present : body.contains new = true) :
    (body.replaceTargets old new).Intact ∧ Descends body (body.replaceTargets old new) := by
  have kept := contains_mapHandle (Handle.redirect old new) body
  refine ⟨⟨⟨intact.listed.distinct, fun other => ?_⟩, fun other mentioned => ?_⟩, ?_, ?_⟩
  · rw [Body.replaceTargets, kept]
    exact intact.listed.live other
  · rw [Body.replaceTargets, references_mapHandle, List.mem_map] at mentioned
    obtain ⟨earlier, member, rfl⟩ := mentioned
    rw [Body.replaceTargets, kept]
    by_cases same : earlier = old
    · rw [same, redirect_self]
      exact present
    · rw [redirect_of_ne same]
      exact intact.live earlier member
  · simp [Body.replaceTargets, mapHandle]
  · intro other _ dead
    rw [Body.replaceTargets, kept, dead]

theorem frames_mapHandle (change : Handle → Handle) (body : Body) :
    (body.mapHandle change).frames = body.frames.map (Frame.mapHandle change) := by
  have tables : (body.mapHandle change).frames? =
      body.frames?.map (List.map (Frame.mapHandle change)) := by
    rw [frames?, mapHandle, frames?, List.findSome?_map, List.map_findSome?]
    congr 1
    funext entry
    cases table : entry.table <;> simp [table, CodeTable.mapHandle]
  rw [frames, tables, frames]
  cases body.frames? <;> rfl

/-- Where only exclusive ends refer to the last instruction, nothing does once they are released. -/
theorem mem_references_releaseStops {last : Handle} (unreferenced : body.isReferenced last = false)
    (present : handle ∈ (body.releaseStops last).references) :
    handle ≠ last ∧ handle ∈ body.references := by
  simp only [isReferenced, Bool.or_eq_false_iff] at unreferenced
  obtain ⟨⟨noJump, noRange⟩, noTable⟩ := unreferenced
  have released {stop : Option Handle}
      (known : (if stop = some last then none else stop) = some handle) :
      handle ≠ last ∧ stop = some handle := by
    split at known
    · cases known
    · rename_i different
      rw [known] at different ⊢
      exact ⟨fun same => different (by rw [same]), rfl⟩
  rcases mem_references_iff.mp present with ⟨source, shape, shaped, labelled⟩ | range | table
  · refine ⟨?_, mem_references_iff.mpr (.inl ⟨source, shape, shaped, labelled⟩)⟩
    rintro rfl
    obtain ⟨slot, found, rfl⟩ := shape?_eq_some_iff.mp shaped
    rw [Instruction.labels_shape] at labelled
    obtain ⟨jump, member, same⟩ := List.mem_map.mp labelled
    have stored := Array.mem_of_getElem? (slot?_eq_some_iff.mp found)
    have missing := Array.any_eq_false'.mp noJump (some slot) stored
    exact missing (List.any_eq_true.mpr ⟨jump, member, decide_eq_true same⟩)
  · obtain ⟨_, changed, mentioned⟩ := range
    obtain ⟨range, member, rfl⟩ := List.mem_map.mp changed
    have missing := List.any_eq_false.mp noRange range member
    simp only [decide_eq_true_eq, not_or] at missing
    have among (inside : handle ∈ range.references) : handle ∈ body.references :=
      mem_references_iff.mpr (.inr (.inl ⟨range, member, inside⟩))
    simp only [ExceptionRange.references, List.mem_cons, Option.mem_toList] at mentioned among
    rcases mentioned with same | same | stopped
    · exact ⟨fun equal => missing.1 (same ▸ equal), among (.inl same)⟩
    · exact ⟨fun equal => missing.2 (same ▸ equal), among (.inr (.inl same))⟩
    · obtain ⟨different, known⟩ := released stopped
      exact ⟨different, among (.inr (.inr known))⟩
  · obtain ⟨_, changed, mentioned⟩ := table
    obtain ⟨entry, member, rfl⟩ := List.mem_map.mp changed
    dsimp only at mentioned
    have among (inside : handle ∈ entry.table.references) : handle ∈ body.references :=
      mem_references_iff.mpr (.inr (.inr ⟨entry, member, inside⟩))
    rcases CodeTable.mem_references_mapStops mentioned with started | ⟨stop, stopped, known⟩
    · refine ⟨?_, among (CodeTable.mem_references_of_handles started)⟩
      rintro rfl
      exact List.any_eq_false.mp noTable entry member (decide_eq_true started)
    · obtain ⟨different, same⟩ := released stopped
      exact ⟨different, among (known handle same)⟩

/-- The instructions are the same, and one of them is not referred to anymore. -/
structure Releases (handle : Handle) (before after : Body) : Prop where
  order : after.order = before.order
  size : after.slots.size = before.slots.size
  contains : ∀ other, after.contains other = before.contains other
  references : ∀ other ∈ after.references, before.contains other = true ∧ other ≠ handle

/-- Once an instruction of an intact body is released, nothing refers to it. -/
theorem Intact.releases (intact : body.Intact)
    (done : body.release handle (body.successor? handle) = .ok after) :
    Releases handle body after := by
  unfold Body.release at done
  cases follows : body.successor? handle with
  | some next =>
    simp only [follows] at done
    split at done
    · cases done
    · cases done
      have different := Layout.successor?_ne intact.listed.distinct follows
      refine ⟨rfl, by simp [Body.replaceTargets, mapHandle], contains_mapHandle _ body, ?_⟩
      intro other present
      obtain ⟨apart, same | member⟩ := mem_references_replaceTargets different present
      · rw [same]
        exact ⟨intact.listed.contains_successor? follows, different⟩
      · exact ⟨intact.live other member, apart⟩
  | none =>
    simp only [follows] at done
    split at done
    · cases done
    · rename_i unreferenced
      cases done
      refine ⟨rfl, rfl, fun other => rfl, fun other present => ?_⟩
      obtain ⟨apart, member⟩ :=
        mem_references_releaseStops (Bool.eq_false_of_not_eq_true unreferenced) present
      exact ⟨intact.live other member, apart⟩

/-- An instruction leaves the layout, and with it the exception ranges that it leaves empty. -/
structure Removes (handle : Handle) (before after : Body) : Prop where
  present : before.contains handle = true
  order : after.order.toList = before.order.toList.filter fun other => other ≠ handle
  size : after.slots.size = before.slots.size
  contains : ∀ other, after.contains other = true ↔ other ≠ handle ∧ before.contains other = true
  released : ∃ released, before.release handle (before.successor? handle) = .ok released ∧
    after.attributes = released.attributes ∧ ∀ other ∈ after.references, other ∈ released.references

/-- Removing an instruction of an intact body takes it away and moves its references. -/
theorem Intact.removes (intact : body.Intact) {instruction : Instruction Jump}
    {emptied : List ExceptionRange}
    (done : body.removed handle = .ok (instruction, emptied, after)) : Removes handle body after := by
  simp only [removed, exceptBind_eq_ok_iff, exceptPure_eq_ok_iff, position_eq_ok_iff] at done
  obtain ⟨position, found, released, freed, _, kept, same⟩ := done
  rw [← Array.getElem?_toList, Layout.getElem?_successor found] at freed
  have releases := intact.releases freed
  obtain ⟨slot, live, _⟩ := get_eq_ok_iff.mp kept
  have inside := lt_size_of_slot? live
  simp only [Prod.mk.injEq, List.partition_eq_filter_filter] at same
  obtain ⟨-, -, rfl⟩ := same
  have present : body.contains handle = true := by
    rw [← releases.contains]
    exact contains_iff.mpr ⟨slot, live⟩
  have cleared (other : Handle) : Body.slot? { released.clear handle position with
      ranges := released.ranges.filter (not ∘ ExceptionRange.isEmpty) } other =
        if other = handle then none else released.slot? other := by
    by_cases same : other = handle
    · rw [if_pos same, same]
      simp [Body.slot?, Body.clear, inside]
    · rw [if_neg same]
      simp [Body.slot?, Body.clear, Array.getElem?_setIfInBounds_ne (Handle.index_ne (Ne.symm same))]
  refine ⟨present, ?_, ?_, fun other => ?_, released, freed, rfl, fun other mentioned => ?_⟩
  · rw [← Layout.eraseIdx_eq_filter intact.listed.distinct found]
    simp [Body.clear, releases.order]
  · simpa [Body.clear] using releases.size
  · rw [Body.contains, cleared, ← releases.contains]
    split
    · rename_i same
      simp [same]
    · rename_i different
      simp [different, Body.contains]
  · refine mem_references_iff.mpr ?_
    rcases mem_references_iff.mp mentioned with ⟨source, shape, shaped, labelled⟩ | range | table
    · rw [shape?, cleared] at shaped
      split at shaped
      · cases shaped
      · exact .inl ⟨source, shape, shaped, labelled⟩
    · obtain ⟨range, member, mentions⟩ := range
      exact .inr (.inl ⟨range, List.mem_of_mem_filter member, mentions⟩)
    · exact .inr (.inr table)

/-- The order still lists all instructions after a removal. -/
theorem Removes.listed (removes : Removes handle body after) (listed : body.Listed) :
    after.Listed := by
  refine ⟨?_, fun other => ?_⟩
  · rw [removes.order]
    exact listed.distinct.filter _
  · rw [removes.order, List.mem_filter, removes.contains, listed.live, decide_eq_true_eq, and_comm]

/-- A body is intact after a removal if it was before. -/
theorem Removes.intact (removes : Removes handle body after) (intact : body.Intact) :
    after.Intact := by
  refine ⟨removes.listed intact.listed, fun other mentioned => ?_⟩
  obtain ⟨released, freed, _, fewer⟩ := removes.released
  obtain ⟨live, different⟩ := (intact.releases freed).references other (fewer other mentioned)
  exact (removes.contains other).mpr ⟨different, live⟩

/-- A removal puts no instruction into use. -/
theorem Removes.descends (removes : Removes handle body after) : Descends body after := by
  refine ⟨Nat.le_of_eq removes.size.symm, fun other _ dead => ?_⟩
  by_contra alive
  have survived := ((removes.contains other).mp (Bool.not_eq_false _ ▸ alive)).2
  rw [dead] at survived
  cases survived

/-- A removal does not change the order of the other instructions. -/
theorem Removes.rank_lt_iff (removes : Removes handle body after) {first second : Handle}
    (different : first ≠ handle) (apart : second ≠ handle) :
    after.rank first < after.rank second ↔ body.rank first < body.rank second := by
  refine rank_lt_iff_of_filter (fun other => other ≠ handle) ?_ (decide_eq_true different)
    (decide_eq_true apart)
  rw [removes.order, List.filter_filter]
  simp only [Bool.and_self]

/-- There is a frame at an instruction if one of the frames has it as its target. -/
theorem isSome_frameAt?_iff :
    (body.frameAt? handle).isSome ↔ ∃ frame ∈ body.frames, frame.target = handle := by
  rw [frameAt?, frames]
  cases body.frames? <;> simp

/-- The frame of a removed instruction goes on to the next one, which has none of its own. -/
theorem Removes.redirected (removes : Removes handle body after) (intact : body.Intact)
    {next : Handle} (follows : body.successor? handle = some next) {frames : List Frame}
    (single : ∀ first ∈ frames, ∀ second ∈ frames, first.target = handle → second.target ≠ next)
    (ordered : body.FramesOrdered frames) :
    after.FramesOrdered (frames.map (Frame.mapHandle (Handle.redirect handle next))) := by
  have step := intact.listed.rank_successor? follows
  have different := Layout.successor?_ne intact.listed.distinct follows
  have apart (other : Handle) : Handle.redirect handle next other ≠ handle := by
    by_cases same : other = handle
    · rw [same, redirect_self]
      exact different
    · rwa [redirect_of_ne same]
  refine List.pairwise_map.mpr (ordered.imp_of_mem fun {first second} memberFirst memberSecond before => ?_)
  change after.rank (Handle.redirect handle next first.target) <
    after.rank (Handle.redirect handle next second.target)
  rw [removes.rank_lt_iff (apart _) (apart _)]
  by_cases sameFirst : first.target = handle
  · have notNext : body.rank next ≠ body.rank second.target := by
      rw [Ne, intact.listed.rank_inj (intact.listed.contains_successor? follows)]
      exact (single first memberFirst second memberSecond sameFirst).symm
    have sameSecond : second.target ≠ handle := by
      intro same
      rw [sameFirst, same] at before
      exact Nat.lt_irrefl _ before
    rw [sameFirst, redirect_self, redirect_of_ne sameSecond]
    rw [sameFirst] at before
    omega
  · rw [redirect_of_ne sameFirst]
    by_cases sameSecond : second.target = handle
    · rw [sameSecond, redirect_self]
      rw [sameSecond] at before
      omega
    · rwa [redirect_of_ne sameSecond]

/-- Releasing the ends of ranges leaves the frames as they are. -/
theorem frames_releaseStops (body : Body) (last : Handle) :
    (body.releaseStops last).frames = body.frames := by
  have tables : (body.releaseStops last).frames? = body.frames? := by
    rw [frames?, releaseStops, frames?, List.findSome?_map]
    congr 1
    funext entry
    cases table : entry.table <;> simp [table, CodeTable.mapStops]
  rw [frames, tables, frames]

/-- Frames stay sorted when an instruction is removed. -/
theorem Removes.sorted (removes : Removes handle body after) (intact : body.Intact)
    (sorted : body.Sorted) : after.Sorted := by
  obtain ⟨released, freed, attributes, _⟩ := removes.released
  rw [Sorted, frames, frames?_of_attributes attributes, ← frames]
  unfold Body.release at freed
  cases follows : body.successor? handle with
  | some next =>
    simp only [follows] at freed
    split at freed
    · cases freed
    · rename_i agreeing
      cases freed
      rw [Body.replaceTargets, frames_mapHandle]
      refine removes.redirected intact follows ?_ sorted
      intro first memberFirst second memberSecond atHandle atNext
      exact agreeing ⟨isSome_frameAt?_iff.mpr ⟨first, memberFirst, atHandle⟩,
        isSome_frameAt?_iff.mpr ⟨second, memberSecond, atNext⟩⟩
  | none =>
    simp only [follows] at freed
    split at freed
    · cases freed
    · rename_i unreferenced
      cases freed
      have apart (frame : Frame) (member : frame ∈ body.frames) : frame.target ≠ handle := by
        rintro same
        have mentioned : frame.target ∈ (body.releaseStops handle).references := by
          rw [← frames_releaseStops body handle] at member
          exact mem_references_of_mem_frames member List.mem_cons_self
        exact (mem_references_releaseStops (Bool.eq_false_of_not_eq_true unreferenced) mentioned).1 same
      rw [frames_releaseStops]
      refine sorted.imp_of_mem fun {first second} memberFirst memberSecond before => ?_
      exact (removes.rank_lt_iff (apart first memberFirst) (apart second memberSecond)).mpr before

end Change

section Reading

variable {body : Body} {pool : Pool} {slots : List Slot} {code ranges attributes : Bytes}

/-- What is read refers to the instructions that are read with it. -/
theorem Form.intact (formed : body.Form pool slots code ranges attributes) : body.Intact := by
  refine ⟨formed.compact.listed, fun handle mentioned => ?_⟩
  rcases mem_references_iff.mp mentioned with ⟨source, _, shaped, labelled⟩ |
    ⟨range, member, mentions⟩ | ⟨entry, member, mentions⟩
  · obtain ⟨slot, found, rfl⟩ := shape?_eq_some_iff.mp shaped
    rw [Instruction.labels_shape] at labelled
    obtain ⟨jump, present, rfl⟩ := List.mem_map.mp labelled
    obtain ⟨target, foundTarget, _⟩ := formed.compact.measured source slot found jump present
    exact contains_iff.mpr ⟨target, foundTarget⟩
  · have sound := formed.range_sound member
    simp only [ExceptionRange.references, List.mem_cons, Option.mem_toList] at mentions
    rcases mentions with rfl | rfl | stopped
    · exact sound.start
    · exact sound.handler
    · exact sound.stop handle stopped
  · have sound := formed.table_sound member
    cases kind : entry.table with
    | frames entries =>
      rw [kind] at mentions sound
      obtain ⟨frame, listed, inside⟩ := List.mem_flatMap.mp mentions
      rcases List.mem_cons.mp inside with rfl | created
      · exact formed.frame_live member kind listed
      · obtain ⟨type, present, named⟩ := List.mem_filterMap.mp created
        exact (sound frame listed).creators type present handle named
    | lines entries =>
      rw [kind] at mentions sound
      obtain ⟨entry, listed, rfl⟩ := List.mem_map.mp mentions
      exact sound.2 entry listed
    | _ entries =>
      rw [kind] at mentions sound
      obtain ⟨entry, listed, inside⟩ := List.mem_flatMap.mp mentions
      simp only [LocalVariable.references, List.mem_cons, Option.mem_toList] at inside
      rcases inside with rfl | stopped
      · exact (sound.2 entry listed).start
      · exact ((sound.2 entry listed).stop handle stopped).1

/-- The frames of a body in its form are sorted. -/
theorem Form.sorted (formed : body.Form pool slots code ranges attributes) : body.Sorted := by
  rw [Sorted, frames]
  cases known : body.frames? with
  | none => exact .nil
  | some listed => exact formed.framesOrdered known

end Reading

end Body

end Classfile
