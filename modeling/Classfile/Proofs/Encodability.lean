import Classfile.Proofs.FrameStates
import Classfile.Proofs.TableForm

/-!
Relaxation keeps a body encodable.

`Body.Encodable` collects what a body must satisfy so that its tables have a byte form that is read
back. All of it is about references, counts and the order of the layout, not about positions, so it
can be asked of a body before its layout is computed.
-/

namespace Classfile

/-- A range refers to instructions in use and catches no class with index zero. -/
structure ExceptionRange.Sound (body : Body) (range : ExceptionRange) : Prop where
  start : body.contains range.start = true
  stop : ∀ handle, range.stop = some handle → body.contains handle = true
  handler : body.contains range.handler = true
  catchType : range.catchType ≠ some 0

/-- A variable refers to instructions in use and does not end before it starts. -/
structure LocalVariable.Sound (body : Body) (entry : LocalVariable) : Prop where
  start : body.contains entry.start = true
  stop : ∀ handle, entry.stop = some handle →
    body.contains handle = true ∧ body.rank entry.start ≤ body.rank handle

namespace CodeTable

/-- The table is the one of frames. -/
def isFrames : CodeTable → Bool
  | .frames _ => true
  | _ => false

/-- A table refers to instructions in use, and all that it lists can be counted. -/
def Sound (body : Body) : CodeTable → Prop
  | .frames entries => ∀ frame ∈ entries, frame.kind.Sound fun handle => body.contains handle = true
  | .lines entries =>
    entries.length < 65536 ∧ ∀ entry ∈ entries, body.contains entry.start = true
  | .variables entries | .variableTypes entries =>
    entries.length < 65536 ∧ ∀ entry ∈ entries, entry.Sound body

end CodeTable

namespace Body

/-- The tables of a body can be encoded once its layout is computed. -/
structure Encodable (pool : Pool) (body : Body) : Prop where
  ranges : ∀ range ∈ body.ranges, range.Sound body
  rangeCount : body.ranges.length < 65536
  tables : ∀ entry ∈ body.attributes, entry.table.Sound body
  names : ∀ entry ∈ body.attributes, pool.text entry.nameIndex = .ok entry.table.name
  attributeCount : body.attributes.length < 65536
  frameTables : body.attributes.countP (fun entry => entry.table.isFrames) ≤ 1

/-- The later body has the instructions of the earlier one in the same order. -/
structure Keeps (now later : Body) : Prop where
  contains : ∀ handle, now.contains handle = true → later.contains handle = true
  rank : ∀ first second, now.contains first = true → now.contains second = true →
    now.rank first ≤ now.rank second → later.rank first ≤ later.rank second

section Keeps

variable {now later : Body} {branch : Handle}

/-- Computing the layout keeps all instructions in their order. -/
theorem Synced.keeps (synced : Synced now later) : Keeps now later := by
  constructor
  · intro handle present
    rw [synced.contains, present]
  · intro first second _ _ before
    rw [synced.rank]
    exact before

theorem Grows.keeps (grows : Grows branch now later) : Keeps now later := by
  constructor
  · exact grows.kept
  · intro first second presentFirst presentSecond before
    have reversed := grows.rank_lt_iff presentSecond presentFirst
    omega

theorem keeps_setFrames (body : Body) (frames : List Frame) : Keeps body (body.setFrames frames) :=
  ⟨fun _ present => present, fun _ _ _ _ before => before⟩

/-- A sound range stays sound. -/
theorem Keeps.range (keeps : Keeps now later) {range : ExceptionRange} (sound : range.Sound now) :
    range.Sound later :=
  ⟨keeps.contains _ sound.start, fun handle known => keeps.contains _ (sound.stop handle known),
    keeps.contains _ sound.handler, sound.catchType⟩

theorem Keeps.localVariable (keeps : Keeps now later) {entry : LocalVariable}
    (sound : entry.Sound now) : entry.Sound later := by
  refine ⟨keeps.contains _ sound.start, fun handle known => ?_⟩
  obtain ⟨present, before⟩ := sound.stop handle known
  exact ⟨keeps.contains _ present, keeps.rank _ _ sound.start present before⟩

theorem Keeps.table (keeps : Keeps now later) {table : CodeTable} (sound : table.Sound now) :
    table.Sound later := by
  cases table with
  | frames entries =>
    intro frame present
    exact (sound frame present).mono keeps.contains
  | lines entries => exact ⟨sound.1, fun entry present => keeps.contains _ (sound.2 entry present)⟩
  | _ entries => exact ⟨sound.1, fun entry present => keeps.localVariable (sound.2 entry present)⟩

end Keeps

/-- Replacing frames keeps the number of attributes. -/
theorem length_replaceFrames (frames : List Frame) (attributes : List CodeAttribute) :
    (replaceFrames frames attributes).length = attributes.length := by
  induction attributes with
  | nil => rfl
  | cons entry rest inductionHypothesis =>
    rw [replaceFrames]
    cases entry.table with
    | frames old => rfl
    | _ => simp [inductionHypothesis]

theorem countP_replaceFrames (frames : List Frame) (attributes : List CodeAttribute) :
    (replaceFrames frames attributes).countP (fun entry => entry.table.isFrames) =
      attributes.countP (fun entry => entry.table.isFrames) := by
  induction attributes with
  | nil => rfl
  | cons entry rest inductionHypothesis =>
    rw [replaceFrames]
    cases kind : entry.table with
    | frames old => simp [CodeTable.isFrames, kind]
    | _ => simp only [List.countP_cons, inductionHypothesis]

/-- The only table of frames gets the new ones, and every other table is kept. -/
theorem mem_replaceFrames {frames : List Frame} {attributes : List CodeAttribute}
    {entry : CodeAttribute} (present : entry ∈ replaceFrames frames attributes)
    (single : attributes.countP (fun entry => entry.table.isFrames) ≤ 1) :
    (entry.table = .frames frames ∧
        ∃ old ∈ attributes, old.nameIndex = entry.nameIndex ∧ old.table.isFrames = true) ∨
      entry ∈ attributes ∧ entry.table.isFrames = false := by
  induction attributes with
  | nil => cases present
  | cons first rest inductionHypothesis =>
    rw [replaceFrames] at present
    cases kind : first.table with
    | frames old =>
      simp only [kind] at present
      have none : ∀ other ∈ rest, other.table.isFrames = false := by
        rw [List.countP_cons_of_pos (by simp [kind, CodeTable.isFrames])] at single
        have zero : rest.countP (fun entry => entry.table.isFrames) = 0 := by omega
        intro other member
        exact Bool.eq_false_of_not_eq_true (List.countP_eq_zero.mp zero other member)
      rcases List.mem_cons.mp present with rfl | later
      · exact .inl ⟨rfl, first, by simp, rfl, by simp [kind, CodeTable.isFrames]⟩
      · exact .inr ⟨List.mem_cons_of_mem _ later, none entry later⟩
    | _ =>
      simp only [kind] at present
      have fewer : rest.countP (fun entry => entry.table.isFrames) ≤ 1 := by
        simpa [List.countP_cons, kind, CodeTable.isFrames] using single
      rcases List.mem_cons.mp present with rfl | later
      · exact .inr ⟨by simp, by simp [kind, CodeTable.isFrames]⟩
      · rcases inductionHypothesis later fewer with ⟨same, old, member, named⟩ | ⟨member, other⟩
        · exact .inl ⟨same, old, List.mem_cons_of_mem _ member, named⟩
        · exact .inr ⟨List.mem_cons_of_mem _ member, other⟩

/-- All tables of frames have the same name. -/
theorem name_of_isFrames {table : CodeTable} (framed : table.isFrames = true)
    (frames : List Frame) : table.name = (CodeTable.frames frames).name := by
  cases table with
  | frames entries => rfl
  | _ => cases framed

section Encodable

variable {now later : Body} {pool grown : Pool}

/-- A body stays encodable while its tables are kept. -/
theorem Encodable.keeps (encodable : now.Encodable pool) (keeps : Keeps now later)
    (built : pool.Built) (extended : pool.Extends grown) (ranges : later.ranges = now.ranges)
    (attributes : later.attributes = now.attributes) : later.Encodable grown := by
  refine ⟨?_, ?_, ?_, ?_, ?_, ?_⟩
  · rw [ranges]
    exact fun range present => keeps.range (encodable.ranges range present)
  · rw [ranges]
    exact encodable.rangeCount
  · rw [attributes]
    exact fun entry present => keeps.table (encodable.tables entry present)
  · rw [attributes]
    exact fun entry present => extended.text built (encodable.names entry present)
  · rw [attributes]
    exact encodable.attributeCount
  · rw [attributes]
    exact encodable.frameTables

/-- A body stays encodable while its frames are replaced by sound ones. -/
theorem Encodable.setFrames (encodable : now.Encodable pool) {frames : List Frame}
    (sound : ∀ frame ∈ frames, frame.kind.Sound fun handle => now.contains handle = true) :
    (now.setFrames frames).Encodable pool := by
  have entries (entry : CodeAttribute) (present : entry ∈ replaceFrames frames now.attributes) :=
    mem_replaceFrames present encodable.frameTables
  have keeps := keeps_setFrames now frames
  refine ⟨?_, encodable.rangeCount, ?_, ?_, ?_, ?_⟩
  · intro range present
    exact keeps.range (encodable.ranges range present)
  · intro entry present
    rcases entries entry present with ⟨same, -⟩ | ⟨member, -⟩
    · rw [same]
      exact sound
    · exact keeps.table (encodable.tables entry member)
  · intro entry present
    rcases entries entry present with ⟨same, old, member, named, framed⟩ | ⟨member, -⟩
    · rw [same, ← named, ← name_of_isFrames framed frames]
      exact encodable.names old member
    · exact encodable.names entry member
  · rw [Body.setFrames, length_replaceFrames]
    exact encodable.attributeCount
  · rw [Body.setFrames, countP_replaceFrames]
    exact encodable.frameTables

/-- The frames of an encodable body are sound. -/
theorem Encodable.frames (encodable : now.Encodable pool) {frames : List Frame}
    (known : now.frames? = some frames) :
    ∀ frame ∈ frames, frame.kind.Sound fun handle => now.contains handle = true := by
  obtain ⟨entry, present, same⟩ := mem_attributes_of_frames? known
  have sound := encodable.tables entry present
  rw [same] at sound
  exact sound

/-- Computing the layout keeps all instructions well formed. -/
theorem Synced.wellFormed (synced : Synced now later) (wellFormed : now.WellFormed) :
    later.WellFormed := by
  rw [wellFormed_iff] at wellFormed ⊢
  intro handle shape shaped
  rw [synced.shape?] at shaped
  exact wellFormed handle shape shaped

/-- A replacement by a well-formed instruction keeps all instructions well formed. -/
theorem Replaces.wellFormed {handle : Handle} {instruction : Instruction Jump}
    (replaced : Replaces handle instruction now later) (wellFormed : now.WellFormed)
    (fine : instruction.isWellFormed = true) : later.WellFormed := by
  rw [wellFormed_iff] at wellFormed ⊢
  intro other shape shaped
  rw [replaced.shape?] at shaped
  split at shaped
  · rw [← Option.some.inj shaped, Instruction.isWellFormed_shape]
    exact fine
  · exact wellFormed other shape shaped

theorem Inserts.wellFormed {anchor new : Handle} {instruction : Instruction Jump}
    (inserted : Inserts anchor instruction now new later) (wellFormed : now.WellFormed)
    (fine : instruction.isWellFormed = true) : later.WellFormed := by
  rw [wellFormed_iff] at wellFormed ⊢
  intro other shape shaped
  rw [inserted.shape?] at shaped
  split at shaped
  · rw [← Option.some.inj shaped, Instruction.isWellFormed_shape]
    exact fine
  · exact wellFormed other shape shaped

end Encodable

end Body

namespace Opcode

/-- The wide form of a branch is encoded as one. -/
theorem format_of_widened? {opcode wider : Opcode} (widens : opcode.widened? = some wider) :
    wider.format = .wideBranch := by
  cases opcode <;> simp only [widened?, reduceCtorEq] at widens <;> cases widens <;> decide

/-- The opposite of a condition is encoded as a branch. -/
theorem format_of_inverted? {opcode opposite : Opcode} (inverts : opcode.inverted? = some opposite) :
    opposite.format = .branch := by
  cases opcode <;> simp only [inverted?, reduceCtorEq] at inverts <;> cases inverts <;> decide

end Opcode

/-- The states of some frames can be written, where the state on entry is the one in a pool. -/
def StatesSmall (origin : Pool) (context? : Option MethodContext) (frames : List Frame) : Prop :=
  ∀ context entry grown, context? = some context → context.entryFrame origin = .ok entry grown →
    ∀ state ∈ entry.expand frames, state.Small

/-- The states that the frames of a body describe in layout order can be written. -/
def Body.StatesFit (origin : Pool) (body : Body) : Prop :=
  ∀ frames arranged, body.frames? = some frames → arranged.Perm frames →
    body.FramesOrdered arranged → StatesSmall origin body.context arranged

/-- The states around an island can be written if those without it can. -/
theorem StatesSmall.withIslandFrame {origin : Pool} {context : MethodContext} {frames : List Frame}
    (small : StatesSmall origin (some context) frames) {pool grown : Pool} {entry state : FrameState}
    (entered : context.entryFrame pool = .ok entry grown) {index : Nat}
    (described : (entry.expand frames)[index]? = some state) (count : Nat) (island : Handle) :
    StatesSmall origin (some context) (Body.withIslandFrame frames (entry.expand frames) count
      (.new island state.toFull)) := by
  intro context' first changed known enteredFirst
  cases known
  have sizes := MethodContext.length_of_entryFrame enteredFirst entered
  have states := FrameState.small_expand sizes (small context first changed rfl enteredFirst)
  apply FrameState.small_expand sizes.symm
  rw [FrameState.expand_withIslandFrame]
  intro other present
  rcases List.mem_append.mp present with front | back
  · exact states other (List.mem_of_mem_take front)
  · rcases List.mem_cons.mp back with rfl | later
    · exact states other (List.mem_of_getElem? described)
    · exact states other (List.mem_of_mem_drop later)

/-- The oversized branches of a well-formed body are encoded as branches. -/
theorem Body.WellFormed.oversized_branches {body : Body} (wellFormed : body.WellFormed) :
    ∀ entry ∈ body.oversized, body.contains entry.1 = true ∧ entry.2.1.format = .branch := by
  intro ⟨branch, opcode, jump⟩ present
  obtain ⟨_, _, slot, found, same⟩ := Body.mem_oversized_iff.mp present
  refine ⟨Body.contains_iff.mpr ⟨slot, found⟩, ?_⟩
  have fine := wellFormed branch slot found
  rw [same] at fine
  exact of_decide_eq_true fine

/-- Computing the layout changes no table but the frames. -/
theorem Body.Synced.attributes_eq {now later : Body} (synced : Body.Synced now later)
    {old new : List Frame} (known : now.frames? = some old) (knownLater : later.frames? = some new) :
    later.attributes = (now.setFrames new).attributes := by
  obtain ⟨other, _, replaced⟩ := synced.framed old known
  have same : later.frames? = (now.setFrames other).frames? := Body.frames?_of_attributes replaced
  rw [knownLater, Body.frames?_setFrames known, Option.some.injEq] at same
  rw [same]
  exact replaced

namespace Edit

/-- What relaxation keeps of an edit, apart from its frames. The pool only changes when the state on
entry is known in the original one. -/
structure Relaxable (origin : Pool) (edit : Edit) : Prop where
  listed : edit.body.Listed
  wellFormed : edit.body.WellFormed
  built : edit.pool.Built
  encodable : edit.body.Encodable edit.pool
  entered : edit.pool = origin ∨ ∃ context entry grown, edit.body.context = some context ∧
    context.entryFrame origin = .ok entry grown

/-- Between rounds frames may be listed in any order, and their states are those in layout order. -/
structure Resting (origin : Pool) (edit : Edit) : Prop extends Relaxable origin edit where
  small : edit.body.StatesFit origin

/-- While branches are extended, frames are listed in layout order. -/
structure Underway (origin : Pool) (entries : List (Handle × Opcode × Jump)) (edit : Edit) : Prop
    extends Relaxable origin edit where
  ordered : ∀ frames, edit.body.frames? = some frames → edit.body.FramesOrdered frames
  described : ∀ frames, edit.body.frames? = some frames →
    ∀ frame ∈ frames, edit.body.contains frame.target = true
  small : ∀ frames, edit.body.frames? = some frames →
    StatesSmall origin edit.body.context frames
  branches : ∀ entry ∈ entries, edit.body.contains entry.1 = true ∧ entry.2.1.format = .branch

section Run

variable {origin : Pool} {entries : List (Handle × Opcode × Jump)} {before after : Edit}

/-- What holds during a round holds between rounds. -/
theorem Underway.resting (underway : Underway origin entries before) : Resting origin before := by
  refine ⟨underway.toRelaxable, ?_⟩
  intro frames arranged known permuted ordered
  rw [(underway.ordered frames known).unique ordered permuted]
  exact underway.small frames known

/-- What holds between rounds holds once the layout is computed for the next one. -/
theorem Resting.underway (resting : Resting origin before) (syncs : Syncs before after) :
    Underway origin after.body.oversized after := by
  have synced := syncs.synced resting.listed
  have listed := synced.listed resting.listed
  have wellFormed := synced.wellFormed resting.wellFormed
  have keeps := synced.keeps
  have context : after.body.context = before.body.context := by rw [synced.rest]
  have ranges : after.body.ranges = before.body.ranges := by rw [synced.rest]
  have branches := wellFormed.oversized_branches
  have entered := resting.entered
  rw [← syncs.pool, ← context] at entered
  have built := resting.built
  have encodable := resting.encodable
  rw [← syncs.pool] at built encodable
  rcases synced.frames?_eq with ⟨unknown, unknownAfter⟩ | ⟨old, new, known, knownAfter, settled⟩
  · have attributes := synced.unframed unknown
    refine ⟨⟨listed, wellFormed, built, ?_, entered⟩, ?_, ?_, ?_, branches⟩
    · exact encodable.keeps keeps built (Pool.Extends.refl _) ranges attributes
    · simp [unknownAfter]
    · simp [unknownAfter]
    · simp [unknownAfter]
  · obtain ⟨arranged, permuted, orderedOld, orderedNew, states, kinds⟩ := settled.ordered synced listed
    have sound : ∀ frame ∈ new,
        frame.kind.Sound fun handle => before.body.contains handle = true := by
      intro frame present
      obtain ⟨other, member, same⟩ := kinds frame present
      rw [same]
      exact (encodable.frames known other (permuted.mem_iff.mp member)).promoted frame.delta
    have attributes := synced.attributes_eq known knownAfter
    refine ⟨⟨listed, wellFormed, built, ?_, entered⟩, ?_, ?_, ?_, branches⟩
    · apply (encodable.setFrames sound).keeps _ built (Pool.Extends.refl _) ranges attributes
      exact ⟨keeps.contains, keeps.rank⟩
    · intro frames same
      rw [knownAfter, Option.some.injEq] at same
      rw [← same]
      exact orderedNew
    · intro frames same frame present
      rw [knownAfter, Option.some.injEq] at same
      rw [← same] at present
      exact (settled.target present).1
    · intro frames same
      rw [knownAfter, Option.some.injEq] at same
      rw [← same]
      intro context' entry grown knownContext enteredAt
      rw [states entry]
      rw [context] at knownContext
      rw [Body.FramesOrdered, synced.rank] at orderedOld
      exact resting.small old arranged known permuted orderedOld context' entry grown knownContext
        enteredAt

/-- An extension that leaves the tables alone. -/
theorem Underway.kept {entry : Handle × Opcode × Jump}
    (underway : Underway origin (entry :: entries) before) {branch : Handle} {body : Body}
    (grows : Body.Grows branch before.body body) (wellFormed : body.WellFormed)
    (same : body = { before.body with slots := body.slots, order := body.order }) :
    Underway origin entries { before with body := body } := by
  have attributes : body.attributes = before.body.attributes := by rw [same]
  have ranges : body.ranges = before.body.ranges := by rw [same]
  have context : body.context = before.body.context := by rw [same]
  have frames : body.frames? = before.body.frames? := Body.frames?_of_attributes attributes
  refine ⟨⟨grows.listed, wellFormed, underway.built, ?_, ?_⟩, ?_, ?_, ?_, ?_⟩
  · exact underway.encodable.keeps grows.keeps underway.built (Pool.Extends.refl _) ranges attributes
  · rw [context]
    exact underway.entered
  · intro known knownFrames
    rw [frames] at knownFrames
    exact grows.framesOrdered (underway.described known knownFrames) (underway.ordered known knownFrames)
  · intro known knownFrames frame present
    rw [frames] at knownFrames
    exact grows.kept _ (underway.described known knownFrames frame present)
  · intro known knownFrames
    rw [frames] at knownFrames
    rw [context]
    exact underway.small known knownFrames
  · intro other present
    have branching := underway.branches other (List.mem_cons_of_mem _ present)
    exact ⟨grows.kept _ branching.1, branching.2⟩

/-- The frames around an island are sound if those without it are and the states can be written. -/
theorem sound_withIslandFrame {live : Handle → Prop} {frames : List Frame} {entry state : FrameState}
    (unnamed : ∀ type ∈ entry.locals ++ entry.stack, type.creator? = none)
    (sound : ∀ frame ∈ frames, frame.kind.Sound live)
    (small : ∀ other ∈ entry.expand frames, other.Small) (described : state ∈ entry.expand frames)
    (count : Nat) (island : Handle) :
    ∀ frame ∈ Body.withIslandFrame frames (entry.expand frames) count (.new island state.toFull),
      frame.kind.Sound live := by
  have alive : entry.Live live := by
    intro type present creator named
    rw [unnamed type present] at named
    cases named
  have full (other : FrameState) (present : other ∈ entry.expand frames) : other.toFull.Sound live :=
    (alive.expand (fun frame member => (sound frame member).creators) other present).toFull
      (small other present)
  intro frame present
  rcases Body.kind_of_withIslandFrame present with rfl | old | ⟨other, member, same⟩
  · exact full state described
  · exact sound frame old
  · rw [same]
    exact full other member

/-- The state on entry that an island needs is known in the original pool. -/
theorem Relaxable.exists_entryFrame {edit : Edit} (relaxable : Relaxable origin edit)
    {context : MethodContext} {entry : FrameState} {pool : Pool}
    (known : edit.body.context = some context)
    (entered : context.entryFrame edit.pool = .ok entry pool) :
    ∃ first grown, context.entryFrame origin = .ok first grown := by
  rcases relaxable.entered with same | ⟨other, first, grown, knownOther, enteredFirst⟩
  · rw [← same]
    exact ⟨entry, pool, entered⟩
  · rw [known, Option.some.injEq] at knownOther
    rw [knownOther]
    exact ⟨first, grown, enteredFirst⟩

/-- A branch to an island keeps what holds during a round. -/
theorem Underway.island {branch site island : Handle} {opcode : Opcode} {jump : Jump} {pool : Pool}
    {middle body : Body} {context : MethodContext} {frames : List Frame} {entry state : FrameState}
    (underway : Underway origin ((branch, opcode, jump) :: entries) before)
    (known : before.body.context = some context) (framed : before.body.frames? = some frames)
    (entered : context.entryFrame before.pool = .ok entry pool)
    (found : before.body.islandSite? branch = .ok (some site))
    (inserted : Body.Inserts site (.wideBranch .gotoW (.to jump.target)) before.body island middle)
    (replaced : Body.Replaces branch (.branch opcode (.to island)) middle body)
    (described : (entry.expand frames)[frames.findIdx fun frame => frame.target = jump.target]? =
      some state) :
    Underway origin entries ⟨body.setFrames (Body.withIslandFrame frames (entry.expand frames)
      (body.framesBefore island frames) (.new island state.toFull)), pool⟩ := by
  obtain ⟨present, branching⟩ := underway.branches (branch, opcode, jump) (by simp)
  have transfers := Body.transferAt_of_islandSite? found
  have grows := inserted.grows replaced underway.listed present (.inr ⟨by simp [framed], transfers⟩)
  have rest : body = { before.body with slots := body.slots, order := body.order } := by
    rw [replaced.rest, inserted.rest]
  have wellFormed : body.WellFormed := by
    apply replaced.wellFormed (inserted.wellFormed underway.wellFormed rfl)
    exact decide_eq_true branching
  have moved := underway.kept grows wellFormed rest
  have knownFrames : body.frames? = some frames := by
    rw [Edit.frames?_of_inserts_replaces inserted replaced, framed]
  have live := moved.described frames knownFrames
  have fresh : body.contains island = true := by
    rw [replaced.contains, inserted.contains]
    exact .inl rfl
  obtain ⟨extended, -, empty, unnamed⟩ := MethodContext.spec_of_entryFrame entered
  obtain ⟨first, grown, enteredFirst⟩ := underway.exists_entryFrame known entered
  have knownContext : body.context = some context := by rw [rest, known]
  have small : StatesSmall origin (some context) frames := by
    rw [← known]
    exact underway.small frames framed
  have states : ∀ other ∈ entry.expand frames, other.Small :=
    FrameState.small_expand (MethodContext.length_of_entryFrame enteredFirst entered)
      (small context first grown rfl enteredFirst)
  have replacedFrames := Body.frames?_setFrames knownFrames (Body.withIslandFrame frames
    (entry.expand frames) (body.framesBefore island frames) (.new island state.toFull))
  refine ⟨⟨⟨grows.listed.distinct, grows.listed.live⟩, wellFormed, (extended underway.built).1, ?_, ?_⟩,
    ?_, ?_, ?_, moved.branches⟩
  · have kept := underway.encodable.keeps grows.keeps underway.built extended
      (show body.ranges = before.body.ranges by rw [rest])
      (show body.attributes = before.body.attributes by rw [rest])
    apply kept.setFrames
    apply sound_withIslandFrame _ (kept.frames knownFrames) states (List.mem_of_getElem? described)
    intro type member
    rw [empty, List.append_nil] at member
    exact unnamed type member
  · exact .inr ⟨context, first, grown, knownContext, enteredFirst⟩
  · intro changed same
    rw [replacedFrames, Option.some.injEq] at same
    rw [← same]
    exact grows.framesOrdered_withIslandFrame (underway.described frames framed)
      (underway.ordered frames framed) inserted.not_contains fresh (entry.expand frames) state.toFull
  · intro changed same frame member
    rw [replacedFrames, Option.some.injEq] at same
    rw [← same] at member
    rcases Body.target_of_withIslandFrame member with target | ⟨other, old, target⟩
    · rw [target]
      exact fresh
    · rw [← target]
      exact live other old
  · intro changed same
    rw [replacedFrames, Option.some.injEq] at same
    rw [← same]
    change StatesSmall origin body.context _
    rw [knownContext]
    exact small.withIslandFrame entered described _ island

/-- An extension keeps what holds during a round. -/
theorem Underway.extends {branch : Handle} {opcode : Opcode} {jump : Jump}
    (underway : Underway origin ((branch, opcode, jump) :: entries) before)
    (extends' : Extends branch opcode jump.target before after) : Underway origin entries after := by
  obtain ⟨present, branching⟩ := underway.branches (branch, opcode, jump) (by simp)
  cases extends' with
  | widened widens replaced =>
    apply underway.kept (replaced.grows underway.listed)
    · apply replaced.wellFormed underway.wellFormed
      exact decide_eq_true (Opcode.format_of_widened? widens)
    · rw [replaced.rest]
  | inverted narrow inverts framed follows inserted replaced =>
    apply underway.kept (inserted.grows replaced underway.listed present (.inl rfl))
    · apply replaced.wellFormed (inserted.wellFormed underway.wellFormed rfl)
      exact decide_eq_true (Opcode.format_of_inverted? inverts)
    · rw [replaced.rest, inserted.rest]
  | island narrow unframed known framed entered found inserted replaced described =>
    exact underway.island known framed entered found inserted replaced described

/-- A relaxed body is encodable, and its layout is computed. -/
theorem Resting.relaxed {body : Body} {pool : Pool} {events : Array Event} {relaxed : Logged Edit}
    (resting : Resting pool ⟨body, pool⟩)
    (ran : relax ⟨⟨body, pool⟩, events⟩ = .ok () relaxed) :
    Relaxable pool relaxed.state ∧ relaxed.state.body.oversized = [] ∧
      relaxed.state.body.codeLength ≤ maxCodeLength ∧
      ∃ last : Body, Body.Synced last relaxed.state.body := by
  obtain ⟨rounds, middle, run, same, short⟩ := rounds_of_relax ran
  obtain ⟨last, rested, syncs, reached⟩ := relaxRounds_induction (Resting pool)
    (Underway pool)
    (fun before after resting syncs => resting.underway syncs)
    (fun branch opcode jump others before after underway extends' => underway.extends extends')
    (fun edit underway => underway.resting) resting run
  rw [same] at syncs reached
  exact ⟨(rested.underway syncs).toRelaxable, reached, short, last.body, syncs.synced rested.listed⟩

end Run

end Edit

end Classfile
