import Classfile.Proofs.ControlFlow
import Classfile.Proofs.FrameStates
import Classfile.Proofs.Progress

/-!
Relaxation keeps stack maps correct.

What a stack map says is a list of instructions, each with the state that its frame describes.
Computing the layout leaves this list as it is, and an island adds one entry to it: its own handle
with the state of its target. Where every place that control can jump to or start anew at has a
frame, an extension gives a frame to each such place that it adds.
-/

namespace Classfile

namespace Body

/-- The frames of the first stack map table, if there is one. -/
def frames (body : Body) : List Frame := body.frames?.getD []

/-- An instruction has a frame. -/
def Framed (body : Body) (handle : Handle) : Prop := ∃ frame ∈ body.frames, frame.target = handle

instance (body : Body) (handle : Handle) : Decidable (body.Framed handle) :=
  inferInstanceAs (Decidable (∃ frame ∈ body.frames, _))

/-- The instructions with a frame, each with the state that its frame describes. -/
def states (body : Body) (entry : FrameState) : List (Handle × FrameState) :=
  (body.frames.map Frame.target).zip (entry.expand body.frames)

/-- All places at which control arrives other than from the instruction before satisfy a condition:
the targets of jumps, and what is laid out after an instruction that control never falls through. -/
structure Entrances (holds : Handle → Prop) (body : Body) : Prop where
  targets : ∀ handle slot, body.slot? handle = some slot →
    ∀ jump ∈ slot.instruction.labels, holds jump.target
  followers : ∀ handle next, body.TransferAt handle → body.successor? handle = some next → holds next

/-- What relaxation keeps of a stack map, where a state is given for the entry to the method. -/
structure StackMapKept (entry : FrameState) (original now : Body) : Prop where
  /-- An instruction that had a frame has exactly one. -/
  single : ∀ handle, original.Framed handle →
    (now.frames.filter fun frame => frame.target = handle).length = 1
  /-- The frame of an instruction describes the state that it described before. -/
  states : ∀ handle state, (handle, state) ∈ original.states entry → (handle, state) ∈ now.states entry
  /-- An island has the state of the instruction it leads to. -/
  islands : ∀ island state, original.contains island = false → (island, state) ∈ now.states entry →
    ∃ jump, now.get island = .ok (.wideBranch .gotoW jump) ∧ (jump.target, state) ∈ now.states entry
  /-- No place that control arrives at is left without a frame. -/
  entrances : original.Entrances original.Framed → now.Entrances now.Framed

section States

variable {body now later : Body} {entry : FrameState}

/-- The frames of a body with a table of frames are those of the table. -/
theorem frames_of_frames? {frames : List Frame} (known : body.frames? = some frames) :
    body.frames = frames := by
  rw [Body.frames, known, Option.getD_some]

/-- An instruction has a frame exactly when there is a state for it. -/
theorem framed_iff {handle : Handle} :
    body.Framed handle ↔ ∃ state, (handle, state) ∈ body.states entry := by
  have lengths : (body.frames.map Frame.target).length = (entry.expand body.frames).length := by
    rw [List.length_map, FrameState.length_expand]
  have firsts : (body.states entry).map Prod.fst = body.frames.map Frame.target :=
    List.map_fst_zip (Nat.le_of_eq lengths)
  calc body.Framed handle ↔ handle ∈ body.frames.map Frame.target := List.mem_map.symm
    _ ↔ handle ∈ (body.states entry).map Prod.fst := by rw [firsts]
    _ ↔ ∃ state, (handle, state) ∈ body.states entry := by simp

/-- The states of a body depend on its frames only. -/
theorem states_of_frames (same : later.frames = now.frames) :
    later.states entry = now.states entry := by
  rw [states, same, states]

/-- The state that is found for an instruction is the one its frame describes. -/
theorem mem_states_of_findIdx {frames : List Frame} (known : body.frames? = some frames)
    {target : Handle} {state : FrameState}
    (described : (entry.expand frames)[frames.findIdx fun frame => frame.target = target]? =
      some state) : (target, state) ∈ body.states entry := by
  obtain ⟨inside, found⟩ := List.getElem?_eq_some_iff.mp described
  rw [FrameState.length_expand] at inside
  have same : (frames[frames.findIdx fun frame => frame.target = target]).target = target := by
    simpa using List.findIdx_getElem (w := inside)
  rw [states, frames_of_frames? known]
  apply List.mem_of_getElem? (i := frames.findIdx fun frame => frame.target = target)
  rw [List.getElem?_zip_eq_some, List.getElem?_map, List.getElem?_eq_getElem inside, Option.map_some,
    same]
  exact ⟨rfl, described⟩

/-- An island adds one entry to the list of states. -/
theorem mem_states_withIslandFrame {frames : List Frame} (known : body.frames? = some frames)
    (same : now.frames? = some frames) {before : Nat} {island : Handle} {state : FrameState}
    {pair : Handle × FrameState} :
    pair ∈ (body.setFrames (withIslandFrame frames (entry.expand frames) before
        (.new island state.toFull))).states entry ↔
      pair = (island, state) ∨ pair ∈ now.states entry := by
  have taken : ((frames.take before).map Frame.target).zip ((entry.expand frames).take before) =
      (now.states entry).take before := by
    rw [states, frames_of_frames? same, List.map_take]
    exact List.take_zipWith.symm
  have dropped : ((frames.drop before).map Frame.target).zip ((entry.expand frames).drop before) =
      (now.states entry).drop before := by
    rw [states, frames_of_frames? same, List.map_drop]
    exact List.drop_zipWith.symm
  have lengths : ((frames.take before).map Frame.target).length =
      ((entry.expand frames).take before).length := by
    simp [FrameState.length_expand]
  rw [states, frames_of_frames? (frames?_setFrames known _), map_target_withIslandFrame,
    FrameState.expand_withIslandFrame, List.zip_append lengths, List.zip_cons_cons, taken, dropped,
    List.mem_append, List.mem_cons, or_left_comm, ← List.mem_append, List.take_append_drop]
  rfl

/-- Computing the layout leaves the list of states as it is. -/
theorem Synced.states (synced : Synced now later) (listed : later.Listed)
    (ordered : now.FramesOrdered now.frames) : later.states entry = now.states entry := by
  rcases synced.frames?_eq with ⟨before, after⟩ | ⟨old, new, before, after, settledFrames⟩
  · exact states_of_frames (by rw [frames, after, frames, before])
  · obtain ⟨arranged, permuted, found, ascending, rfl⟩ := settledFrames
    rw [frames_of_frames? before] at ordered
    have ranked := synced.framesOrdered listed found ascending
    rw [FramesOrdered, synced.rank] at ranked
    have same : arranged.map Prod.snd = old := ordered.unique ranked permuted
    rw [Body.states, frames_of_frames? after, targets_settled, FrameState.expand_settled, same,
      Body.states, frames_of_frames? before, ← same, List.map_map]
    rfl

end States

section Entrances

variable {holds other : Handle → Prop} {now later : Body}

/-- A condition on the places at which control arrives can be weakened. -/
theorem Entrances.mono (entrances : now.Entrances holds)
    (wider : ∀ handle, holds handle → other handle) : now.Entrances other :=
  ⟨fun handle slot found jump labelled => wider _ (entrances.targets handle slot found jump labelled),
    fun handle next transfers follows => wider _ (entrances.followers handle next transfers follows)⟩

/-- The entrances of a body are those of its shapes. -/
theorem entrances_iff (listed : now.Listed) :
    now.Entrances holds ↔ ∀ handle shape, now.shape? handle = some shape →
      (∀ target ∈ shape.labels, holds target) ∧
        (shape.isTransfer = true → ∀ next, now.successor? handle = some next → holds next) := by
  constructor
  · intro entrances handle shape shaped
    obtain ⟨slot, found, rfl⟩ := shape?_eq_some_iff.mp shaped
    constructor
    · intro target labelled
      rw [Instruction.labels_shape] at labelled
      obtain ⟨jump, member, rfl⟩ := List.mem_map.mp labelled
      exact entrances.targets handle slot found jump member
    · intro transfers next follows
      rw [Instruction.isTransfer_shape] at transfers
      have present := (listed.live handle).mpr (contains_of_shape? shaped)
      exact entrances.followers handle next ⟨present, slot, found, transfers⟩ follows
  · intro shapes
    constructor
    · intro handle slot found jump labelled
      apply (shapes handle _ (shape?_eq_some_iff.mpr ⟨slot, found, rfl⟩)).1
      rw [Instruction.labels_shape]
      exact List.mem_map_of_mem labelled
    · rintro handle next ⟨_, slot, found, transfers⟩ follows
      refine (shapes handle _ (shape?_eq_some_iff.mpr ⟨slot, found, rfl⟩)).2 ?_ next follows
      rw [Instruction.isTransfer_shape, transfers]

/-- Computing the layout keeps the entrances. -/
theorem Synced.entrances (synced : Synced now later) (listed : now.Listed)
    (entrances : now.Entrances holds) : later.Entrances holds := by
  rw [entrances_iff (synced.listed listed)]
  rw [entrances_iff listed] at entrances
  intro handle shape shaped
  rw [synced.shape?] at shaped
  rw [synced.successor?]
  exact entrances handle shape shaped

/-- A replacement adds the targets of the new instruction, and what follows it if it transfers
control where the old one did not. -/
theorem Replaces.entrances {branch : Handle} {instruction : Instruction Jump}
    (replaced : Replaces branch instruction now later) (listed : now.Listed)
    (entrances : now.Entrances holds)
    (targets : ∀ jump ∈ instruction.labels, holds jump.target)
    (transfers : instruction.isTransfer = true →
      ∃ shape, now.shape? branch = some shape ∧ shape.isTransfer = true) :
    later.Entrances holds := by
  rw [entrances_iff (replaced.listed listed)]
  rw [entrances_iff listed] at entrances
  intro handle shape shaped
  rw [Body.successor?, replaced.order]
  rw [replaced.shape?] at shaped
  split at shaped
  · rename_i same
    cases shaped
    constructor
    · intro target labelled
      rw [Instruction.labels_shape] at labelled
      obtain ⟨jump, member, rfl⟩ := List.mem_map.mp labelled
      exact targets jump member
    · intro transfersNow
      rw [Instruction.isTransfer_shape] at transfersNow
      obtain ⟨old, shapedOld, transfersOld⟩ := transfers transfersNow
      exact (entrances handle old (same ▸ shapedOld)).2 transfersOld
  · exact entrances handle shape shaped

/-- An insertion adds the targets of the new instruction, the new instruction itself if control does
not fall through its anchor, and what followed the anchor if control does not fall through it. -/
theorem Inserts.entrances {anchor new : Handle} {instruction : Instruction Jump}
    (inserted : Inserts anchor instruction now new later) (listed : now.Listed)
    (entrances : now.Entrances holds)
    (targets : ∀ jump ∈ instruction.labels, holds jump.target)
    (start : now.TransferAt anchor → holds new)
    (follower : instruction.isTransfer = true → ∀ next, now.successor? anchor = some next → holds next) :
    later.Entrances holds := by
  have fresh := inserted.not_contains
  refine ⟨?_, ?_⟩
  · intro handle slot found jump labelled
    obtain ⟨bci, slots⟩ := inserted.slot?
    rw [slots] at found
    split at found
    · cases found
      exact targets jump labelled
    · exact entrances.targets handle slot found jump labelled
  · rintro handle next ⟨_, slot, found, transfers⟩ follows
    obtain ⟨bci, slots⟩ := inserted.slot?
    rw [slots] at found
    split at found
    · rename_i same
      cases found
      rw [same, inserted.successor?_new listed] at follows
      exact follower transfers next follows
    · rename_i different
      have before : now.TransferAt handle :=
        ⟨(listed.live handle).mpr (contains_iff.mpr ⟨slot, found⟩), slot, found, transfers⟩
      by_cases anchored : handle = anchor
      · rw [anchored, inserted.successor?_anchor, Option.some.injEq] at follows
        rw [← follows]
        exact start (anchored ▸ before)
      · rw [inserted.successor?_other anchored different] at follows
        exact entrances.followers handle next before follows

end Entrances

/-- What every layout and every extension keeps of a stack map. -/
structure Mapped (entry : FrameState) (original now : Body) : Prop where
  framed : now.frames? ≠ none
  ordered : now.FramesOrdered now.frames
  states : ∀ pair ∈ original.states entry, pair ∈ now.states entry
  islands : ∀ island state, original.contains island = false → (island, state) ∈ now.states entry →
    ∃ target, now.shape? island = some (.wideBranch .gotoW target) ∧
      (target, state) ∈ now.states entry
  entrances : original.Entrances original.Framed → now.Entrances now.Framed

section Mapped

variable {original now later : Body} {entry : FrameState}

/-- The stack map of a body is kept by the body itself. -/
theorem Mapped.refl {frames : List Frame} (framed : original.frames? = some frames)
    (live : ∀ frame ∈ frames, original.contains frame.target = true)
    (ordered : original.FramesOrdered frames) : Mapped entry original original := by
  have same := frames_of_frames? framed
  refine ⟨by simp [framed], by rw [same]; exact ordered, fun _ present => present, ?_, id⟩
  intro island state absent present
  obtain ⟨frame, member, target⟩ := framed_iff.mpr ⟨state, present⟩
  rw [← target, live frame (same ▸ member)] at absent
  cases absent

/-- Computing the layout keeps the stack map. -/
theorem Mapped.synced (mapped : Mapped entry original now) (listed : now.Listed)
    (synced : Synced now later) : Mapped entry original later := by
  have listedLater := synced.listed listed
  have states := @Synced.states now later entry synced listedLater mapped.ordered
  have framed (handle : Handle) : now.Framed handle ↔ later.Framed handle := by
    rw [@framed_iff now entry, @framed_iff later entry, states]
  rcases synced.frames?_eq with ⟨before, _⟩ | ⟨old, new, before, after, settledFrames⟩
  · exact absurd before mapped.framed
  · obtain ⟨_, _, _, ordered, _⟩ := settledFrames.ordered synced listedLater
    refine ⟨by simp [after], by rw [frames_of_frames? after]; exact ordered, ?_, ?_, ?_⟩
    · rw [states]
      exact mapped.states
    · intro island state absent present
      rw [states] at present ⊢
      rw [synced.shape?]
      exact mapped.islands island state absent present
    · intro before
      exact (synced.entrances listed (mapped.entrances before)).mono fun handle => (framed handle).mp

/-- An extension that leaves the frames alone. -/
theorem Mapped.kept {branch : Handle} {opcode : Opcode} {target : Handle}
    (mapped : Mapped entry original now) (grows : Grows branch now later)
    (branching : now.shape? branch = some (.branch opcode target))
    (same : later.frames? = now.frames?)
    (live : ∀ frame ∈ now.frames, now.contains frame.target = true)
    (entrances : now.Entrances now.Framed → later.Entrances now.Framed) :
    Mapped entry original later := by
  have frames : later.frames = now.frames := by rw [Body.frames, same, Body.frames]
  have states := @states_of_frames now later entry frames
  refine ⟨by rw [same]; exact mapped.framed, ?_, ?_, ?_, ?_⟩
  · rw [frames]
    exact grows.framesOrdered live mapped.ordered
  · rw [states]
    exact mapped.states
  · intro island state absent present
    rw [states] at present ⊢
    obtain ⟨onward, shaped, described⟩ := mapped.islands island state absent present
    have different : island ≠ branch := by
      rintro rfl
      rw [branching] at shaped
      cases shaped
    exact ⟨onward, by rw [grows.shape? island different (contains_of_shape? shaped), shaped], described⟩
  · intro before
    rw [show later.Framed = now.Framed by funext handle; rw [Framed, frames, Framed]]
    exact entrances (mapped.entrances before)

/-- An extension that adds an island with the state of the instruction it leads to. -/
theorem Mapped.island {branch site island : Handle} {opcode : Opcode} {target : Handle}
    {middle body : Body} {frames : List Frame} {state : FrameState}
    (mapped : Mapped entry original now) (listed : now.Listed)
    (branching : now.shape? branch = some (.branch opcode target))
    (framed : now.frames? = some frames)
    (live : ∀ frame ∈ frames, now.contains frame.target = true)
    (transfers : now.TransferAt site)
    (inserted : Inserts site (.wideBranch .gotoW (.to target)) now island middle)
    (replaced : Replaces branch (.branch opcode (.to island)) middle body)
    (described : (entry.expand frames)[frames.findIdx fun frame => frame.target = target]? =
      some state) :
    Mapped entry original (body.setFrames (withIslandFrame frames (entry.expand frames)
      (body.framesBefore island frames) (.new island state.toFull))) := by
  have grows := inserted.grows replaced listed (contains_of_shape? branching)
    (.inr ⟨by simp [framed], transfers⟩)
  have known : body.frames? = some frames := by
    rw [Edit.frames?_of_inserts_replaces inserted replaced, framed]
  have replacedFrames := frames?_setFrames known (withIslandFrame frames (entry.expand frames)
    (body.framesBefore island frames) (.new island state.toFull))
  have apart := (inserted.ne_new (contains_of_shape? branching)).symm
  have present : body.contains island = true := by
    rw [replaced.contains, inserted.contains]
    exact .inl rfl
  have leads : body.shape? island = some (.wideBranch .gotoW target) :=
    (replaced.shape?_of_ne apart).trans inserted.shape?_new
  have pairs (pair : Handle × FrameState) := @mem_states_withIslandFrame body now entry frames known
    framed (body.framesBefore island frames) island state pair
  have ordered := grows.framesOrdered_withIslandFrame live
    (by rw [← frames_of_frames? framed]; exact mapped.ordered) inserted.not_contains present
    (entry.expand frames) state.toFull
  have reached : (target, state) ∈ now.states entry := mem_states_of_findIdx framed described
  generalize withIslandFrame frames (entry.expand frames) (body.framesBefore island frames)
    (.new island state.toFull) = extended at pairs replacedFrames ordered ⊢
  have wider (handle : Handle) (before : now.Framed handle) :
      (body.setFrames extended).Framed handle := by
    rw [@framed_iff _ entry] at before ⊢
    exact before.imp fun _ member => (pairs _).mpr (.inr member)
  have islandFramed : (body.setFrames extended).Framed island :=
    framed_iff.mpr ⟨state, (pairs _).mpr (.inl rfl)⟩
  refine ⟨by simp [replacedFrames], ?_, ?_, ?_, ?_⟩
  · rw [frames_of_frames? replacedFrames]
    exact ordered
  · intro pair member
    exact (pairs pair).mpr (.inr (mapped.states pair member))
  · intro other held absent member
    rcases (pairs _).mp member with same | before
    · cases same
      exact ⟨target, leads, (pairs _).mpr (.inr reached)⟩
    · obtain ⟨onward, shaped, heldOnward⟩ := mapped.islands other held absent before
      have different : other ≠ branch := by
        rintro rfl
        rw [branching] at shaped
        cases shaped
      refine ⟨onward, ?_, (pairs _).mpr (.inr heldOnward)⟩
      exact (grows.shape? other different (contains_of_shape? shaped)).trans shaped
  · intro originally
    have entrances := (mapped.entrances originally).mono wider
    -- The island is reached by its branch alone, and what follows it followed its site before.
    have between := inserted.entrances listed entrances
      (by
        intro jump labelled
        rw [List.mem_singleton.mp labelled]
        exact wider target (framed_iff.mpr ⟨state, reached⟩))
      (fun _ => islandFramed) (fun _ next follows => entrances.followers site next transfers follows)
    have shapedBetween := inserted.shape?_of_present branching
    have after := replaced.entrances (inserted.listed listed) between
      (by
        intro jump labelled
        rw [List.mem_singleton.mp labelled]
        exact islandFramed)
      (fun transfersNow => ⟨_, shapedBetween, transfersNow⟩)
    exact ⟨after.targets, after.followers⟩

/-- A branch that is widened leads where it led, and what follows it follows it still. -/
theorem Mapped.widened {branch : Handle} {opcode wider : Opcode} {target : Handle}
    (mapped : Mapped entry original now) (listed : now.Listed)
    (branching : now.shape? branch = some (.branch opcode target))
    (live : ∀ frame ∈ now.frames, now.contains frame.target = true)
    (widens : opcode.widened? = some wider)
    (replaced : Replaces branch (.wideBranch wider (.to target)) now later) :
    Mapped entry original later := by
  have same : later.frames? = now.frames? := by
    rw [replaced.rest]
    rfl
  apply mapped.kept (replaced.grows listed) branching same live
  intro entrances
  apply replaced.entrances listed entrances
  · intro jump labelled
    rw [List.mem_singleton.mp labelled]
    exact ((entrances_iff listed).mp entrances branch _ branching).1 target (List.mem_singleton_self _)
  · intro transfers
    exact ⟨_, branching, (Opcode.inverted?_of_widened? widens).2.2.symm.trans transfers⟩

/-- A branch hops over its trampoline to an instruction that has a frame. -/
theorem Mapped.inverted {branch next trampoline : Handle} {opcode opposite : Opcode} {target : Handle}
    {middle : Body} (mapped : Mapped entry original now) (listed : now.Listed)
    (branching : now.shape? branch = some (.branch opcode target))
    (live : ∀ frame ∈ now.frames, now.contains frame.target = true)
    (inverts : opcode.inverted? = some opposite) (framed : now.needsIsland branch = .ok false)
    (follows : now.next? branch = .ok (some next))
    (inserted : Inserts branch (.wideBranch .gotoW (.to target)) now trampoline middle)
    (replaced : Replaces branch (.branch opposite (.to next)) middle later) :
    Mapped entry original later := by
  have grows := inserted.grows replaced listed (contains_of_shape? branching) (.inl rfl)
  obtain ⟨-, falls, -, fallsBefore, -⟩ := Opcode.widened?_of_inverted? inverts
  have nextFramed : now.Framed next := by
    obtain ⟨frames, known⟩ := Option.ne_none_iff_exists'.mp mapped.framed
    obtain ⟨frame, member, same⟩ := frames_at_next framed follows known
    exact ⟨frame, by rw [frames_of_frames? known]; exact member, same⟩
  apply mapped.kept grows branching (Edit.frames?_of_inserts_replaces inserted replaced) live
  intro entrances
  have between := inserted.entrances listed entrances
    (by
      intro jump labelled
      rw [List.mem_singleton.mp labelled]
      exact ((entrances_iff listed).mp entrances branch _ branching).1 target
        (List.mem_singleton_self _))
    (fun transfers => absurd transfers (not_transferAt branching fallsBefore))
    (by
      intro _ other follower
      rw [(next?_eq_ok_iff.mp follows).2, Option.some.injEq] at follower
      exact follower ▸ nextFramed)
  apply replaced.entrances (inserted.listed listed) between
  · intro jump labelled
    rw [List.mem_singleton.mp labelled]
    exact nextFramed
  · intro transfers
    change opposite.isTransfer = true at transfers
    rw [falls] at transfers
    cases transfers

end Mapped

/-- Frames that are listed in order are frames of different instructions. -/
theorem FramesOrdered.single {body : Body} {frames : List Frame} (ordered : body.FramesOrdered frames)
    {frame : Frame} (present : frame ∈ frames) :
    (frames.filter fun other => other.target = frame.target).length = 1 := by
  have distinct : (frames.map Frame.target).Nodup := by
    rw [List.Nodup, List.pairwise_map]
    refine ordered.imp ?_
    intro first second before same
    rw [same] at before
    exact Nat.lt_irrefl _ before
  have counted := List.count_eq_one_of_mem distinct (List.mem_map_of_mem present)
  rw [List.count, List.countP_map, List.countP_eq_length_filter] at counted
  exact counted

end Body

namespace Edit

/-- The stack map of a body is kept, and the state on entry is known in the pool. -/
structure Mapping (entry : FrameState) (original : Body) (edit : Edit) : Prop where
  mapped : Body.Mapped entry original edit.body
  entered : ∃ context grown, edit.body.context = some context ∧
    context.entryFrame edit.pool = .ok entry grown

variable {original : Body} {entry : FrameState}

/-- Computing the layout keeps the stack map of an edit. -/
theorem Mapping.synced {before after : Edit} (mapping : Mapping entry original before)
    (listed : before.body.Listed) (syncs : Syncs before after) : Mapping entry original after := by
  have synced := syncs.synced listed
  refine ⟨mapping.mapped.synced listed synced, ?_⟩
  rw [syncs.pool, synced.rest]
  exact mapping.entered

/-- Every way to extend a branch keeps the stack map. -/
theorem Mapping.extends {branch : Handle} {opcode : Opcode} {jump : Jump}
    {others : List (Handle × Opcode × Jump)} {before after : Edit}
    (mapping : Mapping entry original before)
    (pending : original.Pending ((branch, opcode, jump) :: others) before.body)
    (extends' : Extends branch opcode jump.target before after) : Mapping entry original after := by
  obtain ⟨mapped, context, grown, known, entered⟩ := mapping
  have listed := pending.rewired.listed
  have branching := pending.shaped branch opcode jump (by simp)
  obtain ⟨frames, framed⟩ := Option.ne_none_iff_exists'.mp mapped.framed
  have live := pending.framesLive frames framed
  have liveNow : ∀ frame ∈ before.body.frames, before.body.contains frame.target = true := by
    rw [Body.frames_of_frames? framed]
    exact live
  cases extends' with
  | widened widens replaced =>
    refine ⟨mapped.widened listed branching liveNow widens replaced, context, grown, ?_, entered⟩
    rw [replaced.rest]
    exact known
  | inverted narrow inverts decided follows inserted replaced =>
    refine ⟨mapped.inverted listed branching liveNow inverts decided follows inserted replaced,
      context, grown, ?_, entered⟩
    rw [replaced.rest, inserted.rest]
    exact known
  | @island pool middle body context' frames' entry' state site island narrow unframed known' framed'
      entered' found inserted replaced described =>
    rw [known, Option.some.injEq] at known'
    rw [framed, Option.some.injEq] at framed'
    subst known' framed'
    rw [entered] at entered'
    cases entered'
    refine ⟨mapped.island listed branching framed live (Body.transferAt_of_islandSite? found)
      inserted replaced described, context, grown, ?_, MethodContext.entryFrame_again entered⟩
    change body.context = some context
    rw [replaced.rest, inserted.rest]
    exact known

/-- Relaxation keeps what a stack map says: every frame describes the state it described, an island
has the state of its target, and no place that control arrives at loses its frame. -/
theorem stackMapKept_of_relax {body : Body} {pool grown : Pool} {events : Array Event}
    {after : Logged Edit} {context : MethodContext} {entry : FrameState} {frames : List Frame}
    (listed : body.Listed) (wellFormed : body.WellFormed) (live : body.JumpsLive)
    (framed : body.frames? = some frames)
    (framesLive : ∀ frame ∈ frames, body.contains frame.target = true)
    (ordered : body.FramesOrdered frames) (known : body.context = some context)
    (entered : context.entryFrame pool = .ok entry grown)
    (ran : relax ⟨⟨body, pool⟩, events⟩ = .ok () after) :
    body.StackMapKept entry after.state.body := by
  obtain ⟨rounds, middle, run, same, _⟩ := rounds_of_relax ran
  obtain ⟨last, ⟨rewired, mapping⟩, syncs, _⟩ := relaxRounds_induction
    (fun edit => body.Rewired edit.body ∧ Mapping entry body edit)
    (fun entries edit => body.Pending entries edit.body ∧ Mapping entry body edit)
    (fun before after resting syncs => ⟨resting.1.pending (syncs.synced resting.1.listed),
      resting.2.synced resting.1.listed syncs⟩)
    (fun branch opcode jump others before after pending extends' =>
      ⟨pending.1.extends listed (Body.wellFormed_iff.mp wellFormed) extends',
        pending.2.extends pending.1 extends'⟩)
    (fun edit pending => ⟨pending.1.rewired, pending.2⟩)
    ⟨Body.Rewired.refl listed live, Body.Mapped.refl framed framesLive ordered, context, grown, known,
      entered⟩ run
  have mapped := (mapping.synced rewired.listed syncs).mapped
  rw [same] at mapped
  refine ⟨?_, fun handle state => mapped.states (handle, state), ?_, mapped.entrances⟩
  · intro handle before
    obtain ⟨state, described⟩ := Body.framed_iff.mp before
    obtain ⟨frame, present, rfl⟩ := Body.framed_iff.mpr ⟨state, mapped.states _ described⟩
    exact mapped.ordered.single present
  · intro island state absent described
    obtain ⟨target, shaped, describedTarget⟩ := mapped.islands island state absent described
    obtain ⟨slot, found, shape⟩ := Body.shape?_eq_some_iff.mp shaped
    obtain ⟨jump, wide, rfl⟩ := Instruction.eq_wideBranch_of_shape shape
    exact ⟨jump, Body.get_eq_ok_iff.mpr ⟨slot, found, wide⟩, describedTarget⟩

end Edit

/-- A far branch whose island comes before frames that append to the locals. -/
def Body.appendedFrames : Body where
  nameIndex := 1
  maxStack := 1
  maxLocals := 3
  slots := #[some ⟨.branch .ifeq (.to ⟨3⟩), 0⟩, some ⟨.branch .goto (.to ⟨2⟩), 0⟩,
    some ⟨.tableSwitch 0 (.to ⟨3⟩) 0 (List.replicate 8190 (.to ⟨3⟩)), 0⟩, some ⟨.simple .returnVoid, 0⟩]
  order := #[⟨0⟩, ⟨1⟩, ⟨2⟩, ⟨3⟩]
  codeLength := 0
  ranges := []
  attributes := [⟨1, .frames [.new ⟨2⟩ (.append [.float]), .new ⟨3⟩ (.append [.long])]⟩]
  context := some ⟨1, "(I)V", true, false⟩

set_option maxRecDepth 20000 in
theorem Edit.stackMapKept_of_relax_appendedFrames :
    ∃ after, Edit.relax ⟨⟨Body.appendedFrames, Pool.empty⟩, #[]⟩ = .ok () after ∧
      after.state.body.states ⟨[.integer], []⟩ =
        [(⟨4⟩, ⟨[.integer, .float, .long], []⟩), (⟨2⟩, ⟨[.integer, .float], []⟩),
          (⟨3⟩, ⟨[.integer, .float, .long], []⟩)] ∧
      Body.appendedFrames.StackMapKept ⟨[.integer], []⟩ after.state.body := by
  have runs : relaxesWithin 2 (fun edit => edit.body.states ⟨[.integer], []⟩ =
      [(⟨4⟩, ⟨[.integer, .float, .long], []⟩), (⟨2⟩, ⟨[.integer, .float], []⟩),
        (⟨3⟩, ⟨[.integer, .float, .long], []⟩)]) ⟨⟨Body.appendedFrames, Pool.empty⟩, #[]⟩ = true := by
    decide +kernel
  obtain ⟨after, ran, states⟩ := exists_relax (by decide) runs
  have entered : MethodContext.entryFrame ⟨1, "(I)V", true, false⟩ Pool.empty =
      .ok ⟨[.integer], []⟩ Pool.empty := by
    have parsed : MethodDescriptor.parse "(I)V" = .ok ⟨[.base .int], none⟩ := by decide +kernel
    rw [MethodContext.entryFrame, parsed]
    rfl
  refine ⟨after, ran, states, ?_⟩
  exact stackMapKept_of_relax (by decide) (by decide +kernel) (by decide +kernel) rfl
    (by decide +kernel) (Body.framesOrdered_iff.mpr (by decide)) rfl entered ran

end Classfile
