import Classfile.Proofs.Interning
import Classfile.Proofs.LayoutRank

/-!
The states that frames describe.

A promotion changes no state, and an island adds the state of its target without changing another
one, since the frame after it is written in full. All states can be written as long as those of the
original frames can.
-/

namespace Classfile

namespace FrameKind

/-- A frame refers to instructions in use, and all that it lists can be counted. -/
structure Sound (live : Handle → Prop) (kind : FrameKind) : Prop where
  creators : ∀ type ∈ kind.types, ∀ creator, type.creator? = some creator → live creator
  chopped : ∀ count, kind = .chop count → 0 < count ∧ count < 4
  appended : ∀ added, kind = .append added → 0 < added.length ∧ added.length < 4
  counted : ∀ locals stack, kind = .full locals stack → locals.length < 65536 ∧ stack.length < 65536

/-- An encoding stays sound if instructions stay in use. -/
theorem Sound.mono {live later : Handle → Prop} {kind : FrameKind} (sound : kind.Sound live)
    (kept : ∀ handle, live handle → later handle) : kind.Sound later :=
  ⟨fun type present creator named => kept creator (sound.creators type present creator named),
    sound.chopped, sound.appended, sound.counted⟩

/-- An extended encoding lists what the compact one lists. -/
theorem Sound.promoted {live : Handle → Prop} {kind : FrameKind} (sound : kind.Sound live)
    (delta : UInt16) : ((Frame.promotion? delta kind).getD kind).Sound live := by
  rw [Frame.promotion?]
  split
  · exact sound
  · cases kind with
    | same => exact ⟨by simp [extended?, types], by simp [extended?], by simp [extended?], by simp [extended?]⟩
    | oneItem item =>
      exact ⟨sound.creators, by simp [extended?], by simp [extended?], by simp [extended?]⟩
    | _ => exact sound

/-- A promoted encoding holds the delta it was promoted for. -/
theorem fits_promoted (delta : UInt16) (kind : FrameKind) :
    ((Frame.promotion? delta kind).getD kind).fits delta = true := by
  rw [Frame.promotion?]
  split
  · assumption
  · cases kind with
    | same => rfl
    | oneItem item => rfl
    | _ => rfl

end FrameKind

namespace FrameState

/-- The instructions that created objects of a state are in use. -/
def Live (live : Handle → Prop) (state : FrameState) : Prop :=
  ∀ type ∈ state.locals ++ state.stack, ∀ creator, type.creator? = some creator → live creator

/-- Locals and stack can be counted with 16 bits. -/
def Small (state : FrameState) : Prop := state.locals.length < 65536 ∧ state.stack.length < 65536

/-- A full frame of a live state is sound. -/
theorem Live.toFull {live : Handle → Prop} {state : FrameState} (alive : state.Live live)
    (small : state.Small) : state.toFull.Sound live := by
  refine ⟨alive, ?_, ?_, ?_⟩
  · intro count same
    cases same
  · intro added same
    cases same
  · intro locals stack same
    cases same
    exact small

/-- A promotion does not change the state that an encoding describes. -/
theorem apply_promoted (state : FrameState) (delta : UInt16) (kind : FrameKind) :
    state.apply ((Frame.promotion? delta kind).getD kind) = state.apply kind := by
  rw [Frame.promotion?]
  split
  · rfl
  · cases kind <;> rfl

/-- A state stays live after a frame whose creators are in use. -/
theorem Live.apply {live : Handle → Prop} {state : FrameState} (alive : state.Live live)
    {kind : FrameKind}
    (own : ∀ type ∈ kind.types, ∀ creator, type.creator? = some creator → live creator) :
    (state.apply kind).Live live := by
  have locals : ∀ type ∈ state.locals, ∀ creator, type.creator? = some creator → live creator :=
    fun type present => alive type (List.mem_append_left _ present)
  intro type present
  rw [List.mem_append] at present
  cases kind with
  | same | sameExtended =>
    rcases present with kept | added
    · exact locals type kept
    · cases added
  | oneItem item | oneItemExtended item =>
    rcases present with kept | added
    · exact locals type kept
    · exact own type added
  | chop count =>
    rcases present with kept | added
    · exact locals type (List.mem_of_mem_take kept)
    · cases added
  | append more =>
    rcases present with kept | added
    · rcases List.mem_append.mp kept with before | new
      · exact locals type before
      · exact own type new
    · cases added
  | full newLocals newStack => exact own type (List.mem_append.mpr present)

/-- How many entries a state has after a frame does not depend on their types. -/
theorem length_apply {state other : FrameState}
    (same : state.locals.length = other.locals.length) (kind : FrameKind) :
    (state.apply kind).locals.length = (other.apply kind).locals.length ∧
      (state.apply kind).stack.length = (other.apply kind).stack.length := by
  cases kind <;> simp [FrameState.apply, same]

/-- All states that live frames describe are live. -/
theorem Live.expand {live : Handle → Prop} {entry : FrameState} (alive : entry.Live live)
    {frames : List Frame}
    (own : ∀ frame ∈ frames, ∀ type ∈ frame.kind.types, ∀ creator, type.creator? = some creator →
      live creator) : ∀ state ∈ entry.expand frames, state.Live live := by
  induction frames generalizing entry with
  | nil => simp [FrameState.expand]
  | cons frame rest inductionHypothesis =>
    have next := alive.apply (own frame (by simp))
    intro state present
    rcases List.mem_cons.mp present with rfl | later
    · exact next
    · exact inductionHypothesis next (fun other member => own other (by simp [member])) state later

/-- How many types the states have depends on how many locals there are on entry. -/
theorem small_expand {entry other : FrameState}
    (same : entry.locals.length = other.locals.length) {frames : List Frame}
    (small : ∀ state ∈ entry.expand frames, state.Small) :
    ∀ state ∈ other.expand frames, state.Small := by
  induction frames generalizing entry other with
  | nil => simp [FrameState.expand]
  | cons frame rest inductionHypothesis =>
    have sizes := length_apply same frame.kind
    intro state present
    rcases List.mem_cons.mp present with rfl | later
    · have first := small (entry.apply frame.kind) (by simp [FrameState.expand])
      rw [Small, ← sizes.1, ← sizes.2]
      exact first
    · exact inductionHypothesis sizes.1
        (fun earlier member => small earlier (by simp [FrameState.expand, member])) state later

/-- Deltas and promotions change no state. -/
theorem expand_settled (entry : FrameState) (previous : Option Nat) (arranged : List (Nat × Frame)) :
    entry.expand (Frame.settled previous arranged) = entry.expand (arranged.map Prod.snd) := by
  induction arranged generalizing entry previous with
  | nil => rfl
  | cons placed rest inductionHypothesis =>
    obtain ⟨bci, frame⟩ := placed
    rw [Frame.settled, List.map_cons, FrameState.expand, FrameState.expand]
    simp only [apply_promoted, inductionHypothesis]

/-- An island adds its state and keeps those before and after it. -/
theorem expand_withIslandFrame (entry state : FrameState) (frames : List Frame) (before : Nat)
    (island : Handle) :
    entry.expand (Body.withIslandFrame frames (entry.expand frames) before
        (.new island state.toFull)) =
      (entry.expand frames).take before ++ state :: (entry.expand frames).drop before := by
  have applied (earlier : FrameState) : earlier.apply state.toFull = state := rfl
  induction frames generalizing entry before with
  | nil =>
    simp [Body.withIslandFrame, FrameState.expand, Frame.new, applied]
  | cons frame rest inductionHypothesis =>
    cases before with
    | zero =>
      have restored (earlier : FrameState) :
          earlier.apply (entry.apply frame.kind).toFull = entry.apply frame.kind := rfl
      have kept : rest.mapIdx (fun _ frame => frame) = rest := by
        apply List.ext_getElem?
        simp
      simp [Body.withIslandFrame, FrameState.expand, Frame.new, applied, restored, kept]
    | succ before =>
      have shifted := inductionHypothesis (entry.apply frame.kind) before
      simp only [Body.withIslandFrame, FrameState.expand] at shifted ⊢
      simp only [List.take_succ_cons, List.drop_succ_cons, List.cons_append, List.getElem?_cons_succ,
        FrameState.expand, shifted]

end FrameState

namespace Body

/-- The frames around an island are old ones, or written in full from a state. -/
theorem kind_of_withIslandFrame {frames : List Frame} {states : List FrameState} {before : Nat}
    {island frame : Frame} (present : frame ∈ withIslandFrame frames states before island) :
    frame = island ∨ frame ∈ frames ∨ ∃ state ∈ states, frame.kind = state.toFull := by
  rw [withIslandFrame, List.mem_append, List.mem_cons] at present
  rcases present with front | same | back
  · exact .inr (.inl (List.mem_of_mem_take front))
  · exact .inl same
  · right
    obtain ⟨index, inside, rfl⟩ := List.mem_mapIdx.mp back
    split
    · rename_i state known
      exact .inr ⟨state, List.mem_of_getElem? known, rfl⟩
    · exact .inl (List.mem_of_mem_drop (List.getElem_mem inside))

/-- The frame of an island is between the frames before and after the island. -/
theorem map_target_withIslandFrame (frames : List Frame) (states : List FrameState) (before : Nat)
    (island : Frame) :
    (withIslandFrame frames states before island).map Frame.target =
      (frames.take before).map Frame.target ++
        island.target :: (frames.drop before).map Frame.target := by
  rw [withIslandFrame, List.map_append, List.map_cons]
  congr 2
  apply List.ext_getElem?
  intro index
  rw [List.getElem?_map, List.getElem?_mapIdx, List.getElem?_map]
  cases (frames.drop before)[index]? with
  | none => rfl
  | some frame =>
    simp only [Option.map_some, Option.some.injEq]
    split <;> rfl

/-- A new value goes before the first greater one. -/
theorem pairwise_insert {values : List Nat} {value : Nat} (ordered : values.Pairwise (· < ·))
    (fresh : value ∉ values) :
    (values.take (values.findIdx fun other => decide (value < other)) ++
      value :: values.drop (values.findIdx fun other => decide (value < other))).Pairwise (· < ·) := by
  induction values with
  | nil => simp
  | cons first rest inductionHypothesis =>
    obtain ⟨least, ordered⟩ := List.pairwise_cons.mp ordered
    simp only [List.mem_cons, not_or] at fresh
    rw [List.findIdx_cons]
    by_cases before : value < first
    · simp only [before, decide_true, cond_true, List.take_zero, List.drop_zero, List.nil_append]
      refine List.pairwise_cons.mpr ⟨?_, List.pairwise_cons.mpr ⟨least, ordered⟩⟩
      intro other present
      rcases List.mem_cons.mp present with rfl | later
      · exact before
      · exact before.trans (least other later)
    · have after : first < value := by omega
      simp only [before, decide_false, cond_false, List.take_succ_cons, List.drop_succ_cons,
        List.cons_append]
      refine List.pairwise_cons.mpr ⟨?_, inductionHypothesis ordered fresh.2⟩
      intro other present
      rcases List.mem_append.mp present with front | back
      · exact least other (List.mem_of_mem_take front)
      · rcases List.mem_cons.mp back with rfl | later
        · exact after
        · exact least other (List.mem_of_mem_drop later)

/-- Frames are ordered if the ranks of their targets increase. -/
theorem framesOrdered_iff {body : Body} {frames : List Frame} :
    body.FramesOrdered frames ↔
      ((frames.map Frame.target).map body.rank).Pairwise (· < ·) := by
  rw [FramesOrdered, List.map_map, List.pairwise_map]
  rfl

/-- Frames stay in order when an island gets one before the first frame after it. -/
theorem FramesOrdered.withIslandFrame {body : Body} {frames : List Frame}
    (ordered : body.FramesOrdered frames) (states : List FrameState) (island : Frame)
    (apart : ∀ frame ∈ frames, body.rank frame.target ≠ body.rank island.target) :
    body.FramesOrdered (Body.withIslandFrame frames states
      (frames.findIdx fun frame => decide (body.rank island.target < body.rank frame.target))
      island) := by
  rw [framesOrdered_iff] at ordered
  have fresh : body.rank island.target ∉ (frames.map Frame.target).map body.rank := by
    intro present
    simp only [List.map_map, List.mem_map] at present
    obtain ⟨frame, member, same⟩ := present
    exact apart frame member same
  have inserted := pairwise_insert ordered fresh
  rw [List.map_map, List.findIdx_map, ← List.map_take, ← List.map_drop] at inserted
  rw [framesOrdered_iff, map_target_withIslandFrame, List.map_append, List.map_cons, List.map_map,
    List.map_map]
  exact inserted

/-- An extension changes no comparison of the instructions that have frames. -/
theorem Grows.framesOrdered {branch : Handle} {now later : Body} (grows : Grows branch now later)
    {frames : List Frame} (live : ∀ frame ∈ frames, now.contains frame.target = true)
    (ordered : now.FramesOrdered frames) : later.FramesOrdered frames := by
  refine ordered.imp_of_mem ?_
  intro first second memberFirst memberSecond ranked
  exact (grows.rank_lt_iff (live first memberFirst) (live second memberSecond)).mpr ranked

/-- An extension may add a frame for an island. -/
theorem Grows.framesOrdered_withIslandFrame {branch island : Handle} {now later : Body}
    (grows : Grows branch now later) {frames : List Frame}
    (live : ∀ frame ∈ frames, now.contains frame.target = true)
    (ordered : now.FramesOrdered frames) (fresh : now.contains island = false)
    (present : later.contains island = true) (states : List FrameState) (kind : FrameKind) :
    later.FramesOrdered (Body.withIslandFrame frames states (later.framesBefore island frames)
      (.new island kind)) := by
  have kept : ∀ frame ∈ frames, later.contains frame.target = true :=
    fun frame member => grows.kept _ (live frame member)
  have apart : ∀ frame ∈ frames, later.rank frame.target ≠ later.rank island := by
    intro frame member same
    rw [grows.listed.rank_inj (kept frame member)] at same
    rw [← same, live frame member] at fresh
    cases fresh
  rw [grows.listed.framesBefore present kept]
  exact (grows.framesOrdered live ordered).withIslandFrame states (.new island kind) apart

/-- Frames whose positions ascend are listed in order. -/
theorem Synced.framesOrdered {before body : Body} (synced : Synced before body)
    (listed : body.Listed) {arranged : List (Nat × Frame)}
    (found : ∀ entry ∈ arranged, body.bci entry.2.target = .ok entry.1)
    (ascending : Frame.Ascending none arranged) : body.FramesOrdered (arranged.map Prod.snd) := by
  rw [FramesOrdered, List.pairwise_map]
  refine ascending.1.imp_of_mem ?_
  intro first second memberFirst memberSecond before
  obtain ⟨one, foundFirst, startsFirst⟩ := bci_eq_ok_iff.mp (found first memberFirst)
  obtain ⟨two, foundSecond, startsSecond⟩ := bci_eq_ok_iff.mp (found second memberSecond)
  apply (synced.bci_lt_iff listed foundFirst foundSecond).mp
  rw [startsFirst, startsSecond]
  exact before

/-- Settled frames are listed in order. -/
theorem FramesSettled.ordered {before body : Body} (synced : Synced before body)
    (listed : body.Listed) {old new : List Frame} (settledFrames : body.FramesSettled old new) :
    ∃ arranged, arranged.Perm old ∧ body.FramesOrdered arranged ∧ body.FramesOrdered new ∧
      (∀ entry : FrameState, entry.expand new = entry.expand arranged) ∧
      ∀ frame ∈ new, ∃ other ∈ arranged,
        frame.kind = (Frame.promotion? frame.delta other.kind).getD other.kind := by
  obtain ⟨arranged, permuted, found, ascending, rfl⟩ := settledFrames
  have ranked := synced.framesOrdered listed found ascending
  refine ⟨arranged.map Prod.snd, permuted, ranked, ?_, ?_, ?_⟩
  · rw [framesOrdered_iff] at ranked ⊢
    rw [List.map_map, List.map_map] at ranked
    rw [targets_settled, List.map_map]
    exact ranked
  · intro entry
    exact FrameState.expand_settled entry none arranged
  · intro frame present
    clear found ascending ranked permuted
    generalize none = previous at present
    induction arranged generalizing previous with
    | nil => cases present
    | cons placed rest inductionHypothesis =>
      obtain ⟨bci, first⟩ := placed
      rw [Frame.settled] at present
      rcases List.mem_cons.mp present with rfl | later
      · exact ⟨first, by simp, rfl⟩
      · obtain ⟨other, member, same⟩ := inductionHypothesis (some bci) later
        exact ⟨other, List.mem_cons_of_mem _ member, same⟩

end Body

end Classfile
