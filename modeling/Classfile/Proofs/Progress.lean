import Classfile.Code.Cursor
import Classfile.Proofs.LayoutRank

/-!
When the steps of relaxation succeed.

Computing the layout of a body fails only for references to removed instructions and for frames that
share an instruction. A branch can be pointed at an island wherever the state on entry is known, the
target has a frame and a site is near enough, and the site is the nearest transfer.
-/

namespace Classfile

/-- How far after a position an instruction ends. -/
def Slot.reach (slot : Slot) (source : Nat) : Int :=
  (slot.bci : Int) + slot.instruction.width - source

namespace Frame

/-- Frames whose positions ascend do not conflict. -/
theorem conflict_settleOnto {placed : List (Nat × Frame)} {previous : Option Nat}
    (ascending : Ascending previous placed) (done : List Frame) (promotions : List Event) :
    (settleOnto done promotions previous placed).conflict = none := by
  induction placed generalizing previous done promotions with
  | nil => rfl
  | cons entry rest inductionHypothesis =>
    obtain ⟨bci, frame⟩ := entry
    have apart : previous ≠ some bci := by
      intro same
      exact Nat.lt_irrefl bci (ascending.2 bci same (bci, frame) (by simp))
    rw [settleOnto, if_neg apart]
    cases promoted : promotion? (deltaFrom previous bci) frame.kind with
    | none =>
      simp only [promoted]
      exact inductionHypothesis ascending.tail _ _
    | some kind =>
      simp only [promoted]
      exact inductionHypothesis ascending.tail _ _

/-- Frames at different positions do not conflict. -/
theorem conflict_settle {placed : List (Nat × Frame)} (distinct : (placed.map Prod.fst).Nodup) :
    (settle placed).conflict = none := by
  have ordered := @List.pairwise_mergeSort _ (fun left right : Nat × Frame => left.1 ≤ right.1)
    (fun first second third => by simpa using Nat.le_trans)
    (fun first second => by simpa using Nat.le_total first.1 second.1) placed
  have permuted := (List.mergeSort_perm placed fun left right => left.1 ≤ right.1).map Prod.fst
  have different := List.pairwise_map.mp (permuted.nodup_iff.mpr distinct)
  apply conflict_settleOnto
  refine ⟨(ordered.and different).imp ?_, by simp⟩
  intro first second both
  exact lt_of_le_of_ne (by simpa using both.1) both.2

end Frame

namespace Body

/-- Placing instructions puts none in or out of use. -/
theorem Listed.contains_place {body : Body} (listed : body.Listed) (handle : Handle) :
    body.place.contains handle = body.contains handle := by
  obtain ⟨bci, placed⟩ := listed.slot?_place handle
  rw [contains, placed, Option.isSome_map, contains]

/-- Placing instructions keeps the targets of jumps in use. -/
theorem Listed.jumpsLive_place {body : Body} (listed : body.Listed) (live : body.JumpsLive) :
    body.place.JumpsLive := by
  intro handle slot found jump present
  obtain ⟨bci, placed⟩ := listed.slot?_place handle
  obtain ⟨old, foundOld, same⟩ := Option.map_eq_some_iff.mp (placed.symm.trans found)
  rw [← same, Instruction.labels_alignedAt] at present
  rw [listed.contains_place]
  exact live handle old foundOld jump present

/-- Frames at instructions in use can be placed. -/
theorem exists_placeFrames {body : Body} {frames : List Frame}
    (present : ∀ frame ∈ frames, body.contains frame.target = true) :
    ∃ placed, body.placeFrames frames = .ok placed := by
  let position (frame : Frame) : Nat := ((body.slot? frame.target).map Slot.bci).getD 0
  refine ⟨frames.map fun frame => (position frame, frame), placeFrames_eq_ok_iff.mpr ⟨?_, ?_⟩⟩
  · rw [List.map_map]
    exact List.map_id frames
  · intro entry member
    obtain ⟨frame, listedFrame, rfl⟩ := List.mem_map.mp member
    obtain ⟨slot, found⟩ := contains_iff.mp (present frame listedFrame)
    refine bci_eq_ok_iff.mpr ⟨slot, found, ?_⟩
    show slot.bci = ((body.slot? frame.target).map Slot.bci).getD 0
    rw [found]
    rfl

/-- Frames at different instructions have different positions. -/
theorem nodup_of_placeFrames {body : Body} {stop : Nat} {frames : List Frame}
    {placed : List (Nat × Frame)} (located : body.placeFrames frames = .ok placed)
    (laid : Laid body.slot? 0 body.order.toList stop)
    (listed : ∀ frame ∈ frames, frame.target ∈ body.order.toList)
    (distinct : (frames.map Frame.target).Nodup) : (placed.map Prod.fst).Nodup := by
  obtain ⟨rfl, found⟩ := placeFrames_eq_ok_iff.mp located
  rw [List.map_map] at distinct
  apply List.pairwise_map.mpr
  apply (List.pairwise_map.mp distinct).imp_of_mem
  intro first second memberFirst memberSecond different same
  obtain ⟨one, foundFirst, startsFirst⟩ := bci_eq_ok_iff.mp (found first memberFirst)
  obtain ⟨two, foundSecond, startsSecond⟩ := bci_eq_ok_iff.mp (found second memberSecond)
  apply different
  apply laid.bci_inj (listed first.2 (List.mem_map_of_mem memberFirst))
    (listed second.2 (List.mem_map_of_mem memberSecond)) foundFirst foundSecond
  rw [startsFirst, startsSecond, same]

/-- The layout of a body can be computed where all jumps lead to instructions and no two frames
share one. -/
theorem Listed.exists_sync {body : Body} (listed : body.Listed) (live : body.JumpsLive)
    (framed : ∀ frames, body.frames? = some frames → (frames.map Frame.target).Nodup ∧
      ∀ frame ∈ frames, body.contains frame.target = true) (events : Array Event) :
    ∃ after, Body.sync ⟨body, events⟩ = .ok () after := by
  let resolved : Body := { body.place with
    slots := body.place.slots.map (Option.map body.place.measureSlot) }
  have done : body.place.resolveJumps = .ok resolved :=
    resolveJumps_eq_ok_iff.mpr ⟨listed.jumpsLive_place live, rfl⟩
  cases known : body.frames? with
  | none => exact ⟨_, sync_of_resolved done known events⟩
  | some frames =>
    obtain ⟨distinct, present⟩ := framed frames known
    have kept (handle : Handle) : resolved.contains handle = body.contains handle := by
      rw [← listed.contains_place, contains, body.place.slot?_measured, Option.isSome_map, contains]
    obtain ⟨placed, located⟩ := exists_placeFrames fun frame member =>
      (kept frame.target).trans (present frame member)
    have apart := nodup_of_placeFrames located listed.laid_measured
      (fun frame member => (listed.live frame.target).mpr (present frame member)) distinct
    rw [sync_of_placed done known located, Frame.conflict_settle apart]
    exact ⟨_, rfl⟩

/-- Without exception ranges, every site within reach is eligible. -/
theorem islandDistance?_of_uncovered {body : Body} (uncovered : body.ranges = []) (source : Nat)
    (slot : Slot) :
    body.islandDistance? source slot =
      .ok (if inIslandReach (slot.reach source) then some (slot.reach source).natAbs else none) := by
  rw [islandDistance?, uncovered]
  show Except.ok (if inIslandReach (slot.reach source) = true ∧ ¬false = true then
    some (slot.reach source).natAbs else none) = _
  by_cases reached : inIslandReach (slot.reach source) = true
  · rw [if_pos reached, if_pos ⟨reached, by simp⟩]
  · rw [if_neg reached, if_neg (fun both => reached both.1)]

/-- A site that is further away than the nearest one is passed over. -/
theorem closer_of_further {best : Option (Nat × Handle)} {nearest distance : Nat}
    {site handle : Handle} (further : nearest < distance) :
    (best = some (nearest, site) → closer best distance handle = some (nearest, site)) ∧
      ((∀ least other, best = some (least, other) → nearest < least) →
        ∀ least other, closer best distance handle = some (least, other) → nearest < least) := by
  constructor
  · intro found
    rw [found, closer, if_neg (by omega)]
  · intro least distance' chosen same
    unfold closer at same
    split at same
    · split at same
      · cases same
        exact further
      · exact least distance' chosen same
    · cases same
      exact further

/-- The search for a site ends with the nearest one. -/
theorem foldlM_nearest {body : Body} (uncovered : body.ranges = []) {source : Nat} {site : Handle}
    {slot : Slot} (reached : inIslandReach (slot.reach source) = true)
    (entries : List (Handle × Slot)) (best : Option (Nat × Handle))
    (same : ∀ other, (site, other) ∈ entries → other = slot)
    (nearest : ∀ handle other, (handle, other) ∈ entries → handle ≠ site →
      (slot.reach source).natAbs < (other.reach source).natAbs)
    (state : best = some ((slot.reach source).natAbs, site) ∨ (site, slot) ∈ entries ∧
      ∀ least handle, best = some (least, handle) → (slot.reach source).natAbs < least) :
    entries.foldlM (fun best (handle, slot) => do
      match ← body.islandDistance? source slot with
      | some distance => return closer best distance handle
      | none => return best) best = .ok (some ((slot.reach source).natAbs, site)) := by
  induction entries generalizing best with
  | nil =>
    rcases state with found | ⟨present, _⟩
    · rw [found]
      rfl
    · cases present
  | cons entry entries inductionHypothesis =>
    obtain ⟨handle, other⟩ := entry
    have continued := fun best => inductionHypothesis best
      (fun other member => same other (by simp [member]))
      (fun handle other member => nearest handle other (by simp [member]))
    rw [List.foldlM_cons]
    simp only
    rw [islandDistance?_of_uncovered uncovered]
    by_cases here : handle = site
    · have equal := same other (by simp [here])
      rw [equal, here, if_pos reached]
      apply continued (closer best (slot.reach source).natAbs site)
      left
      rcases state with found | ⟨_, further⟩
      · rw [found, closer, if_neg (Nat.lt_irrefl _)]
      · cases best with
        | none => rfl
        | some pair => rw [closer, if_pos (further _ _ rfl)]
    · have further := nearest handle other (by simp) here
      have remaining (present : (site, slot) ∈ (handle, other) :: entries) :
          (site, slot) ∈ entries := by
        rcases List.mem_cons.mp present with first | rest
        · exact (here (Prod.mk.inj first).1.symm).elim
        · exact rest
      by_cases eligible : inIslandReach (other.reach source) = true
      · rw [if_pos eligible]
        apply continued (closer best (other.reach source).natAbs handle)
        obtain ⟨kept, least⟩ := @closer_of_further best _ _ site handle further
        exact state.imp kept fun pair => ⟨remaining pair.1, least pair.2⟩
      · rw [if_neg eligible]
        apply continued best
        exact state.imp_right fun pair => ⟨remaining pair.1, pair.2⟩

/-- An island is placed after the nearest transfer. -/
theorem islandSite?_of_nearest {body : Body} (uncovered : body.ranges = []) {branch site : Handle}
    {source : Nat} {slot : Slot} (starts : body.bci branch = .ok source)
    (listed : site ∈ body.order.toList) (found : body.slot? site = some slot)
    (transfers : slot.instruction.isTransfer = true)
    (reached : inIslandReach (slot.reach source) = true)
    (nearest : ∀ handle ∈ body.order.toList, ∀ other, body.slot? handle = some other →
      other.instruction.isTransfer = true → handle ≠ site →
        (slot.reach source).natAbs < (other.reach source).natAbs) :
    body.islandSite? branch = .ok (some site) := by
  have searched := foldlM_nearest uncovered reached
    (body.laidOut.filter fun entry => entry.2.instruction.isTransfer) none
    (by
      intro other member
      obtain ⟨_, foundOther⟩ := mem_laidOut_iff.mp (List.mem_filter.mp member).1
      rw [found, Option.some.injEq] at foundOther
      exact foundOther.symm)
    (by
      intro handle other member different
      obtain ⟨laidOut, transfersOther⟩ := List.mem_filter.mp member
      obtain ⟨present, foundOther⟩ := mem_laidOut_iff.mp laidOut
      exact nearest handle present other foundOther transfersOther different)
    (.inr ⟨List.mem_filter.mpr ⟨mem_laidOut_iff.mpr ⟨listed, found⟩, transfers⟩, by simp⟩)
  rw [islandSite?, starts]
  exact exceptBind_eq_ok_iff.mpr ⟨source, rfl, exceptBind_eq_ok_iff.mpr ⟨_, searched, rfl⟩⟩

theorem insert_of_le {body : Body} {position : Nat} (inside : position ≤ body.order.size)
    (instruction : Instruction Jump) :
    body.insert position instruction =
      .ok (body.nextHandle, body.splice position instruction inside) := by
  rw [insert, dif_pos inside]

/-- Insertion before a listed instruction is a splice that displaces it. -/
theorem exists_splice_insertBefore {body : Body} {anchor : Handle}
    (present : anchor ∈ body.order.toList) (instruction : Instruction Jump) :
    ∃ position inside, body.order[position]? = some anchor ∧
      body.insertBefore anchor instruction =
        .ok (body.nextHandle, body.splice position instruction inside) := by
  obtain ⟨position, found⟩ := Layout.findIdx?_of_mem present
  obtain ⟨below, same, _⟩ := List.findIdx?_eq_some_iff_getElem.mp found
  rw [Array.length_toList] at below
  refine ⟨position, Nat.le_of_lt below, ?_, ?_⟩
  · rw [Array.getElem?_eq_getElem below]
    exact congrArg some (of_decide_eq_true same)
  · rw [insertBefore, position_eq_ok_iff.mpr found]
    exact insert_of_le (Nat.le_of_lt below) instruction

/-- Insertion after a listed instruction is a splice. -/
theorem exists_splice_insertAfter {body : Body} {anchor : Handle}
    (present : anchor ∈ body.order.toList) (instruction : Instruction Jump) :
    ∃ position inside, body.insertAfter anchor instruction =
      .ok (body.nextHandle, body.splice position instruction inside) := by
  obtain ⟨position, found⟩ := Layout.findIdx?_of_mem present
  obtain ⟨below, _⟩ := List.findIdx?_eq_some_iff_getElem.mp found
  rw [Array.length_toList] at below
  refine ⟨position + 1, below, ?_⟩
  rw [insertAfter, position_eq_ok_iff.mpr found]
  exact insert_of_le below instruction

/-- An instruction in use can be set. -/
theorem exists_set {body : Body} {handle : Handle} (present : body.contains handle = true)
    (instruction : Instruction Jump) : ∃ result, body.set handle instruction = .ok result := by
  obtain ⟨slot, found⟩ := contains_iff.mp present
  rw [Body.set, slot_eq_ok_iff.mpr found]
  exact ⟨_, rfl⟩

end Body

/-- An instruction is pushed at the position of the cursor, which then lies behind it. -/
theorem Cursor.run_push {body : Body} {pool : Pool} {position : Nat} {events : Array Event}
    (instruction : Instruction Jump) (inside : position ≤ body.order.size) :
    Cursor.push instruction ⟨⟨⟨body, pool⟩, position⟩, events⟩ =
      .ok body.nextHandle ⟨⟨⟨body.splice position instruction inside, pool⟩, position + 1⟩, events⟩ := by
  simp only [Cursor.push, Task.bind_eq_ok_iff, Task.read_eq_ok_iff, Task.write_eq_ok_iff, Task.pure_eq_ok_iff,
    Cursor.onEdit, Task.focus_eq_ok_iff, Edit.change_eq_ok_iff]
  refine ⟨_, _, ⟨rfl, rfl⟩, body.nextHandle, _, ⟨_, ⟨_, ?_, rfl⟩, rfl⟩, _, _, ⟨rfl, rfl⟩, (), _, rfl,
    rfl, rfl⟩
  exact Body.insert_of_le inside instruction

/-- There is one state for each frame. -/
theorem FrameState.length_expand (entry : FrameState) (frames : List Frame) :
    (entry.expand frames).length = frames.length := by
  induction frames generalizing entry with
  | nil => rfl
  | cons frame frames inductionHypothesis =>
    rw [expand, List.length_cons, List.length_cons, inductionHypothesis]

/-- An island can be inserted at its site, and the branch pointed at it. -/
theorem Body.exists_island {body : Body} {branch site : Handle}
    (found : body.islandSite? branch = .ok (some site)) (present : body.contains branch = true)
    (opcode : Opcode) (target : Handle) :
    ∃ island middle after,
      body.insertAfter site (.wideBranch .gotoW (.to target)) = .ok (island, middle) ∧
      middle.set branch (.branch opcode (.to island)) = .ok after := by
  obtain ⟨_, _, inserted⟩ := exists_splice_insertAfter (transferAt_of_islandSite? found).1
    (.wideBranch .gotoW (.to target))
  have kept := ((inserts_of_insertAfter inserted).contains branch).mpr (.inr present)
  obtain ⟨after, replaced⟩ := exists_set kept (.branch opcode (.to body.nextHandle))
  exact ⟨_, _, after, inserted, replaced⟩

/-- Once a site is found, the branch is pointed at the island before the island gets its frame. -/
theorem Edit.branchToIsland_eq {before : Edit} (events : Array Event)
    {branch target site island : Handle} {opcode : Opcode} {context : MethodContext}
    {frames : List Frame} {entry : FrameState} {pool : Pool} {middle body : Body}
    (known : before.body.context = some context) (framed : before.body.frames? = some frames)
    (entered : context.entryFrame before.pool = .ok entry pool)
    (found : before.body.islandSite? branch = .ok (some site))
    (inserted : before.body.insertAfter site (.wideBranch .gotoW (.to target)) =
      .ok (island, middle))
    (replaced : middle.set branch (.branch opcode (.to island)) = .ok body) :
    branchToIsland branch opcode target ⟨before, events⟩ =
      (do
        frameIsland branch target island (entry.expand frames)
        Task.report (.branchToIsland opcode.mnemonic site)) ⟨⟨body, pool⟩, events⟩ := by
  rw [branchToIsland, Task.bind_of_eq_ok (run_body! before events)]
  simp only [known, framed]
  rw [Task.bind_of_eq_ok (onPool_eq_ok_iff.mpr ⟨pool, entered, rfl⟩),
    Task.bind_of_eq_ok (Task.ofExcept_eq_ok_iff.mpr ⟨found, rfl⟩)]
  dsimp only
  rw [Task.bind_of_eq_ok (change_eq_ok_iff.mpr ⟨_, inserted, rfl⟩),
    Task.bind_of_eq_ok ((@replace_eq_ok_iff _ () _ _).mpr ⟨_, replaced, rfl⟩)]

/-- A branch that needs an island gets one where there is a site for it. -/
theorem Edit.exists_extendBranch {before : Edit} (events : Array Event) {branch site : Handle}
    {opcode : Opcode} {jump : Jump} {bci : Nat} {context : MethodContext} {frames : List Frame}
    {entry : FrameState} {pool : Pool} (starts : before.body.bci branch = .ok bci)
    (narrow : opcode.widened? = none) (unframed : before.body.needsIsland branch = .ok true)
    (known : before.body.context = some context) (framed : before.body.frames? = some frames)
    (entered : context.entryFrame before.pool = .ok entry pool)
    (found : before.body.islandSite? branch = .ok (some site))
    (described : ∃ frame ∈ frames, frame.target = jump.target) :
    ∃ after, extendBranch branch opcode jump ⟨before, events⟩ = .ok () after := by
  obtain ⟨slot, foundBranch, _⟩ := Body.bci_eq_ok_iff.mp starts
  obtain ⟨island, middle, body, inserted, replaced⟩ := Body.exists_island found
    (Body.contains_iff.mpr ⟨slot, foundBranch⟩) opcode jump.target
  have kept : body.frames? = some frames := by
    rw [frames?_of_inserts_replaces (Body.inserts_of_insertAfter inserted)
      (Body.replaces_of_set replaced), framed]
  have index : (frames.findIdx fun frame => frame.target = jump.target) < frames.length := by
    apply List.findIdx_lt_length_of_exists
    obtain ⟨frame, member, same⟩ := described
    exact ⟨frame, member, by simpa using same⟩
  obtain ⟨state, stated⟩ : ∃ state,
      (entry.expand frames)[frames.findIdx fun frame => frame.target = jump.target]? = some state := by
    rw [← Option.isSome_iff_exists, isSome_getElem?, FrameState.length_expand]
    exact index
  let framedBody := body.setFrames (Body.withIslandFrame frames (entry.expand frames)
    (body.framesBefore island frames) (.new island state.toFull))
  have placed (reported : Array Event) :
      frameIsland branch jump.target island (entry.expand frames) ⟨⟨body, pool⟩, reported⟩ =
        .ok () ⟨⟨framedBody, pool⟩, reported⟩ := by
    rw [frameIsland, Task.bind_of_eq_ok (run_body! _ _)]
    simp only [kept, stated]
    exact replace_eq_ok_iff.mpr ⟨framedBody, rfl, rfl⟩
  have pointed (reported : Array Event) :
      branchToIsland branch opcode jump.target ⟨before, reported⟩ =
        .ok () ⟨⟨framedBody, pool⟩, reported.push (.branchToIsland opcode.mnemonic site)⟩ := by
    rw [branchToIsland_eq reported known framed entered found inserted replaced,
      Task.bind_of_eq_ok (placed reported)]
    rfl
  let noticed := events.push (.branchOversized opcode.mnemonic bci jump.offset)
  refine ⟨⟨⟨framedBody, pool⟩, noticed.push (.branchToIsland opcode.mnemonic site)⟩, ?_⟩
  simp only [extendBranch, Task.bind_eq_ok_iff, body!_eq_ok_iff, Task.ofExcept_eq_ok_iff,
    Task.report_eq_ok_iff]
  refine ⟨_, _, ⟨rfl, rfl⟩, bci, _, ⟨starts, rfl⟩, (), _, rfl, ?_⟩
  simp only [narrow, Task.bind_eq_ok_iff, Task.ofExcept_eq_ok_iff]
  refine ⟨true, _, ⟨unframed, rfl⟩, ?_⟩
  rw [if_pos rfl]
  exact pointed noticed

end Classfile
