import Classfile.Proofs.BodyRoundTrip
import Classfile.Proofs.FrameSettling
import Classfile.Proofs.Outcomes

/-!
The layout that `Body.sync` computes.

Each instruction starts at the sum of the widths of those before it, switches are padded to a multiple
of four, and offsets are differences of positions. Nothing else changes apart from the deltas and
encodings of frames, and computing the layout again changes nothing at all.
-/

namespace Classfile

/-- The operands of a switch with the padding for its position start at a multiple of four. -/
theorem switchPadding_aligns (bci : Nat) :
    (switchPadding bci).toNat ≤ 3 ∧ 4 ∣ bci + 1 + (switchPadding bci).toNat := by
  have value : (switchPadding bci).toNat = 3 - bci % 4 := by
    unfold switchPadding
    simp only [UInt8.toNat_ofNat']
    omega
  omega

namespace Slot

/-- The number of bytes that instructions take. -/
def totalWidth (slots : List Slot) : Nat :=
  Bytes.totalSize (fun slot => slot.instruction.width) slots

/-- An instruction starts after all the instructions before it. -/
theorem Consecutive.start {bci : Nat} {front back : List Slot} {slot : Slot}
    (consecutive : Consecutive bci (front ++ slot :: back)) :
    slot.bci = bci + totalWidth front := by
  induction front generalizing bci with
  | nil => exact consecutive.1
  | cons first rest inductionHypothesis =>
    rw [inductionHypothesis consecutive.2]
    show bci + first.instruction.width + totalWidth rest =
      bci + (first.instruction.width + totalWidth rest)
    omega

/-- Slots that follow each other are at ascending positions. -/
theorem Consecutive.ascending {bci : Nat} {slots : List Slot} (consecutive : Consecutive bci slots) :
    (slots.map Slot.bci).Pairwise (· < ·) ∧ ∀ slot ∈ slots, bci ≤ slot.bci := by
  induction slots generalizing bci with
  | nil => simp
  | cons first rest inductionHypothesis =>
    obtain ⟨ordered, least⟩ := inductionHypothesis consecutive.2
    have starts : first.bci = bci := consecutive.1
    have positive := first.instruction.width_pos
    rw [List.map_cons, List.pairwise_cons]
    refine ⟨⟨?_, ordered⟩, ?_⟩
    · intro later present
      obtain ⟨slot, member, rfl⟩ := List.mem_map.mp present
      have after := least slot member
      omega
    · intro slot present
      rcases List.mem_cons.mp present with rfl | later
      · omega
      · have after := least slot later
        omega

end Slot

/-- A table as computing the layout leaves it, where frames keep their order. -/
inductive CodeTable.Resettles : CodeTable → CodeTable → Prop where
  | frames {old new : List Frame} (adjusted : List.Forall₂ Frame.Adjusts old new) :
    Resettles (.frames old) (.frames new)
  | kept (table : CodeTable) : Resettles table table

/-- An attribute of the code keeps its name. -/
structure CodeAttribute.Resettles (old new : CodeAttribute) : Prop where
  nameIndex : new.nameIndex = old.nameIndex
  table : old.table.Resettles new.table

namespace Body

/-- The layout of a body and all that it shares with the body it was computed for. -/
structure LaysOut (before after : Body) : Prop where
  starts : ∀ front handle slot back, after.laidOut = front ++ (handle, slot) :: back →
    slot.bci = Slot.totalWidth (front.map Prod.snd)
  ascending : (after.laidOut.map fun entry => entry.2.bci).Pairwise (· < ·)
  length : after.codeLength = Slot.totalWidth (after.laidOut.map Prod.snd)
  switches : ∀ handle slot padding, after.slot? handle = some slot →
    slot.instruction.padding? = some padding →
      padding.toNat ≤ 3 ∧ 4 ∣ slot.bci + 1 + padding.toNat
  jumps : ∀ handle slot, after.slot? handle = some slot → ∀ jump ∈ slot.instruction.labels,
    ∃ target, after.slot? jump.target = some target ∧ jump.offset = (target.bci : Int) - slot.bci
  order : after.order = before.order
  shape? : ∀ handle, after.shape? handle = before.shape? handle
  tables : List.Forall₂ CodeAttribute.Resettles before.attributes after.attributes
  rest : after = { before with
    slots := after.slots, codeLength := after.codeLength, attributes := after.attributes }

/-- Tables that stay as they are have been settled. -/
theorem resettles_refl (attributes : List CodeAttribute) :
    List.Forall₂ CodeAttribute.Resettles attributes attributes := by
  rw [List.forall₂_same]
  intro entry _
  exact ⟨rfl, .kept entry.table⟩

/-- Only the first table with frames is replaced. -/
theorem resettles_replaceFrames {body : Body} {old new : List Frame}
    (adjusted : List.Forall₂ Frame.Adjusts old new) (attributes : List CodeAttribute)
    (known : frames? { body with attributes := attributes } = some old) :
    List.Forall₂ CodeAttribute.Resettles attributes (replaceFrames new attributes) := by
  induction attributes with
  | nil => exact .nil
  | cons entry rest inductionHypothesis =>
    obtain ⟨nameIndex, table⟩ := entry
    rw [frames?_cons] at known
    rw [replaceFrames]
    cases table with
    | frames frames =>
      cases known
      exact .cons ⟨rfl, .frames adjusted⟩ (resettles_refl rest)
    | _ => exact .cons ⟨rfl, .kept _⟩ (inductionHypothesis known)

section Layout

variable {before after : Body}

/-- Once the layout is computed, slots follow each other up to the length of the code. -/
theorem Synced.consecutive (synced : Synced before after) :
    Slot.Consecutive 0 (after.laidOut.map Prod.snd) ∧
      after.codeLength = Slot.totalWidth (after.laidOut.map Prod.snd) := by
  rw [map_snd_laidOut]
  have laid := synced.laid.consecutive
  rw [Nat.zero_add] at laid
  exact laid

/-- Once the layout is computed, instructions are aligned. -/
theorem Synced.aligned (synced : Synced before after) (listed : after.Listed) {handle : Handle}
    {slot : Slot} (found : after.slot? handle = some slot) :
    slot.instruction.alignedAt slot.bci = slot.instruction := by
  apply synced.laid.aligned
  apply List.mem_filterMap.mpr
  exact ⟨handle, (listed.live handle).mpr (contains_iff.mpr ⟨slot, found⟩), found⟩

/-- Frames in layout order are not put in another order. -/
theorem Synced.adjusted (synced : Synced before after) (listed : after.Listed)
    (sorted : before.Sorted) {old new : List Frame} (known : before.frames? = some old)
    (settled : after.FramesSettled old new) : List.Forall₂ Frame.Adjusts old new := by
  obtain ⟨arranged, permuted, found, ascending, rfl⟩ := settled
  have ordered := synced.framesOrdered listed found ascending
  rw [FramesOrdered, synced.rank] at ordered
  rw [Sorted, frames_of_frames? known] at sorted
  rw [← sorted.unique ordered permuted]
  exact Frame.adjusts_settled arranged none

/-- Once the layout is computed, tables of frames are settled and all others as they were. -/
theorem Synced.tables (synced : Synced before after) (listed : after.Listed)
    (sorted : before.Sorted) :
    List.Forall₂ CodeAttribute.Resettles before.attributes after.attributes := by
  cases known : before.frames? with
  | none =>
    rw [synced.unframed known]
    exact resettles_refl before.attributes
  | some old =>
    obtain ⟨new, settled, attributes⟩ := synced.framed old known
    rw [attributes]
    exact resettles_replaceFrames (synced.adjusted listed sorted known settled) before.attributes known

/-- A computed layout is the one that is asked for. -/
theorem Synced.laysOut (synced : Synced before after) (listed : after.Listed)
    (sorted : before.Sorted) : LaysOut before after := by
  have consecutive := synced.consecutive.1
  constructor
  · intro front handle slot back split
    rw [split, List.map_append, List.map_cons] at consecutive
    have started : slot.bci = 0 + Slot.totalWidth (front.map Prod.snd) := consecutive.start
    omega
  · have ascending := consecutive.ascending.1
    rwa [List.map_map] at ascending
  · exact synced.consecutive.2
  · intro handle slot padding found switch
    have aligned := synced.aligned listed found
    rw [Instruction.alignedAt_eq_self_iff] at aligned
    rw [aligned padding switch]
    exact switchPadding_aligns slot.bci
  · exact synced.measured
  · exact synced.order
  · exact synced.shape?
  · exact synced.tables listed sorted
  · exact synced.rest

/-- A layout that has been computed is not changed by computing it again, and nothing is reported. -/
theorem Synced.sync_again (synced : Synced before after) (events : Array Event) :
    Body.sync ⟨after, events⟩ = .ok () ⟨after, events⟩ := by
  apply sync_of_settlement events synced.laid synced.measured
  intro frames known
  rcases synced.frames?_eq with ⟨_, unknown⟩ | ⟨_, new, _, knownNew, settled⟩
  · rw [unknown] at known
    cases known
  · rw [knownNew, Option.some.injEq] at known
    obtain ⟨arranged, _, found, ascending, same⟩ := settled
    rw [← known, same]
    refine ⟨Frame.resettled none arranged, Frame.map_snd_resettled arranged none, ?_,
      Frame.settle_resettled ascending⟩
    intro entry present
    have moved : (entry.1, entry.2.target) ∈ arranged.map fun other => (other.1, other.2.target) := by
      rw [← Frame.map_place_resettled arranged none]
      exact List.mem_map_of_mem present
    obtain ⟨other, member, equal⟩ := List.mem_map.mp moved
    rw [Prod.mk.injEq] at equal
    rw [← equal.1, ← equal.2]
    exact found other member

end Layout

/-- The layout of a body without dangling references and with frames in layout order is computed,
however stale the positions, paddings and offsets in it are. -/
theorem Intact.sync_lays_out {body : Body} (intact : body.Intact) (sorted : body.Sorted)
    (events : Array Event) :
    ∃ after reported, Body.sync ⟨body, events⟩ = .ok () ⟨after, reported⟩ ∧ LaysOut body after ∧
      ∀ later, Body.sync ⟨after, later⟩ = .ok () ⟨after, later⟩ := by
  obtain ⟨⟨after, reported⟩, ran⟩ := intact.exists_sync sorted events
  have synced : Synced body after := intact.listed.synced_of_sync ran
  have listed := synced.listed intact.listed
  exact ⟨after, reported, ran, synced.laysOut listed sorted, synced.sync_again⟩

/-- Code whose switch comes second in the layout and first in the arena, with a removed instruction
and positions that belong to no layout. -/
def staleSwitch : Body where
  nameIndex := 1
  maxStack := 1
  maxLocals := 0
  slots := #[some ⟨.tableSwitch 3 ⟨⟨3⟩, 0⟩ 0 [⟨⟨1⟩, 7⟩], 40⟩, some ⟨.simple .nop, 6⟩, none,
    some ⟨.branch .goto ⟨⟨0⟩, 5⟩, 6⟩]
  order := #[⟨1⟩, ⟨0⟩, ⟨3⟩]
  codeLength := 9
  ranges := [⟨⟨1⟩, none, ⟨3⟩, none⟩]
  attributes := [⟨2, .frames [⟨⟨0⟩, 9, .same⟩, ⟨⟨3⟩, 9, .same⟩]⟩, ⟨3, .lines [⟨⟨1⟩, 4⟩]⟩]
  context := none

theorem intact_staleSwitch : staleSwitch.Intact := ⟨by decide, by decide⟩

/-- The only frame is sorted. -/
theorem sorted_staleSwitch : staleSwitch.Sorted := by
  unfold Sorted FramesOrdered
  decide

theorem Intact.sync_lays_out_staleSwitch :
    ∃ after reported, Body.sync ⟨staleSwitch, #[]⟩ = .ok () ⟨after, reported⟩ ∧
      LaysOut staleSwitch after ∧ ∀ later, Body.sync ⟨after, later⟩ = .ok () ⟨after, later⟩ :=
  intact_staleSwitch.sync_lays_out sorted_staleSwitch #[]

end Body

end Classfile
