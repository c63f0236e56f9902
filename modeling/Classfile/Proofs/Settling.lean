import Classfile.Proofs.LayoutOrder
import Classfile.Proofs.TableForm

/-!
What computing the layout does to a body.

`Body.sync` keeps the layout order and the shape of every instruction. Afterwards each instruction
starts where the one before it ends, each jump offset is the distance to its target, and frames
stand in the order of their positions. A body for which all of this holds already is left as it is.
-/

namespace Classfile

/-- Different handles have different indices. -/
theorem Handle.index_ne {first second : Handle} (different : first ≠ second) :
    first.index ≠ second.index := by
  intro same
  apply different
  cases first
  cases second
  simpa using same

/-- Instructions one after the other from a position on, each with the padding its position asks
for. -/
def Laid (slots : Handle → Option Slot) : Nat → List Handle → Nat → Prop
  | bci, [], stop => bci = stop
  | bci, handle :: rest, stop =>
    ∃ slot, slots handle = some slot ∧ slot.bci = bci ∧
      slot.instruction.alignedAt bci = slot.instruction ∧
      Laid slots (bci + slot.instruction.width) rest stop

/-- What keeps positions, widths and paddings keeps the layout. -/
theorem Laid.map {slots changed : Handle → Option Slot} {bci stop : Nat} {order : List Handle}
    (laid : Laid slots bci order stop) (change : Slot → Slot)
    (changes : ∀ handle, changed handle = (slots handle).map change)
    (starts : ∀ slot, (change slot).bci = slot.bci)
    (widths : ∀ slot, (change slot).instruction.width = slot.instruction.width)
    (aligned : ∀ slot bci, slot.instruction.alignedAt bci = slot.instruction →
      (change slot).instruction.alignedAt bci = (change slot).instruction) :
    Laid changed bci order stop := by
  induction order generalizing bci with
  | nil => exact laid
  | cons handle rest inductionHypothesis =>
    obtain ⟨slot, found, started, padded, continued⟩ := laid
    refine ⟨change slot, ?_, ?_, aligned slot bci padded, ?_⟩
    · rw [changes, found]
      rfl
    · rw [starts, started]
    · rw [widths]
      exact inductionHypothesis continued

/-- An instruction starts where the one laid out before it ends. -/
theorem Laid.successor? {slots : Handle → Option Slot} {bci stop : Nat} {order : List Handle}
    (laid : Laid slots bci order stop) {handle next : Handle} {slot : Slot}
    (found : slots handle = some slot) (follows : Layout.successor? order handle = some next) :
    ∃ other, slots next = some other ∧ other.bci = slot.bci + slot.instruction.width := by
  induction order generalizing bci with
  | nil => simp [Layout.successor?] at follows
  | cons first rest inductionHypothesis =>
    obtain ⟨here, foundHere, starts, _, continued⟩ := laid
    rw [Layout.successor?] at follows
    by_cases same : first = handle
    · rw [if_pos same] at follows
      rw [same, found, Option.some.injEq] at foundHere
      cases rest with
      | nil => simp at follows
      | cons second others =>
        obtain ⟨other, foundOther, starting, _, _⟩ := continued
        simp only [List.head?_cons, Option.some.injEq] at follows
        exact ⟨other, follows ▸ foundOther, by rw [starting, foundHere, starts]⟩
    · rw [if_neg same] at follows
      exact inductionHypothesis continued follows

namespace Placement

def slot? (placement : Placement) (handle : Handle) : Option Slot :=
  placement.slots[handle.index]?.join

/-- An instruction is placed at the current position, with the padding that this asks for. -/
theorem slot?_place_self (placement : Placement) (handle : Handle) :
    (placement.place handle).slot? handle =
      (placement.slot? handle).map fun slot =>
        ⟨slot.instruction.alignedAt placement.bci, placement.bci⟩ := by
  rw [place, slot?, slot?]
  cases found : placement.slots[handle.index]? with
  | none => simp [found]
  | some entry =>
    have inside := (Array.getElem?_eq_some_iff.mp found).1
    cases entry with
    | none => simp [found]
    | some slot => simp [inside]

/-- Placing an instruction leaves all others where they are. -/
theorem slot?_place_other (placement : Placement) {handle other : Handle}
    (different : other ≠ handle) : (placement.place handle).slot? other = placement.slot? other := by
  have apart := Handle.index_ne (Ne.symm different)
  rw [place, slot?]
  cases placement.slots[handle.index]?.join with
  | none => rfl
  | some slot => simp [slot?, Array.getElem?_setIfInBounds_ne apart]

/-- After an instruction is placed, the next position is the one where it ends. -/
theorem bci_place {placement : Placement} {handle : Handle} {slot : Slot}
    (found : placement.slot? handle = some slot) :
    (placement.place handle).bci =
      placement.bci + (slot.instruction.alignedAt placement.bci).width := by
  rw [slot?] at found
  simp [place, found]

theorem size_place (placement : Placement) (handle : Handle) :
    (placement.place handle).slots.size = placement.slots.size := by
  rw [place]
  cases placement.slots[handle.index]?.join with
  | none => rfl
  | some slot => simp

/-- Placing instructions keeps the number of slots. -/
theorem size_foldl_place (order : List Handle) (placement : Placement) :
    (order.foldl place placement).slots.size = placement.slots.size := by
  induction order generalizing placement with
  | nil => rfl
  | cons handle rest inductionHypothesis =>
    rw [List.foldl_cons, inductionHypothesis, size_place]

/-- Instructions that are not placed stay where they are. -/
theorem slot?_foldl_place_other (order : List Handle) (placement : Placement) {handle : Handle}
    (absent : handle ∉ order) :
    (order.foldl place placement).slot? handle = placement.slot? handle := by
  induction order generalizing placement with
  | nil => rfl
  | cons first rest inductionHypothesis =>
    rw [List.mem_cons, not_or] at absent
    rw [List.foldl_cons, inductionHypothesis _ absent.2, slot?_place_other _ absent.1]

/-- A listed instruction is aligned to the position it is given. -/
theorem slot?_foldl_place (order : List Handle) (placement : Placement) (distinct : order.Nodup)
    {handle : Handle} (present : handle ∈ order) :
    ∃ bci, (order.foldl place placement).slot? handle =
      (placement.slot? handle).map fun slot => ⟨slot.instruction.alignedAt bci, bci⟩ := by
  induction order generalizing placement with
  | nil => simp at present
  | cons first rest inductionHypothesis =>
    rw [List.nodup_cons] at distinct
    by_cases same : handle = first
    · refine ⟨placement.bci, ?_⟩
      rw [List.foldl_cons, same, slot?_foldl_place_other rest _ distinct.1, slot?_place_self]
    · have later : handle ∈ rest := (List.mem_cons.mp present).resolve_left same
      obtain ⟨bci, placed⟩ := inductionHypothesis (placement.place first) distinct.2 later
      exact ⟨bci, by rw [List.foldl_cons, placed, slot?_place_other _ same]⟩

/-- Instructions that are placed in some order are laid out in it. -/
theorem laid_foldl_place (order : List Handle) (placement : Placement) (distinct : order.Nodup)
    (live : ∀ handle ∈ order, (placement.slot? handle).isSome) :
    Laid (order.foldl place placement).slot? placement.bci order
      (order.foldl place placement).bci := by
  induction order generalizing placement with
  | nil => rfl
  | cons first rest inductionHypothesis =>
    rw [List.nodup_cons] at distinct
    obtain ⟨slot, found⟩ := Option.isSome_iff_exists.mp (live first (by simp))
    have others : ∀ handle ∈ rest, ((placement.place first).slot? handle).isSome := by
      intro handle later
      have different : handle ≠ first := fun same => distinct.1 (same ▸ later)
      rw [slot?_place_other _ different]
      exact live handle (by simp [later])
    -- Placing an instruction leaves the ones behind it to be placed.
    have continued := inductionHypothesis (placement.place first) distinct.2 others
    rw [bci_place found] at continued
    refine ⟨⟨slot.instruction.alignedAt placement.bci, placement.bci⟩, ?_, rfl, ?_, continued⟩
    · rw [List.foldl_cons, slot?_foldl_place_other rest _ distinct.1, slot?_place_self, found]
      rfl
    · exact Instruction.alignedAt_alignedAt _ _ _

/-- Placing an instruction where it is already changes nothing but the position. -/
theorem place_of_laid {placement : Placement} {handle : Handle} {slot : Slot}
    (found : placement.slot? handle = some slot) (starts : slot.bci = placement.bci)
    (aligned : slot.instruction.alignedAt placement.bci = slot.instruction) :
    placement.place handle = ⟨placement.slots, placement.bci + slot.instruction.width⟩ := by
  rw [slot?] at found
  have present : placement.slots[handle.index]? = some (some slot) := by
    simpa [Option.join_eq_some_iff] using found
  simp only [place, found, aligned, Placement.mk.injEq, and_true]
  apply Array.ext_getElem?
  intro index
  rw [Array.getElem?_setIfInBounds, ← starts]
  split
  · rename_i same
    rw [if_pos (Array.getElem?_eq_some_iff.mp present).1, ← same, present]
  · rfl

/-- Instructions that are laid out already keep their positions. -/
theorem foldl_place_of_laid (order : List Handle) (placement : Placement) (stop : Nat)
    (laid : Laid placement.slot? placement.bci order stop) :
    order.foldl place placement = ⟨placement.slots, stop⟩ := by
  induction order generalizing placement with
  | nil =>
    obtain ⟨slots, bci⟩ := placement
    obtain rfl : bci = stop := laid
    rfl
  | cons first rest inductionHypothesis =>
    obtain ⟨slot, found, starts, aligned, continued⟩ := laid
    rw [List.foldl_cons, place_of_laid found starts aligned]
    exact inductionHypothesis ⟨placement.slots, placement.bci + slot.instruction.width⟩ continued

end Placement

namespace Body

/-- The slots after placing are those that placing handle by handle leaves. -/
theorem slot?_place (body : Body) (handle : Handle) :
    body.place.slot? handle =
      (body.order.toList.foldl Placement.place ⟨body.slots, 0⟩).slot? handle := by
  rw [Array.foldl_toList]
  rfl

/-- After placing, the instructions are laid out from zero to the length of the code. -/
theorem Listed.laid_place {body : Body} (listed : body.Listed) :
    Laid body.place.slot? 0 body.order.toList body.place.codeLength := by
  have placed := Placement.laid_foldl_place body.order.toList ⟨body.slots, 0⟩ listed.distinct
    (fun handle present => (listed.live handle).mp present)
  have same : body.place.slot? =
      (body.order.toList.foldl Placement.place ⟨body.slots, 0⟩).slot? := by
    funext handle
    exact body.slot?_place handle
  rw [same]
  rw [Array.foldl_toList] at placed ⊢
  exact placed

/-- Placement changes the position and the padding of an instruction and nothing else. -/
theorem Listed.slot?_place {body : Body} (listed : body.Listed) (handle : Handle) :
    ∃ bci, body.place.slot? handle =
      (body.slot? handle).map fun slot => ⟨slot.instruction.alignedAt bci, bci⟩ := by
  rw [Body.slot?_place]
  by_cases present : handle ∈ body.order.toList
  · exact Placement.slot?_foldl_place _ _ listed.distinct present
  · have dead : body.slot? handle = none := by
      rw [listed.live, contains, Option.isSome_iff_ne_none, not_not] at present
      exact present
    refine ⟨0, ?_⟩
    rw [Placement.slot?_foldl_place_other _ _ present, dead]
    exact dead

/-- Placing instructions that are laid out already changes nothing. -/
theorem place_of_laid {body : Body}
    (laid : Laid body.slot? 0 body.order.toList body.codeLength) : body.place = body := by
  have placed := Placement.foldl_place_of_laid body.order.toList ⟨body.slots, 0⟩ _ laid
  rw [Array.foldl_toList] at placed
  rw [Body.place, placed]

/-- All jumps of the instructions lead to instructions. -/
def JumpsLive (body : Body) : Prop :=
  ∀ handle slot, body.slot? handle = some slot →
    ∀ jump ∈ slot.instruction.labels, body.contains jump.target = true

instance (body : Body) : Decidable body.JumpsLive := decidableForallSlot body _

/-- The offset of every jump is the distance to its target. -/
def JumpsMeasured (body : Body) : Prop :=
  ∀ handle slot, body.slot? handle = some slot → ∀ jump ∈ slot.instruction.labels,
    ∃ target, body.slot? jump.target = some target ∧ jump.offset = jumpOffset slot.bci target.bci

/-- A jump with the distance to its target as its offset. -/
def measure (body : Body) (source : Nat) (jump : Jump) : Jump :=
  { jump with
    offset := jumpOffset source (((body.slot? jump.target).map Slot.bci).getD 0) }

/-- A slot whose jumps are measured. -/
def measureSlot (body : Body) (slot : Slot) : Slot :=
  { slot with instruction := slot.instruction.mapLabels (body.measure slot.bci) }

/-- A jump can be measured if its target is in use, and then its offset is the distance. -/
theorem measure_eq_ok_iff (body : Body) (source : Nat) (jump result : Jump) :
    (do return { jump with offset := jumpOffset source (← body.targetBci jump.target) }) =
        Except.ok result ↔
      body.contains jump.target = true ∧ result = body.measure source jump := by
  simp only [exceptBind_eq_ok_iff, exceptPure_eq_ok_iff, targetBci_eq_ok_iff, contains_iff]
  constructor
  · rintro ⟨_, ⟨target, found, rfl⟩, rfl⟩
    exact ⟨⟨target, found⟩, by simp [measure, found]⟩
  · rintro ⟨⟨target, found⟩, rfl⟩
    exact ⟨target.bci, ⟨target, found, rfl⟩, by simp [measure, found]⟩

/-- The jumps of the instruction in a slot lead to instructions. -/
def SlotLive (body : Body) (entry : Option Slot) : Prop :=
  ∀ slot, entry = some slot →
    ∀ jump ∈ slot.instruction.labels, body.contains jump.target = true

/-- A slot can be measured if its jumps lead to instructions in use. -/
theorem measureSlot_eq_ok_iff (body : Body) (entry result : Option Slot) :
    (match entry with
      | none => return none
      | some slot => do
        let instruction ← slot.instruction.mapLabelsM fun jump => do
          return { jump with offset := jumpOffset slot.bci (← body.targetBci jump.target) }
        return some { slot with instruction := instruction }) = Except.ok result ↔
      body.SlotLive entry ∧ result = entry.map body.measureSlot := by
  cases entry with
  | none =>
    constructor
    · intro same
      cases same
      exact ⟨by rintro _ ⟨⟩, rfl⟩
    · rintro ⟨_, rfl⟩
      rfl
  | some slot =>
    simp only [exceptBind_eq_ok_iff, exceptPure_eq_ok_iff,
      Instruction.mapLabelsM_eq_ok_iff (body.measure_eq_ok_iff slot.bci)]
    constructor
    · rintro ⟨_, ⟨live, rfl⟩, rfl⟩
      refine ⟨?_, rfl⟩
      rintro _ ⟨⟩
      exact live
    · rintro ⟨live, rfl⟩
      exact ⟨_, ⟨live slot rfl, rfl⟩, rfl⟩

/-- The jumps of a body are live if those of each slot are. -/
theorem jumpsLive_iff (body : Body) :
    body.JumpsLive ↔ ∀ entry ∈ body.slots.toList, body.SlotLive entry := by
  constructor
  · rintro holds _ present slot rfl
    obtain ⟨index, found⟩ := Array.getElem?_of_mem (Array.mem_toList_iff.mp present)
    exact holds ⟨index⟩ slot (slot?_eq_some_iff.mpr found)
  · intro holds handle slot found
    rw [slot?_eq_some_iff] at found
    exact holds _ (Array.mem_toList_iff.mpr (Array.mem_of_getElem? found)) slot rfl

/-- The offsets of jumps can be computed exactly when all of them lead to instructions. -/
theorem resolveJumps_eq_ok_iff {body after : Body} :
    body.resolveJumps = .ok after ↔
      body.JumpsLive ∧ after = { body with slots := body.slots.map (Option.map body.measureSlot) } := by
  have mapped := mapM_eq_ok_iff_map body.measureSlot_eq_ok_iff body.slots.toList
  rw [jumpsLive_iff]
  simp only [resolveJumps, exceptBind_eq_ok_iff, exceptPure_eq_ok_iff, arrayMapM_eq_ok_iff]
  constructor
  · rintro ⟨slots, done, rfl⟩
    obtain ⟨live, same⟩ := (mapped _).mp done
    rw [← Array.toList_map] at same
    exact ⟨live, by rw [Array.toList_inj.mp same]⟩
  · rintro ⟨live, rfl⟩
    exact ⟨_, (mapped _).mpr ⟨live, by simp⟩, rfl⟩

/-- Each slot is measured on its own. -/
theorem slot?_measured (body : Body) (handle : Handle) :
    Body.slot? { body with slots := body.slots.map (Option.map body.measureSlot) } handle =
      (body.slot? handle).map body.measureSlot := by
  simp only [Body.slot?, Array.getElem?_map]
  cases body.slots[handle.index]? with
  | none => rfl
  | some entry => rfl

/-- Measuring a slot again changes nothing. -/
theorem measureSlot_of_measured {body : Body} (measured : body.JumpsMeasured) {handle : Handle}
    {slot : Slot} (found : body.slot? handle = some slot) : body.measureSlot slot = slot := by
  have fixed : slot.instruction.mapLabels (body.measure slot.bci) = slot.instruction := by
    apply Instruction.mapLabels_eq_self
    intro jump present
    obtain ⟨target, foundTarget, distance⟩ := measured handle slot found jump present
    rw [measure, foundTarget]
    simp only [Option.map_some, Option.getD_some]
    rw [← distance]
  rw [measureSlot, fixed]

/-- Offsets that are the distances to their targets are left alone. -/
theorem resolveJumps_of_measured {body : Body} (measured : body.JumpsMeasured) :
    body.resolveJumps = .ok body := by
  rw [resolveJumps_eq_ok_iff]
  constructor
  · intro handle slot found jump present
    obtain ⟨target, foundTarget, _⟩ := measured handle slot found jump present
    exact contains_iff.mpr ⟨target, foundTarget⟩
  · have same : body.slots.map (Option.map body.measureSlot) = body.slots := by
      apply Array.ext_getElem?
      intro index
      rw [Array.getElem?_map]
      cases found : body.slots[index]? with
      | none => rfl
      | some entry =>
        cases entry with
        | none => rfl
        | some slot =>
          have present : body.slot? ⟨index⟩ = some slot := slot?_eq_some_iff.mpr found
          simp [measureSlot_of_measured measured present]
    rw [same]

end Body

namespace Frame

/-- Frames with the deltas and encodings that their positions ask for. -/
def settled (previous : Option Nat) : List (Nat × Frame) → List Frame
  | [] => []
  | (bci, frame) :: rest =>
    ⟨frame.target, deltaFrom previous bci,
      (promotion? (deltaFrom previous bci) frame.kind).getD frame.kind⟩ :: settled (some bci) rest

/-- Frames come in the order of their positions, all of them after a previous one. -/
def Ascending (previous : Option Nat) (placed : List (Nat × Frame)) : Prop :=
  placed.Pairwise (fun first second => first.1 < second.1) ∧
    ∀ bci, previous = some bci → ∀ entry ∈ placed, bci < entry.1

/-- What follows the first of some ascending frames is ascending. -/
theorem Ascending.tail {previous : Option Nat} {entry : Nat × Frame} {rest : List (Nat × Frame)}
    (ascending : Ascending previous (entry :: rest)) : Ascending (some entry.1) rest := by
  have ordered := List.pairwise_cons.mp ascending.1
  refine ⟨ordered.2, ?_⟩
  rintro _ ⟨⟩
  exact ordered.1

/-- Without a conflict, frames in the order of their positions have positions of their own. -/
theorem settleOnto_of_no_conflict (placed : List (Nat × Frame)) (done : List Frame)
    (promotions : List Event) (previous : Option Nat)
    (ordered : placed.Pairwise fun first second => first.1 ≤ second.1)
    (after : ∀ bci, previous = some bci → ∀ entry ∈ placed, bci ≤ entry.1)
    (agreed : (settleOnto done promotions previous placed).conflict = none) :
    (settleOnto done promotions previous placed).frames = done.reverse ++ settled previous placed ∧
      Ascending previous placed := by
  -- Each frame is compared with the one before it, so the position passed on varies.
  induction placed generalizing done promotions previous with
  | nil => exact ⟨by simp [settleOnto, settled], .nil, by simp⟩
  | cons entry rest inductionHypothesis =>
    obtain ⟨bci, frame⟩ := entry
    obtain ⟨first, others⟩ := List.pairwise_cons.mp ordered
    have behind : ∀ start, some bci = some start → ∀ entry ∈ rest, start ≤ entry.1 := by
      rintro _ ⟨⟩
      exact first
    rw [settleOnto] at agreed ⊢
    by_cases same : previous = some bci
    · simp [same] at agreed
    · have apart : ∀ start, previous = some start → start < bci := by
        intro start known
        have least := after start known (bci, frame) (by simp)
        have different : start ≠ bci := fun equal => same (equal ▸ known)
        exact lt_of_le_of_ne least different
      rw [if_neg same] at agreed ⊢
      have ascending (continued : Ascending (some bci) rest) :
          Ascending previous ((bci, frame) :: rest) := by
        refine ⟨List.pairwise_cons.mpr ⟨continued.2 bci rfl, continued.1⟩, ?_⟩
        intro start known entry present
        rcases List.mem_cons.mp present with rfl | later
        · exact apart start known
        · exact (apart start known).trans (continued.2 bci rfl entry later)
      cases promoted : promotion? (deltaFrom previous bci) frame.kind with
      | none =>
        simp only [promoted] at agreed ⊢
        obtain ⟨frames, continued⟩ := inductionHypothesis _ _ _ others behind agreed
        refine ⟨?_, ascending continued⟩
        rw [frames, settled, promoted]
        simp
      | some kind =>
        simp only [promoted] at agreed ⊢
        obtain ⟨frames, continued⟩ := inductionHypothesis _ _ _ others behind agreed
        refine ⟨?_, ascending continued⟩
        rw [frames, settled, promoted]
        simp

/-- Frames are settled in the order of their positions, which are all different. -/
theorem settle_of_no_conflict {placed : List (Nat × Frame)}
    (agreed : (settle placed).conflict = none) :
    ∃ arranged, arranged.Perm placed ∧ Ascending none arranged ∧
      (settle placed).frames = settled none arranged := by
  have ordered : (placed.mergeSort fun left right => left.1 ≤ right.1).Pairwise
      fun first second => first.1 ≤ second.1 := by
    have sorted := @List.pairwise_mergeSort _ (fun left right : Nat × Frame => left.1 ≤ right.1)
      (fun first second third => by simpa using Nat.le_trans)
      (fun first second => by simpa using Nat.le_total first.1 second.1) placed
    simpa using sorted
  obtain ⟨frames, ascending⟩ := settleOnto_of_no_conflict _ [] [] none ordered (by simp) agreed
  exact ⟨_, List.mergeSort_perm placed _, ascending, by simpa [settle] using frames⟩

/-- Frames that are in the order of their positions already are not sorted again. -/
theorem settle_eq (placed : List (Nat × Frame)) :
    settle placed = settleOnto [] [] none
      (if placed.Pairwise (fun left right => left.1 ≤ right.1) then placed
        else placed.mergeSort fun left right => left.1 ≤ right.1) := by
  rw [settle]
  split
  · rename_i sorted
    rw [List.mergeSort_of_pairwise]
    exact sorted.imp fun before => by simpa using before
  · rfl

/-- The delta to a position that a delta leads to is that delta. -/
theorem deltaFrom_position (previous : Option Nat) (delta : UInt16) :
    deltaFrom previous (position previous delta) = delta := by
  have small := delta.toNat_lt
  cases previous with
  | none => simp [deltaFrom, position, small]
  | some start =>
    have distance : start + delta.toNat + 1 - start - 1 = delta.toNat := by omega
    simp [deltaFrom, position, distance, small]

/-- How many positions lie between a position and the frame before. -/
def gap (previous : Option Nat) (bci : Nat) : Nat :=
  match previous with
  | none => bci
  | some previous => bci - previous - 1

/-- A delta leads back to its position when 16 bits can hold the gap. -/
theorem position_deltaFrom_of_near {previous : Option Nat} {bci : Nat}
    (after : ∀ start, previous = some start → start < bci) (near : gap previous bci < 65536) :
    position previous (deltaFrom previous bci) = bci := by
  cases previous with
  | none =>
    have small : bci < 65536 := near
    simp only [deltaFrom, position, small, if_true, UInt16.toNat_ofNat_of_lt' small]
  | some start =>
    have before := after start rfl
    have distance : bci - start - 1 < 65536 := near
    simp only [deltaFrom, position, distance, if_true, UInt16.toNat_ofNat_of_lt' distance]
    omega

/-- A delta leads past the previous frame. -/
theorem lt_position (start : Nat) (delta : UInt16) : start < position (some start) delta := by
  simp only [position]
  omega

/-- Frames whose deltas lead to their positions are settled already. -/
theorem settleOnto_of_chained {positions : Positions} (frames done : List Frame)
    (promotions : List Event) (previous : Option Nat) (chained : Chained positions previous frames)
    (fits : ∀ frame ∈ frames, frame.kind.fits frame.delta = true) :
    ∃ placed, placed.map Prod.snd = frames ∧
      (∀ entry ∈ placed, positions entry.2.target = .ok entry.1) ∧ Ascending previous placed ∧
      settleOnto done promotions previous placed =
        ⟨done.reverse ++ frames, promotions.reverse, none⟩ := by
  induction frames generalizing done previous with
  | nil => exact ⟨[], rfl, by simp, ⟨.nil, by simp⟩, by simp [settleOnto]⟩
  | cons frame rest inductionHypothesis =>
    obtain ⟨target, delta, kind⟩ := frame
    obtain ⟨located, continued⟩ := chained
    obtain ⟨placed, rfl, found, ascending, settledRest⟩ := inductionHypothesis
      (⟨target, delta, kind⟩ :: done) _ continued fun other present => fits other (by simp [present])
    have behind : ∀ start, previous = some start → start < position previous delta := by
      rintro start rfl
      exact lt_position start delta
    refine ⟨(position previous delta, ⟨target, delta, kind⟩) :: placed, rfl, ?_, ⟨?_, ?_⟩, ?_⟩
    · intro entry present
      rcases List.mem_cons.mp present with rfl | later
      · exact located
      · exact found entry later
    · exact List.pairwise_cons.mpr ⟨ascending.2 _ rfl, ascending.1⟩
    · intro start known entry present
      rcases List.mem_cons.mp present with rfl | later
      · exact behind start known
      · exact (behind start known).trans (ascending.2 _ rfl entry later)
    · have fitting : kind.fits delta = true := fits ⟨target, delta, kind⟩ (by simp)
      have different : previous ≠ some (position previous delta) := by
        intro same
        exact Nat.lt_irrefl _ (behind _ same)
      have kept : promotion? delta kind = none := by simp [promotion?, fitting]
      simp only [settleOnto, if_neg different, deltaFrom_position, kept, settledRest]
      simp

end Frame

namespace Body

/-- The frames of a body are those of the first attribute that is a table of frames. -/
theorem frames?_cons (body : Body) (entry : CodeAttribute) (rest : List CodeAttribute) :
    frames? { body with attributes := entry :: rest } =
      match entry.table with
      | .frames frames => some frames
      | _ => frames? { body with attributes := rest } := by
  rw [frames?, List.findSome?_cons]
  cases entry.table <;> rfl

/-- The frames of a body are in one of its tables. -/
theorem mem_attributes_of_frames? {body : Body} {frames : List Frame}
    (known : body.frames? = some frames) :
    ∃ entry ∈ body.attributes, entry.table = .frames frames := by
  obtain ⟨entry, present, found⟩ := List.exists_of_findSome?_eq_some known
  refine ⟨entry, present, ?_⟩
  cases table : entry.table with
  | frames other =>
    simp only [table, Option.some.injEq] at found
    rw [found]
  | _ => simp [table] at found

/-- Frames are replaced where there are any. -/
theorem frames?_replaceFrames (body : Body) (frames : List Frame) (attributes : List CodeAttribute) :
    frames? { body with attributes := replaceFrames frames attributes } =
      (frames? { body with attributes := attributes }).map fun _ => frames := by
  induction attributes with
  | nil => rfl
  | cons entry rest inductionHypothesis =>
    rw [replaceFrames, frames?_cons]
    cases kind : entry.table with
    | frames old => simp [frames?_cons]
    | _ => simp [frames?_cons, kind, inductionHypothesis]

/-- A body has the frames that it was given. -/
theorem frames?_setFrames {body : Body} {old : List Frame} (known : body.frames? = some old)
    (frames : List Frame) : (body.setFrames frames).frames? = some frames := by
  have replaced := frames?_replaceFrames body frames body.attributes
  rw [known] at replaced
  exact replaced

/-- Replacing frames by themselves changes nothing. -/
theorem replaceFrames_self (body : Body) (frames : List Frame) (attributes : List CodeAttribute)
    (known : frames? { body with attributes := attributes } = some frames) :
    replaceFrames frames attributes = attributes := by
  induction attributes with
  | nil => rfl
  | cons entry rest inductionHypothesis =>
    obtain ⟨nameIndex, table⟩ := entry
    rw [frames?_cons] at known
    rw [replaceFrames]
    cases table with
    | frames old =>
      cases known
      rfl
    | _ =>
      simp only [inductionHypothesis known]

/-- Giving a body the frames it has changes nothing. -/
theorem setFrames_self {body : Body} {frames : List Frame} (known : body.frames? = some frames) :
    body.setFrames frames = body := by
  rw [setFrames, replaceFrames_self body frames body.attributes known]

/-- Frames can be placed if their targets have positions, and keep their order. -/
theorem placeFrames_eq_ok_iff {body : Body} {frames : List Frame} {placed : List (Nat × Frame)} :
    body.placeFrames frames = .ok placed ↔
      placed.map Prod.snd = frames ∧ ∀ entry ∈ placed, body.bci entry.2.target = .ok entry.1 := by
  have direct : body.placeFrames frames = .ok placed ↔
      frames.mapM (fun frame => do return (← body.targetBci frame.target, frame)) = .ok placed := by
    rw [placeFrames]
    cases mapped : frames.mapM fun frame => do return (← body.targetBci frame.target, frame) with
    | ok list => rfl
    | error error =>
      simp only [exceptBind_eq_ok_iff, exceptThrow_eq_ok_iff]
      simp
  rw [direct, mapM_eq_ok_iff]
  clear direct
  constructor
  · intro related
    induction related with
    | nil => simp
    | @cons frame entry frames placed first _ inductionHypothesis =>
      obtain ⟨rfl, found⟩ := inductionHypothesis
      simp only [exceptBind_eq_ok_iff, exceptPure_eq_ok_iff, targetBci_eq_ok_iff] at first
      obtain ⟨bci, located, rfl⟩ := first
      refine ⟨rfl, ?_⟩
      intro other present
      rcases List.mem_cons.mp present with rfl | later
      · exact bci_eq_ok_iff.mpr located
      · exact found other later
  · rintro ⟨rfl, found⟩
    induction placed with
    | nil => exact .nil
    | cons entry placed inductionHypothesis =>
      refine .cons ?_ (inductionHypothesis fun other present => found other (by simp [present]))
      simp only [exceptBind_eq_ok_iff, exceptPure_eq_ok_iff, targetBci_eq_ok_iff]
      exact ⟨entry.1, bci_eq_ok_iff.mp (found entry (by simp)), rfl⟩

/-- New frames are old ones in the order of their positions, with deltas and encodings to match. -/
def FramesSettled (body : Body) (old new : List Frame) : Prop :=
  ∃ arranged : List (Nat × Frame), (arranged.map Prod.snd).Perm old ∧
    (∀ entry ∈ arranged, body.bci entry.2.target = .ok entry.1) ∧
    Frame.Ascending none arranged ∧ new = Frame.settled none arranged

/-- What computing the layout does to a body. -/
structure Synced (before after : Body) : Prop where
  order : after.order = before.order
  size : after.slots.size = before.slots.size
  shape? : ∀ handle, after.shape? handle = before.shape? handle
  laid : Laid after.slot? 0 after.order.toList after.codeLength
  measured : after.JumpsMeasured
  unframed : before.frames? = none → after.attributes = before.attributes
  framed : ∀ old, before.frames? = some old → ∃ new, after.FramesSettled old new ∧
    after.attributes = replaceFrames new before.attributes
  rest : after = { before with
    slots := after.slots, codeLength := after.codeLength, attributes := after.attributes }

/-- Measuring jumps moves no instruction. -/
theorem Listed.laid_measured {body : Body} (listed : body.Listed) :
    Laid (Body.slot? { body.place with
      slots := body.place.slots.map (Option.map body.place.measureSlot) }) 0 body.order.toList
      body.place.codeLength := by
  apply listed.laid_place.map body.place.measureSlot (body.place.slot?_measured)
  · intro slot
    rfl
  · intro slot
    exact Instruction.width_mapLabels _ _
  · intro slot bci aligned
    rw [measureSlot, Instruction.alignedAt_mapLabels, aligned]

/-- Placement and measuring change no shape. -/
theorem Listed.shape?_measured {body : Body} (listed : body.Listed) (handle : Handle) :
    Body.shape? { body.place with
      slots := body.place.slots.map (Option.map body.place.measureSlot) } handle =
      body.shape? handle := by
  obtain ⟨bci, placed⟩ := listed.slot?_place handle
  rw [Body.shape?, slot?_measured, placed, Body.shape?]
  cases body.slot? handle with
  | none => rfl
  | some slot =>
    simp only [Option.map_some, measureSlot, Instruction.shape]
    rw [Instruction.alignedAt_mapLabels, Instruction.alignedAt_alignedAt,
      Instruction.mapLabels_mapLabels]
    rfl

theorem size_measured (body : Body) :
    (body.place.slots.map (Option.map body.place.measureSlot)).size = body.slots.size := by
  have sized := Placement.size_foldl_place body.order.toList ⟨body.slots, 0⟩
  rw [Array.foldl_toList] at sized
  simpa [Body.place] using sized

/-- Positions and offsets are all that placement and measuring change. -/
theorem Listed.synced_measured {body : Body} (listed : body.Listed) {after : Body}
    (resolved : body.place.resolveJumps = .ok after) (attributes : List CodeAttribute)
    (unframed : body.frames? = none → attributes = body.attributes)
    (framed : ∀ old, body.frames? = some old → ∃ new, after.FramesSettled old new ∧
      attributes = replaceFrames new body.attributes) :
    Synced body { after with attributes := attributes } := by
  obtain ⟨live, rfl⟩ := resolveJumps_eq_ok_iff.mp resolved
  have slots (handle : Handle) := body.place.slot?_measured handle
  refine ⟨rfl, body.size_measured, listed.shape?_measured, listed.laid_measured, ?_, unframed, framed,
    rfl⟩
  · intro handle slot found jump present
    obtain ⟨placed, foundPlaced, rfl⟩ := Option.map_eq_some_iff.mp ((slots handle).symm.trans found)
    rw [measureSlot, Instruction.labels_mapLabels, List.mem_map] at present
    obtain ⟨old, member, rfl⟩ := present
    obtain ⟨target, foundTarget⟩ := contains_iff.mp (live handle placed foundPlaced old member)
    refine ⟨body.place.measureSlot target, ?_, ?_⟩
    · have measuredTarget := slots old.target
      rw [foundTarget] at measuredTarget
      exact measuredTarget
    · simp [measure, foundTarget, measureSlot]

/-- A successful computation of the layout changes positions, paddings, offsets and frames alone. -/
theorem Listed.synced_of_sync {before after : Logged Body} (listed : before.state.Listed)
    (ran : Body.sync before = .ok () after) : Synced before.state after.state := by
  obtain ⟨body, events⟩ := before
  simp only [Body.sync, Task.bind_eq_ok_iff, Task.read_eq_ok_iff, Task.ofExcept_eq_ok_iff] at ran
  obtain ⟨_, _, ⟨rfl, rfl⟩, resolved, _, ⟨done, rfl⟩, ran⟩ := ran
  have attributes : resolved.attributes = body.attributes := by
    rw [(resolveJumps_eq_ok_iff.mp done).2]
    rfl
  have frames : resolved.frames? = body.frames? := by rw [frames?, attributes, frames?]
  rw [frames] at ran
  cases known : body.frames? with
  | none =>
    simp only [known, Task.write_eq_ok_iff] at ran
    rw [← ran]
    have synced := listed.synced_measured done resolved.attributes (fun _ => attributes)
      (by simp [known])
    exact synced
  | some old =>
    simp only [known, Task.bind_eq_ok_iff, Task.ofExcept_eq_ok_iff, Task.write_eq_ok_iff] at ran
    obtain ⟨placed, _, ⟨located, rfl⟩, _, _, rfl, _, reported, reports, ran⟩ := ran
    cases conflict : (Frame.settle placed).conflict with
    | some handle =>
      simp only [conflict] at ran
      exact (Task.throw_eq_ok_iff.mp ran).elim
    | none =>
      simp only [conflict] at ran
      obtain ⟨-, rfl⟩ := Task.pure_eq_ok_iff.mp ran
      rw [Task.forM_report] at reports
      cases reports
      obtain ⟨arranged, permuted, ascending, settledFrames⟩ := Frame.settle_of_no_conflict conflict
      obtain ⟨rfl, found⟩ := placeFrames_eq_ok_iff.mp located
      apply listed.synced_measured done (replaceFrames (Frame.settle placed).frames resolved.attributes)
      · simp [known]
      · rintro old' knownOld
        rw [known, Option.some.injEq] at knownOld
        subst knownOld
        refine ⟨(Frame.settle placed).frames, ⟨arranged, permuted.map Prod.snd, ?_, ascending,
          settledFrames⟩, by rw [attributes]⟩
        intro entry present
        exact found entry (permuted.mem_iff.mp present)

/-- Computing the layout puts no instruction in or out of use. -/
theorem Synced.contains {before after : Body} (synced : Synced before after) (handle : Handle) :
    after.contains handle = before.contains handle := by
  have shapes := synced.shape? handle
  rw [Body.shape?, Body.shape?] at shapes
  have lives := congrArg Option.isSome shapes
  rwa [Option.isSome_map, Option.isSome_map] at lives

/-- The order still lists all instructions after the layout is computed. -/
theorem Synced.listed {before after : Body} (synced : Synced before after)
    (listed : before.Listed) : after.Listed := by
  refine ⟨by rw [synced.order]; exact listed.distinct, fun handle => ?_⟩
  rw [synced.order, synced.contains, listed.live]

/-- Computing the layout does not change what follows an instruction. -/
theorem Synced.successor? {before after : Body} (synced : Synced before after)
    (handle : Handle) : after.successor? handle = before.successor? handle := by
  rw [Body.successor?, synced.order, Body.successor?]

theorem frames?_of_attributes {first second : Body} (same : first.attributes = second.attributes) :
    first.frames? = second.frames? := by
  rw [frames?, same, frames?]

/-- A body has frames after its layout is computed exactly when it had some before. -/
theorem Synced.frames?_eq {before after : Body} (synced : Synced before after) :
    (before.frames? = none ∧ after.frames? = none) ∨
      ∃ old new, before.frames? = some old ∧ after.frames? = some new ∧
        after.FramesSettled old new := by
  cases known : before.frames? with
  | none =>
    left
    rw [frames?_of_attributes (synced.unframed known)]
    exact ⟨rfl, known⟩
  | some old =>
    right
    obtain ⟨new, settledFrames, attributes⟩ := synced.framed old known
    refine ⟨old, new, rfl, ?_, settledFrames⟩
    have replaced := frames?_setFrames known new
    rw [← replaced]
    exact frames?_of_attributes attributes

/-- Settling keeps the targets of frames. -/
theorem targets_settled (previous : Option Nat) (arranged : List (Nat × Frame)) :
    (Frame.settled previous arranged).map Frame.target =
      arranged.map fun entry => entry.2.target := by
  induction arranged generalizing previous with
  | nil => rfl
  | cons entry rest inductionHypothesis =>
    obtain ⟨bci, frame⟩ := entry
    rw [Frame.settled, List.map_cons, List.map_cons, inductionHypothesis]

/-- Settled frames describe the instructions that the frames before them described. -/
theorem FramesSettled.target {body : Body} {old new : List Frame}
    (settledFrames : body.FramesSettled old new) {frame : Frame} (present : frame ∈ new) :
    body.contains frame.target = true ∧ ∃ other ∈ old, other.target = frame.target := by
  obtain ⟨arranged, permuted, found, _, rfl⟩ := settledFrames
  have listed : frame.target ∈ (Frame.settled none arranged).map Frame.target :=
    List.mem_map_of_mem present
  rw [targets_settled, List.mem_map] at listed
  obtain ⟨entry, member, same⟩ := listed
  obtain ⟨slot, foundSlot, _⟩ := bci_eq_ok_iff.mp (found entry member)
  rw [← same]
  refine ⟨contains_iff.mpr ⟨slot, foundSlot⟩, entry.2, ?_, rfl⟩
  exact permuted.mem_iff.mp (List.mem_map_of_mem member)

section Sync

variable {body resolved : Body}

/-- Resolving jumps leaves the frames as they are. -/
theorem frames?_of_resolveJumps (done : body.place.resolveJumps = .ok resolved) :
    resolved.frames? = body.frames? := by
  rw [(resolveJumps_eq_ok_iff.mp done).2]
  rfl

/-- Without frames, the layout is computed when jumps are resolved. -/
theorem sync_of_resolved (done : body.place.resolveJumps = .ok resolved)
    (unframed : body.frames? = none) (events : Array Event) :
    Body.sync ⟨body, events⟩ = .ok () ⟨resolved, events⟩ := by
  have ready : Task.ofExcept body.place.resolveJumps ⟨body, events⟩ = .ok resolved ⟨body, events⟩ :=
    Task.ofExcept_eq_ok_iff.mpr ⟨done, rfl⟩
  rw [Body.sync, Task.bind_of_eq_ok (Task.read_eq_ok_iff.mpr ⟨rfl, rfl⟩), Task.bind_of_eq_ok ready,
    frames?_of_resolveJumps done, unframed]
  rfl

/-- Frames that have positions are settled, and a conflict is told after they are written. -/
theorem sync_of_placed (done : body.place.resolveJumps = .ok resolved) {frames : List Frame}
    {placed : List (Nat × Frame)} (known : body.frames? = some frames)
    (located : resolved.placeFrames frames = .ok placed) (events : Array Event) :
    Body.sync ⟨body, events⟩ =
      match (Frame.settle placed).conflict with
      | none => .ok () ⟨resolved.setFrames (Frame.settle placed).frames,
          events ++ (Frame.settle placed).promotions.toArray⟩
      | some handle => .error (.conflictingFrames handle)
          ⟨resolved.setFrames (Frame.settle placed).frames,
            events ++ (Frame.settle placed).promotions.toArray⟩ := by
  have ready : Task.ofExcept body.place.resolveJumps ⟨body, events⟩ = .ok resolved ⟨body, events⟩ :=
    Task.ofExcept_eq_ok_iff.mpr ⟨done, rfl⟩
  have found : Task.ofExcept (resolved.placeFrames frames) ⟨body, events⟩ = .ok placed ⟨body, events⟩ :=
    Task.ofExcept_eq_ok_iff.mpr ⟨located, rfl⟩
  have written : Task.write (resolved.setFrames (Frame.settle placed).frames) ⟨body, events⟩ =
      .ok () ⟨resolved.setFrames (Frame.settle placed).frames, events⟩ := rfl
  rw [Body.sync, Task.bind_of_eq_ok (Task.read_eq_ok_iff.mpr ⟨rfl, rfl⟩), Task.bind_of_eq_ok ready,
    frames?_of_resolveJumps done, known]
  simp only
  rw [Task.bind_of_eq_ok found, Task.bind_of_eq_ok written, Task.bind_of_eq_ok (Task.forM_report _ _)]
  cases (Frame.settle placed).conflict <;> rfl

end Sync

/-- A body is left as it is, without a report, when no position, offset or frame would change. -/
theorem sync_of_settlement {body : Body} (events : Array Event)
    (laid : Laid body.slot? 0 body.order.toList body.codeLength) (measured : body.JumpsMeasured)
    (framed : ∀ frames, body.frames? = some frames → ∃ placed : List (Nat × Frame),
      placed.map Prod.snd = frames ∧ (∀ entry ∈ placed, body.bci entry.2.target = .ok entry.1) ∧
      Frame.settle placed = ⟨frames, [], none⟩) :
    Body.sync ⟨body, events⟩ = .ok () ⟨body, events⟩ := by
  have resolved : body.place.resolveJumps = .ok body := by
    rw [place_of_laid laid]
    exact resolveJumps_of_measured measured
  cases known : body.frames? with
  | none => exact sync_of_resolved resolved known events
  | some frames =>
    obtain ⟨placed, same, found, settlement⟩ := framed frames known
    rw [sync_of_placed resolved known (placeFrames_eq_ok_iff.mpr ⟨same, found⟩), settlement,
      setFrames_self known]
    simp

/-- A body whose deltas lead to its frames is left as it is once its code is laid out. -/
theorem sync_of_settled {body : Body} (events : Array Event)
    (laid : Laid body.slot? 0 body.order.toList body.codeLength) (measured : body.JumpsMeasured)
    (framed : ∀ frames, body.frames? = some frames → Frame.Chained body.bci none frames ∧
      ∀ frame ∈ frames, frame.kind.fits frame.delta = true) :
    Body.sync ⟨body, events⟩ = .ok () ⟨body, events⟩ := by
  apply sync_of_settlement events laid measured
  intro frames known
  obtain ⟨chained, fits⟩ := framed frames known
  obtain ⟨placed, same, found, ascending, settledFrames⟩ :=
    Frame.settleOnto_of_chained frames [] [] none chained fits
  refine ⟨placed, same, found, ?_⟩
  rw [Frame.settle_eq, if_pos (ascending.1.imp Nat.le_of_lt), settledFrames]
  rfl

end Body

end Classfile
