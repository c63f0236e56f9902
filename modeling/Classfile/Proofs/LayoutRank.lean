import Classfile.Proofs.Extension

/-!
The rank of an instruction: how many instructions are laid out before it.

Ranks compare instructions as their positions do, and an extension changes no comparison. Frames
that are listed by rank therefore stay so, an island included.
-/

namespace Classfile

namespace Layout

variable {order : List Handle} {first second : Handle}

/-- What is dropped from a layout does not change how the rest of it is ordered. -/
theorem idxOf_filter_lt_iff {keep : Handle → Bool} (keptFirst : keep first = true)
    (keptSecond : keep second = true) :
    (order.filter keep).idxOf first < (order.filter keep).idxOf second ↔
      order.idxOf first < order.idxOf second := by
  induction order with
  | nil => simp
  | cons head rest inductionHypothesis =>
    by_cases kept : keep head = true
    · rw [List.filter_cons_of_pos kept]
      by_cases isSecond : head = second
      · rw [List.idxOf_cons_eq _ isSecond, List.idxOf_cons_eq _ isSecond]
        exact iff_of_false (Nat.not_lt_zero _) (Nat.not_lt_zero _)
      · rw [List.idxOf_cons_ne _ isSecond, List.idxOf_cons_ne _ isSecond]
        by_cases isFirst : head = first
        · rw [List.idxOf_cons_eq _ isFirst, List.idxOf_cons_eq _ isFirst]
          exact iff_of_true (Nat.succ_pos _) (Nat.succ_pos _)
        · rw [List.idxOf_cons_ne _ isFirst, List.idxOf_cons_ne _ isFirst, Nat.succ_lt_succ_iff,
            Nat.succ_lt_succ_iff, inductionHypothesis]
    · have notFirst : head ≠ first := fun same => kept (same ▸ keptFirst)
      have notSecond : head ≠ second := fun same => kept (same ▸ keptSecond)
      rw [List.filter_cons_of_neg kept, List.idxOf_cons_ne _ notFirst,
        List.idxOf_cons_ne _ notSecond, Nat.succ_lt_succ_iff, inductionHypothesis]

end Layout

/-- Code that is laid out ends at or after its start. -/
theorem Laid.le {slots : Handle → Option Slot} {bci stop : Nat} {order : List Handle}
    (laid : Laid slots bci order stop) : bci ≤ stop := by
  induction order generalizing bci with
  | nil => exact Nat.le_of_eq laid
  | cons first rest inductionHypothesis =>
    obtain ⟨slot, _, _, _, continued⟩ := laid
    exact Nat.le_trans (Nat.le_add_right _ _) (inductionHypothesis continued)

/-- Each instruction that is laid out is between the start and the end. -/
theorem Laid.bounds {slots : Handle → Option Slot} {bci stop : Nat} {order : List Handle}
    (laid : Laid slots bci order stop) {handle : Handle} {slot : Slot} (present : handle ∈ order)
    (found : slots handle = some slot) :
    bci ≤ slot.bci ∧ slot.bci + slot.instruction.width ≤ stop := by
  induction order generalizing bci with
  | nil => cases present
  | cons first rest inductionHypothesis =>
    obtain ⟨other, foundFirst, starts, _, continued⟩ := laid
    rcases List.mem_cons.mp present with rfl | later
    · rw [found, Option.some.injEq] at foundFirst
      rw [foundFirst, starts]
      exact ⟨Nat.le_refl _, continued.le⟩
    · have after := inductionHypothesis continued later
      exact ⟨Nat.le_trans (Nat.le_add_right _ _) after.1, after.2⟩

/-- Instructions are laid out in the order of their positions. -/
theorem Laid.bci_lt_iff {slots : Handle → Option Slot} {bci stop : Nat} {order : List Handle}
    (laid : Laid slots bci order stop) {first second : Handle} {one two : Slot}
    (presentFirst : first ∈ order) (presentSecond : second ∈ order)
    (foundFirst : slots first = some one) (foundSecond : slots second = some two) :
    one.bci < two.bci ↔ order.idxOf first < order.idxOf second := by
  induction order generalizing bci with
  | nil => cases presentFirst
  | cons head rest inductionHypothesis =>
    have ⟨slot, found, starts, _, continued⟩ := laid
    have positive := slot.instruction.width_pos
    by_cases isSecond : head = second
    · have same : slot = two := by
        rw [isSecond, foundSecond, Option.some.injEq] at found
        exact found.symm
      have least : two.bci ≤ one.bci := by
        rw [← same, starts]
        exact (laid.bounds presentFirst foundFirst).1
      rw [List.idxOf_cons_eq _ isSecond]
      exact iff_of_false (Nat.not_lt.mpr least) (Nat.not_lt_zero _)
    · have laterSecond := List.mem_of_ne_of_mem (Ne.symm isSecond) presentSecond
      rw [List.idxOf_cons_ne _ isSecond]
      by_cases isFirst : head = first
      · have same : slot = one := by
          rw [isFirst, foundFirst, Option.some.injEq] at found
          exact found.symm
        have after := (continued.bounds laterSecond foundSecond).1
        have before : one.bci < two.bci := by
          rw [← same, starts]
          omega
        rw [List.idxOf_cons_eq _ isFirst]
        exact iff_of_true before (Nat.succ_pos _)
      · have laterFirst := List.mem_of_ne_of_mem (Ne.symm isFirst) presentFirst
        rw [List.idxOf_cons_ne _ isFirst, Nat.succ_lt_succ_iff,
          inductionHypothesis continued laterFirst laterSecond]

/-- No two instructions start at the same position. -/
theorem Laid.bci_inj {slots : Handle → Option Slot} {bci stop : Nat} {order : List Handle}
    (laid : Laid slots bci order stop) {first second : Handle} {one two : Slot}
    (presentFirst : first ∈ order) (presentSecond : second ∈ order)
    (foundFirst : slots first = some one) (foundSecond : slots second = some two)
    (same : one.bci = two.bci) : first = second := by
  have before := laid.bci_lt_iff presentFirst presentSecond foundFirst foundSecond
  have after := laid.bci_lt_iff presentSecond presentFirst foundSecond foundFirst
  apply (List.idxOf_inj presentFirst).mp
  omega

namespace Body

/-- The index of an instruction in the layout. -/
def rank (body : Body) (handle : Handle) : Nat := body.order.toList.idxOf handle

section Rank

variable {body now later : Body} {branch first second : Handle}

/-- Instructions of the same rank are the same. -/
theorem Listed.rank_inj (listed : body.Listed) (present : body.contains first = true) :
    body.rank first = body.rank second ↔ first = second :=
  List.idxOf_inj ((listed.live first).mpr present)

/-- Computing the layout keeps all ranks. -/
theorem Synced.rank (synced : Synced now later) : later.rank = now.rank := by
  funext handle
  rw [Body.rank, synced.order, Body.rank]

/-- An extension changes no comparison of ranks. -/
theorem Grows.rank_lt_iff (grows : Grows branch now later)
    (presentFirst : now.contains first = true) (presentSecond : now.contains second = true) :
    later.rank first < later.rank second ↔ now.rank first < now.rank second := by
  have dropped : ∀ handle, now.slots.size ≤ handle.index → now.contains handle = false := by
    intro handle outside
    by_contra present
    have inside := index_lt_of_contains (Bool.not_eq_false _ ▸ present)
    omega
  have same := grows.order now.contains dropped
  rw [Body.rank, Body.rank, ← Layout.idxOf_filter_lt_iff presentFirst presentSecond, same,
    Layout.idxOf_filter_lt_iff presentFirst presentSecond, Body.rank, Body.rank]

/-- Once the layout is computed, positions are in the order of ranks. -/
theorem Synced.bci_lt_iff (synced : Synced now later) (listed : later.Listed) {one two : Slot}
    (foundFirst : later.slot? first = some one) (foundSecond : later.slot? second = some two) :
    one.bci < two.bci ↔ later.rank first < later.rank second := by
  apply synced.laid.bci_lt_iff _ _ foundFirst foundSecond
  · exact (listed.live first).mpr (contains_iff.mpr ⟨one, foundFirst⟩)
  · exact (listed.live second).mpr (contains_iff.mpr ⟨two, foundSecond⟩)

end Rank

/-- Ranks are entered one after the other, each at the index of its handle. -/
theorem positions_foldl (order : List Handle) (distinct : order.Nodup)
    (known : Array (Option Nat)) (position : Nat) (handle : Handle)
    (inside : handle.index < known.size) :
    ((order.foldl (fun (found, position) handle =>
        (found.setIfInBounds handle.index (some position), position + 1))
      (known, position)).1[handle.index]?).join =
      if handle ∈ order then some (position + order.idxOf handle) else known[handle.index]?.join := by
  induction order generalizing known position with
  | nil => simp
  | cons first rest inductionHypothesis =>
    obtain ⟨fresh, distinct⟩ := List.nodup_cons.mp distinct
    rw [List.foldl_cons, inductionHypothesis distinct _ _ (by simpa using inside)]
    by_cases same : first = handle
    · rw [same] at fresh ⊢
      simp [fresh, inside]
    · have apart : first.index ≠ handle.index := Handle.index_ne same
      rw [List.idxOf_cons_ne _ same]
      by_cases later : handle ∈ rest
      · simp [later, Nat.add_assoc, Nat.add_comm 1]
      · simp [later, Ne.symm same, Array.getElem?_setIfInBounds_ne apart]

/-- The position of an instruction in the layout is its rank. -/
theorem Listed.positions {body : Body} (listed : body.Listed) {handle : Handle}
    (present : body.contains handle = true) :
    body.positions[handle.index]?.join = some (body.rank handle) := by
  have inside := index_lt_of_contains present
  have entered := positions_foldl body.order.toList listed.distinct
    (Array.replicate body.slots.size none) 0 handle (by simpa using inside)
  rw [Array.foldl_toList] at entered
  rw [Body.positions, entered, if_pos ((listed.live handle).mpr present), Nat.zero_add, rank]

/-- Frames are listed in the order in which their instructions are laid out. -/
def FramesOrdered (body : Body) (frames : List Frame) : Prop :=
  frames.Pairwise fun first second => body.rank first.target < body.rank second.target

/-- There is only one way to list frames in order. -/
theorem FramesOrdered.unique {body : Body} {frames arranged : List Frame}
    (ordered : body.FramesOrdered frames) (other : body.FramesOrdered arranged)
    (permuted : arranged.Perm frames) : arranged = frames := by
  apply permuted.eq_of_pairwise _ other ordered
  intro first second _ _ before after
  omega

/-- The frames before an island are those up to the first one after it. -/
theorem Listed.framesBefore {body : Body} (listed : body.Listed) {island : Handle}
    (present : body.contains island = true) {frames : List Frame}
    (live : ∀ frame ∈ frames, body.contains frame.target = true) :
    body.framesBefore island frames =
      frames.findIdx fun frame => decide (body.rank island < body.rank frame.target) := by
  simp only [Body.framesBefore, listed.positions present]
  induction frames with
  | nil => rfl
  | cons frame rest inductionHypothesis =>
    have known := listed.positions (live frame (by simp))
    rw [List.findIdx_cons, List.findIdx_cons, known,
      inductionHypothesis fun other member => live other (by simp [member])]
    rfl

end Body

end Classfile
