import Classfile.Proofs.Progress
import Classfile.Proofs.TableEncoding

/-!
Frame deltas lead back to the instructions they were computed from.

`Frame.settle` sorts frames by position, stops where two of them share one, and otherwise gives each
frame the delta from which a reader finds its position again. Settled frames are settled once more
without a change.
-/

namespace Classfile

/-- Items in the order of their keys, where those with one key keep the order they had. -/
structure StablyOrdered {A : Type} (key : A → Nat) (items arranged : List A) : Prop where
  permuted : arranged.Perm items
  ascending : arranged.Pairwise fun first second => key first ≤ key second
  stable : ∀ value, arranged.filter (key · = value) = items.filter (key · = value)

/-- Sorting by merging is stable. -/
theorem stablyOrdered_mergeSort {A : Type} (key : A → Nat) (items : List A) :
    StablyOrdered key items (items.mergeSort fun first second => key first ≤ key second) := by
  have transitive (first second third : A) :
      decide (key first ≤ key second) = true → decide (key second ≤ key third) = true →
        decide (key first ≤ key third) = true := by
    simpa using Nat.le_trans
  have total (first second : A) :
      (decide (key first ≤ key second) || decide (key second ≤ key first)) = true := by
    simpa using Nat.le_total (key first) (key second)
  have permuted := List.mergeSort_perm items fun first second => key first ≤ key second
  constructor
  · exact permuted
  · have sorted := List.pairwise_mergeSort transitive total items
    simpa using sorted
  · intro value
    have equal : (items.filter (key · = value)).Pairwise
        fun first second => decide (key first ≤ key second) = true := by
      rw [List.pairwise_filter]
      apply List.pairwise_of_forall
      intro first second foundFirst foundSecond
      simp only [decide_eq_true_eq] at foundFirst foundSecond ⊢
      omega
    -- The items with one key are in order, so that they stay a sublist, and no others have that key.
    have kept := (List.sublist_mergeSort transitive total equal List.filter_sublist).filter
      (key · = value)
    rw [List.filter_filter] at kept
    simp only [Bool.and_self] at kept
    exact (kept.eq_of_length (permuted.filter _).length_eq.symm).symm

namespace FrameKind

/-- Encodings that hold their delta in the tag byte. -/
def isCompact : FrameKind → Bool
  | .same | .oneItem _ => true
  | _ => false

/-- A compact encoding and the extended one for the same state. -/
inductive Promotes : FrameKind → FrameKind → Prop where
  | same : Promotes .same .sameExtended
  | oneItem (item : VerificationType) : Promotes (.oneItem item) (.oneItemExtended item)

/-- A delta fits in a compact encoding up to 63, and always in an extended one. -/
theorem fits_iff (kind : FrameKind) (delta : UInt16) :
    kind.fits delta = true ↔ kind.isCompact = true → delta ≤ 63 := by
  cases kind <;> simp [fits, isCompact]

/-- The extended form of an encoding is a promotion of it. -/
theorem promotes_of_extended? {kind other : FrameKind} (found : kind.extended? = some other) :
    kind.Promotes other := by
  cases kind with
  | same =>
    cases found
    exact .same
  | oneItem item =>
    cases found
    exact .oneItem item
  | _ => cases found

/-- The extended encoding takes two bytes for the delta. -/
theorem Promotes.byteSize {kind other : FrameKind} (promotes : kind.Promotes other) :
    other.byteSize = kind.byteSize + 2 := by
  cases promotes with
  | same => decide
  | oneItem item =>
    simp only [FrameKind.byteSize, types]
    omega

end FrameKind

namespace Frame

/-- The promotions of frames at positions, in the order in which they are made. -/
def promoted (previous : Option Nat) : List (Nat × Frame) → List Event
  | [] => []
  | (bci, frame) :: rest =>
    match promotion? (deltaFrom previous bci) frame.kind with
    | some kind =>
      .framePromoted frame.kind.name bci kind.name (deltaFrom previous bci) ::
        promoted (some bci) rest
    | none => promoted (some bci) rest

/-- Frames whose positions ascend are all settled. -/
theorem settleOnto_of_ascending {placed : List (Nat × Frame)} {previous : Option Nat}
    (ascending : Ascending previous placed) (done : List Frame) (promotions : List Event) :
    settleOnto done promotions previous placed =
      ⟨done.reverse ++ settled previous placed, promotions.reverse ++ promoted previous placed,
        none⟩ := by
  induction placed generalizing previous done promotions with
  | nil => simp [settleOnto, settled, promoted]
  | cons entry rest inductionHypothesis =>
    obtain ⟨bci, frame⟩ := entry
    have apart : previous ≠ some bci := by
      intro same
      exact Nat.lt_irrefl bci (ascending.2 bci same (bci, frame) (by simp))
    rw [settleOnto, if_neg apart, settled, promoted]
    cases known : promotion? (deltaFrom previous bci) frame.kind with
    | none => simp [known, inductionHypothesis ascending.tail]
    | some kind => simp [known, inductionHypothesis ascending.tail]

/-- Frames at ascending positions settle without a conflict. -/
theorem settle_of_ascending {placed : List (Nat × Frame)} (ascending : Ascending none placed) :
    settle placed = ⟨settled none placed, promoted none placed, none⟩ := by
  rw [settle_eq, if_pos (ascending.1.imp Nat.le_of_lt), settleOnto_of_ascending ascending]
  simp

/-- A conflict is found at a frame that follows one at the same position. -/
theorem exists_of_conflict {placed : List (Nat × Frame)} {previous : Option Nat} {done : List Frame}
    {promotions : List Event} {handle : Handle}
    (conflict : (settleOnto done promotions previous placed).conflict = some handle) :
    (∃ entry ∈ placed, previous = some entry.1 ∧ entry.2.target = handle) ∨
      ∃ first second : Nat × Frame, [first, second].Sublist placed ∧ first.1 = second.1 ∧
        second.2.target = handle := by
  induction placed generalizing previous done promotions with
  | nil => simp [settleOnto] at conflict
  | cons entry rest inductionHypothesis =>
    obtain ⟨bci, frame⟩ := entry
    rw [settleOnto] at conflict
    by_cases same : previous = some bci
    · rw [if_pos same, Option.some.injEq] at conflict
      exact .inl ⟨(bci, frame), by simp, same, conflict⟩
    · rw [if_neg same] at conflict
      have later : (∃ entry ∈ rest, some bci = some entry.1 ∧ entry.2.target = handle) ∨
          ∃ first second : Nat × Frame, [first, second].Sublist rest ∧ first.1 = second.1 ∧
            second.2.target = handle := by
        cases known : promotion? (deltaFrom previous bci) frame.kind with
        | none =>
          simp only [known] at conflict
          exact inductionHypothesis conflict
        | some kind =>
          simp only [known] at conflict
          exact inductionHypothesis conflict
      right
      rcases later with ⟨entry, present, shared, named⟩ | ⟨first, second, listed, shared, named⟩
      · refine ⟨(bci, frame), entry, ?_, ?_, named⟩
        · exact List.cons_sublist_cons.mpr (List.singleton_sublist.mpr present)
        · exact Option.some.inj shared
      · exact ⟨first, second, listed.cons _, shared, named⟩

/-- The positions that deltas lead to, each from the one before. -/
def positionsFrom (previous : Option Nat) : List UInt16 → List Nat
  | [] => []
  | delta :: rest =>
    position previous delta :: positionsFrom (some (position previous delta)) rest

/-- Positions that follow each other so closely that 16 bits hold every gap. -/
def Near (previous : Option Nat) : List Nat → Prop
  | [] => True
  | bci :: rest => gap previous bci < 65536 ∧ Near (some bci) rest

/-- The deltas of settled frames lead to the positions they were computed from. -/
theorem positionsFrom_settled {placed : List (Nat × Frame)} {previous : Option Nat}
    (ascending : Ascending previous placed) (near : Near previous (placed.map Prod.fst)) :
    positionsFrom previous ((settled previous placed).map Frame.delta) = placed.map Prod.fst := by
  induction placed generalizing previous with
  | nil => rfl
  | cons entry rest inductionHypothesis =>
    obtain ⟨bci, frame⟩ := entry
    have returns : position previous (deltaFrom previous bci) = bci := by
      apply position_deltaFrom_of_near _ near.1
      intro start known
      exact ascending.2 start known (bci, frame) (by simp)
    rw [settled, List.map_cons, positionsFrom, returns, inductionHypothesis ascending.tail near.2]
    rfl

/-- What settling does to one frame. -/
structure Adjusts (before after : Frame) : Prop where
  target : after.target = before.target
  kind : after.kind = before.kind ∨
    before.kind.Promotes after.kind ∧ 63 < after.delta ∧ after.byteSize = before.byteSize + 2
  compact : after.kind.isCompact = true → after.delta ≤ 63

/-- A new delta and a promotion adjust a frame. -/
theorem adjusts_promoted (frame : Frame) (delta : UInt16) :
    Adjusts frame ⟨frame.target, delta, (promotion? delta frame.kind).getD frame.kind⟩ := by
  constructor
  · rfl
  · by_cases fits : frame.kind.fits delta = true
    · left
      simp [promotion?, fits]
    · cases known : frame.kind.extended? with
      | none =>
        left
        simp [promotion?, known]
      | some kind =>
        have promotes := FrameKind.promotes_of_extended? known
        have large : 63 < delta := by
          rw [FrameKind.fits_iff, Classical.not_imp] at fits
          simpa using fits.2
        right
        simp only [promotion?, fits, known]
        exact ⟨promotes, large, promotes.byteSize⟩
  · exact (FrameKind.fits_iff _ _).mp (FrameKind.fits_promoted delta frame.kind)

/-- Settling adjusts each frame. -/
theorem adjusts_settled (placed : List (Nat × Frame)) (previous : Option Nat) :
    List.Forall₂ Adjusts (placed.map Prod.snd) (settled previous placed) := by
  induction placed generalizing previous with
  | nil => exact .nil
  | cons entry rest inductionHypothesis =>
    obtain ⟨bci, frame⟩ := entry
    exact .cons (adjusts_promoted frame _) (inductionHypothesis (some bci))

/-- Every promotion adds two bytes. -/
theorem byteSize_settled (placed : List (Nat × Frame)) (previous : Option Nat) :
    Bytes.totalSize byteSize (settled previous placed) =
      Bytes.totalSize byteSize (placed.map Prod.snd) + 2 * (promoted previous placed).length := by
  induction placed generalizing previous with
  | nil => rfl
  | cons entry rest inductionHypothesis =>
    obtain ⟨bci, frame⟩ := entry
    have continued := inductionHypothesis (some bci)
    rw [settled, promoted]
    cases known : promotion? (deltaFrom previous bci) frame.kind with
    | none =>
      show frame.kind.byteSize + Bytes.totalSize byteSize (settled (some bci) rest) =
        frame.kind.byteSize + Bytes.totalSize byteSize (rest.map Prod.snd) +
          2 * (promoted (some bci) rest).length
      omega
    | some kind =>
      have larger : kind.byteSize = frame.kind.byteSize + 2 := by
        rw [promotion?] at known
        split at known
        · cases known
        · exact (FrameKind.promotes_of_extended? known).byteSize
      show kind.byteSize + Bytes.totalSize byteSize (settled (some bci) rest) =
        frame.kind.byteSize + Bytes.totalSize byteSize (rest.map Prod.snd) +
          2 * ((promoted (some bci) rest).length + 1)
      omega

/-- Frames with the positions of the instructions they describe. -/
def placedAt (bciOf : Handle → Nat) (frames : List Frame) : List (Nat × Frame) :=
  frames.map fun frame => (bciOf frame.target, frame)

theorem map_fst_placedAt (bciOf : Handle → Nat) (frames : List Frame) :
    (placedAt bciOf frames).map Prod.fst = frames.map fun frame => bciOf frame.target := by
  simp [placedAt]

/-- Placing frames keeps them. -/
theorem map_snd_placedAt (bciOf : Handle → Nat) (frames : List Frame) :
    (placedAt bciOf frames).map Prod.snd = frames := by
  rw [placedAt, List.map_map]
  exact List.map_id frames

/-- Positions are settled for the frames in their order. -/
theorem settle_placedAt (bciOf : Handle → Nat) (frames : List Frame) :
    settle (placedAt bciOf frames) = settleOnto [] [] none (placedAt bciOf
      (frames.mergeSort fun first second => bciOf first.target ≤ bciOf second.target)) := by
  rw [settle, placedAt, placedAt, List.map_mergeSort]
  intro first _ second _
  rfl

/-- A conflict names an instruction with a frame whose position a frame before it has as well. -/
theorem shared_of_conflict {bciOf : Handle → Nat} {frames : List Frame} {handle : Handle}
    (conflict : (settle (placedAt bciOf frames)).conflict = some handle) :
    ∃ first second : Frame, [first, second].Sublist frames ∧
      bciOf first.target = bciOf second.target ∧ second.target = handle := by
  have arranged := stablyOrdered_mergeSort (fun frame => bciOf frame.target) frames
  rw [settle_placedAt] at conflict
  rcases exists_of_conflict conflict with ⟨_, _, known, _⟩ | ⟨_, _, listed, shared, named⟩
  · cases known
  · obtain ⟨pair, contained, same⟩ := List.sublist_map_iff.mp listed
    obtain ⟨first, second, rfl⟩ : ∃ first second, pair = [first, second] := by
      apply List.length_eq_two.mp
      have counted := congrArg List.length same
      simpa using counted.symm
    simp only [List.map_cons, List.map_nil, List.cons.injEq, and_true] at same
    obtain ⟨rfl, rfl⟩ := same
    refine ⟨first, second, ?_, shared, named⟩
    -- Sorting keeps the order of the frames at one position.
    have filtered := contained.filter fun frame => bciOf frame.target = bciOf second.target
    rw [arranged.stable] at filtered
    have both : [first, second].filter (fun frame => bciOf frame.target = bciOf second.target) =
        [first, second] := by
      have same : bciOf first.target = bciOf second.target := shared
      simp [same]
    rw [both] at filtered
    exact filtered.trans List.filter_sublist

/-- Without a conflict, no position has two frames. -/
theorem nodup_of_no_conflict {bciOf : Handle → Nat} {frames : List Frame}
    (agreed : (settle (placedAt bciOf frames)).conflict = none) :
    (frames.map fun frame => bciOf frame.target).Nodup := by
  obtain ⟨arranged, permuted, ascending, _⟩ := settle_of_no_conflict agreed
  have same := permuted.map Prod.fst
  rw [map_fst_placedAt] at same
  apply same.nodup_iff.mp
  rw [List.Nodup, List.pairwise_map]
  exact ascending.1.imp Nat.ne_of_lt

/-- Frames are in conflict exactly when two of them describe one position. -/
theorem conflict_iff (bciOf : Handle → Nat) (frames : List Frame) :
    (settle (placedAt bciOf frames)).conflict.isSome = true ↔
      ∃ first second : Frame, [first, second].Sublist frames ∧
        bciOf first.target = bciOf second.target := by
  constructor
  · intro found
    obtain ⟨handle, conflict⟩ := Option.isSome_iff_exists.mp found
    obtain ⟨first, second, listed, shared, _⟩ := shared_of_conflict conflict
    exact ⟨first, second, listed, shared⟩
  · rintro ⟨first, second, listed, shared⟩
    rw [Option.isSome_iff_ne_none]
    intro agreed
    have distinct := (nodup_of_no_conflict agreed).sublist
      (listed.map fun frame => bciOf frame.target)
    simp [shared] at distinct

/-- What settling makes of the frames of a table, which positions put in some order. -/
structure Settles (bciOf : Handle → Nat) (frames arranged : List Frame) (settlement : Settlement) :
    Prop where
  reordered : StablyOrdered (fun frame => bciOf frame.target) frames arranged
  adjusted : List.Forall₂ Adjusts arranged settlement.frames
  decoded : Near none (arranged.map fun frame => bciOf frame.target) →
    positionsFrom none (settlement.frames.map Frame.delta) =
      settlement.frames.map fun frame => bciOf frame.target
  grown : (CodeTable.frames settlement.frames).byteSize =
    (CodeTable.frames frames).byteSize + 2 * settlement.promotions.length
  states : frames.Pairwise (fun first second => bciOf first.target ≤ bciOf second.target) →
    ∀ entry : FrameState, entry.expand settlement.frames = entry.expand frames

/-- The total size does not depend on the order. -/
theorem totalSize_perm {A : Type} (size : A → Nat) {first second : List A}
    (permuted : first.Perm second) : Bytes.totalSize size first = Bytes.totalSize size second := by
  induction permuted with
  | nil => rfl
  | cons item _ inductionHypothesis =>
    show size item + Bytes.totalSize size _ = size item + Bytes.totalSize size _
    rw [inductionHypothesis]
  | swap one other rest =>
    show size other + (size one + Bytes.totalSize size rest) =
      size one + (size other + Bytes.totalSize size rest)
    omega
  | trans _ _ inductionHypothesis others => exact inductionHypothesis.trans others

/-- Frames that are not in conflict are sorted and settled. -/
theorem settles_of_no_conflict {bciOf : Handle → Nat} {frames : List Frame}
    (agreed : (settle (placedAt bciOf frames)).conflict = none) :
    Settles bciOf frames
      (frames.mergeSort fun first second => bciOf first.target ≤ bciOf second.target)
      (settle (placedAt bciOf frames)) := by
  have reordered := stablyOrdered_mergeSort (fun frame => bciOf frame.target) frames
  generalize arrangement : (frames.mergeSort fun first second =>
    bciOf first.target ≤ bciOf second.target) = arranged at reordered ⊢
  have ascending : Ascending none (placedAt bciOf arranged) := by
    have distinct := (reordered.permuted.map fun frame => bciOf frame.target).nodup_iff.mpr
      (nodup_of_no_conflict agreed)
    constructor
    · rw [placedAt, List.pairwise_map]
      refine (reordered.ascending.and (List.pairwise_map.mp distinct)).imp ?_
      intro first second both
      exact lt_of_le_of_ne both.1 both.2
    · simp
  have settlement : settle (placedAt bciOf frames) =
      ⟨settled none (placedAt bciOf arranged), promoted none (placedAt bciOf arranged), none⟩ := by
    rw [settle_placedAt, arrangement, settleOnto_of_ascending ascending]
    simp
  rw [settlement]
  constructor
  · exact reordered
  · have adjusted := adjusts_settled (placedAt bciOf arranged) none
    rwa [map_snd_placedAt] at adjusted
  · intro near
    rw [← map_fst_placedAt] at near
    have targets := congrArg (List.map bciOf)
      (Body.targets_settled none (placedAt bciOf arranged))
    rw [positionsFrom_settled ascending near, map_fst_placedAt]
    simp only [placedAt, List.map_map] at targets ⊢
    exact targets.symm
  · have sizes := byteSize_settled (placedAt bciOf arranged) none
    rw [map_snd_placedAt, totalSize_perm byteSize reordered.permuted] at sizes
    simp only [CodeTable.byteSize, sizes]
    omega
  · intro ordered entry
    have kept : arranged = frames := by
      rw [← arrangement]
      apply List.mergeSort_of_pairwise
      exact ordered.imp fun before => by simpa using before
    rw [FrameState.expand_settled, map_snd_placedAt, kept]

/-- The pass over the frames of a table stops exactly when two frames describe one position.
Otherwise it sorts them, and a reader finds every frame where it was meant to be. -/
theorem settle_decodes (bciOf : Handle → Nat) (frames : List Frame) :
    ((settle (placedAt bciOf frames)).conflict.isSome = true ↔
        ∃ first second : Frame, [first, second].Sublist frames ∧
          bciOf first.target = bciOf second.target) ∧
      ((settle (placedAt bciOf frames)).conflict = none →
        ∃ arranged, Settles bciOf frames arranged (settle (placedAt bciOf frames))) := by
  constructor
  · exact conflict_iff bciOf frames
  · intro agreed
    exact ⟨_, settles_of_no_conflict agreed⟩

/-- Frames that are out of order. -/
def scattered : List Frame := [⟨⟨2⟩, 0, .same⟩, ⟨⟨0⟩, 9, .same⟩, ⟨⟨1⟩, 0, .oneItem .top⟩]

/-- Positions with a gap that a compact frame still holds and one that it does not. -/
def scatteredBci (handle : Handle) : Nat := 64 * handle.index + handle.index / 2

theorem settle_decodes_scattered :
    (settle (placedAt scatteredBci scattered)).conflict = none ∧
      (settle (placedAt scatteredBci scattered)).frames =
        [⟨⟨0⟩, 0, .same⟩, ⟨⟨1⟩, 63, .oneItem .top⟩, ⟨⟨2⟩, 64, .sameExtended⟩] ∧
      (settle (placedAt scatteredBci scattered)).promotions.length = 1 ∧
      (∃ arranged, Settles scatteredBci scattered arranged (settle (placedAt scatteredBci scattered))) ∧
      (settle (placedAt (fun _ => 5) scattered)).conflict.isSome = true := by
  have agreed : (settle (placedAt scatteredBci scattered)).conflict = none := by cbv
  have frames : (settle (placedAt scatteredBci scattered)).frames =
      [⟨⟨0⟩, 0, .same⟩, ⟨⟨1⟩, 63, .oneItem .top⟩, ⟨⟨2⟩, 64, .sameExtended⟩] := by cbv
  have promotions : (settle (placedAt scatteredBci scattered)).promotions.length = 1 := by cbv
  have listed : [⟨⟨2⟩, 0, .same⟩, ⟨⟨0⟩, 9, .same⟩].Sublist scattered := by decide
  exact ⟨agreed, frames, promotions, (settle_decodes scatteredBci scattered).2 agreed,
    (settle_decodes (fun _ => 5) scattered).1.mpr ⟨_, _, listed, rfl⟩⟩

/-- Settled frames at the positions they were settled for. -/
def resettled (previous : Option Nat) : List (Nat × Frame) → List (Nat × Frame)
  | [] => []
  | (bci, frame) :: rest =>
    (bci, ⟨frame.target, deltaFrom previous bci,
      (promotion? (deltaFrom previous bci) frame.kind).getD frame.kind⟩) ::
        resettled (some bci) rest

/-- The settled frames with their positions are the settled frames. -/
theorem map_snd_resettled (placed : List (Nat × Frame)) (previous : Option Nat) :
    (resettled previous placed).map Prod.snd = settled previous placed := by
  induction placed generalizing previous with
  | nil => rfl
  | cons entry rest inductionHypothesis =>
    obtain ⟨bci, frame⟩ := entry
    rw [resettled, settled, List.map_cons, inductionHypothesis]

/-- Settling moves no frame to another instruction or position. -/
theorem map_place_resettled (placed : List (Nat × Frame)) (previous : Option Nat) :
    (resettled previous placed).map (fun entry => (entry.1, entry.2.target)) =
      placed.map fun entry => (entry.1, entry.2.target) := by
  induction placed generalizing previous with
  | nil => rfl
  | cons entry rest inductionHypothesis =>
    obtain ⟨bci, frame⟩ := entry
    rw [resettled, List.map_cons, List.map_cons, inductionHypothesis]

/-- Settled frames have the deltas and encodings that settling would give them. -/
theorem settle_resettled {placed : List (Nat × Frame)} (ascending : Ascending none placed) :
    settle (resettled none placed) = ⟨settled none placed, [], none⟩ := by
  have positions : (resettled none placed).map Prod.fst = placed.map Prod.fst := by
    have same := congrArg (List.map Prod.fst) (map_place_resettled placed none)
    rw [List.map_map, List.map_map] at same
    exact same
  have remains : Ascending none (resettled none placed) := by
    constructor
    · rw [← List.pairwise_map (f := Prod.fst) (R := (· < ·)), positions, List.pairwise_map]
      exact ascending.1
    · simp
  have fixed (previous : Option Nat) :
      settled previous (resettled previous placed) = settled previous placed ∧
        promoted previous (resettled previous placed) = [] := by
    clear ascending positions remains
    induction placed generalizing previous with
    | nil => exact ⟨rfl, rfl⟩
    | cons entry rest inductionHypothesis =>
      obtain ⟨bci, frame⟩ := entry
      obtain ⟨frames, events⟩ := inductionHypothesis (some bci)
      have final : promotion? (deltaFrom previous bci)
          ((promotion? (deltaFrom previous bci) frame.kind).getD frame.kind) = none := by
        rw [promotion?, if_pos (FrameKind.fits_promoted _ _)]
      constructor
      · simp only [resettled, settled, final, frames, Option.getD_none]
      · simp only [resettled, promoted, final, events]
  rw [settle_of_ascending remains, (fixed none).1, (fixed none).2]

end Frame

end Classfile
