import Classfile.Proofs.StackMaps

/-!
Where islands are placed with respect to exception ranges.

A site for an island is chosen by the positions of the last layout. These are exact for the
instructions that were there then, and such a site lies in no range. A trampoline of the same round
is a site as well, but it carries the position of the instruction it displaced, so that it seems to
lie behind a range that ends at that instruction. An island after it therefore lies in the range,
between the inverted branch and the end of the range, and this is the only way for an island to get
into one.
-/

namespace Classfile

/-- A handle is listed one place after the handle it follows. -/
theorem Layout.idxOf_successor? {order : List Handle} {handle next : Handle}
    (distinct : order.Nodup) (follows : successor? order handle = some next) :
    order.idxOf next = order.idxOf handle + 1 := by
  induction order with
  | nil => simp [successor?] at follows
  | cons first rest inductionHypothesis =>
    obtain ⟨absent, distinct⟩ := List.nodup_cons.mp distinct
    rw [successor?] at follows
    by_cases same : first = handle
    · rw [if_pos same, List.head?_eq_some_iff] at follows
      obtain ⟨others, rfl⟩ := follows
      have apart : first ≠ next := fun equal => absent (by simp [equal])
      rw [List.idxOf_cons_ne _ apart, List.idxOf_cons_self, List.idxOf_cons_eq _ same]
    · rw [if_neg same] at follows
      have apart : first ≠ next := fun equal => absent (equal ▸ mem_of_successor? follows)
      rw [List.idxOf_cons_ne _ apart, List.idxOf_cons_ne _ same, inductionHypothesis distinct follows]

namespace Body

/-- The rank of an instruction is one above that of the one before it. -/
theorem Listed.rank_successor? {body : Body} (listed : body.Listed) {handle next : Handle}
    (follows : body.successor? handle = some next) : body.rank next = body.rank handle + 1 :=
  Layout.idxOf_successor? listed.distinct follows

/-- An instruction is laid out at or after the start of a range and before its end. -/
def InRange (body : Body) (range : ExceptionRange) (handle : Handle) : Prop :=
  body.rank range.start ≤ body.rank handle ∧
    ∀ stop ∈ range.stop, body.rank handle < body.rank stop

instance (body : Body) (range : ExceptionRange) (handle : Handle) :
    Decidable (body.InRange range handle) :=
  inferInstanceAs (Decidable (_ ∧ ∀ stop ∈ range.stop, _))

/-- A position that is found uncovered lies behind the end of each range that starts at or before
it. -/
theorem stop_le_of_isCovered {body : Body} {bci : Nat} {ranges : List ExceptionRange}
    (uncovered : body.isCovered bci ranges = .ok false) {range : ExceptionRange}
    (present : range ∈ ranges) {start : Nat} (starts : body.bci range.start = .ok start)
    (reached : start ≤ bci) : ∃ stop, body.stopBci range.stop = .ok stop ∧ stop ≤ bci := by
  induction ranges with
  | nil => cases present
  | cons first rest inductionHypothesis =>
    simp only [isCovered, exceptBind_eq_ok_iff] at uncovered
    obtain ⟨firstStart, firstStarts, uncovered⟩ := uncovered
    split at uncovered
    · obtain ⟨stop, stops, uncovered⟩ := exceptBind_eq_ok_iff.mp uncovered
      split at uncovered
      · cases uncovered
      · rename_i beyond
        rcases List.mem_cons.mp present with rfl | later
        · exact ⟨stop, stops, Nat.le_of_not_lt beyond⟩
        · exact inductionHypothesis uncovered later
    · rename_i notReached
      rcases List.mem_cons.mp present with rfl | later
      · rw [starts, Except.ok.injEq] at firstStarts
        exact absurd (firstStarts ▸ reached) notReached
      · exact inductionHypothesis uncovered later

/-- No exception range covers a site. -/
theorem SiteAt.uncovered {body : Body} {site : Handle} (eligible : body.SiteAt site) :
    ∃ bci, body.bci site = .ok bci ∧ body.isCovered bci body.ranges = .ok false := by
  obtain ⟨slot, _, found, _, source, distance, measured⟩ := eligible
  simp only [islandDistance?, exceptBind_eq_ok_iff, exceptPure_eq_ok_iff] at measured
  obtain ⟨covered, checked, chosen⟩ := measured
  refine ⟨slot.bci, bci_eq_ok_iff.mpr ⟨slot, found, rfl⟩, ?_⟩
  split at chosen
  · rename_i both
    rw [checked, Bool.eq_false_of_not_eq_true both.2]
  · cases chosen

/-- Positions are still those of a layout that was computed before some instructions were inserted,
and none of the instructions of that layout has moved past another one. -/
structure Outdated (settled now : Body) : Prop where
  laid : Laid settled.slot? 0 settled.order.toList settled.codeLength
  listed : settled.Listed
  contains : ∀ handle, settled.contains handle = true → now.contains handle = true
  bci : ∀ handle bci, settled.bci handle = .ok bci → now.bci handle = .ok bci
  rank : ∀ first second, settled.contains first = true → settled.contains second = true →
    (now.rank first < now.rank second ↔ settled.rank first < settled.rank second)
  codeLength : now.codeLength = settled.codeLength

section Outdated

variable {settled now later : Body}

/-- A layout that was just computed is up to date. -/
theorem Synced.outdated {before : Body} (synced : Synced before now) (listed : now.Listed) :
    Outdated now now :=
  ⟨synced.laid, listed, fun _ present => present, fun _ _ found => found, fun _ _ _ _ => Iff.rfl, rfl⟩

/-- A change that keeps old positions leaves a layout outdated at most. -/
theorem Outdated.grows {branch : Handle} (outdated : Outdated settled now)
    (grows : Grows branch now later)
    (bci : ∀ handle bci, now.bci handle = .ok bci → later.bci handle = .ok bci)
    (codeLength : later.codeLength = now.codeLength) : Outdated settled later where
  laid := outdated.laid
  listed := outdated.listed
  contains := fun handle present => grows.kept handle (outdated.contains handle present)
  bci := fun handle position found => bci handle position (outdated.bci handle position found)
  rank := by
    intro first second presentFirst presentSecond
    rw [grows.rank_lt_iff (outdated.contains _ presentFirst) (outdated.contains _ presentSecond)]
    exact outdated.rank first second presentFirst presentSecond
  codeLength := codeLength.trans outdated.codeLength

/-- The instructions of the layout still compare by their positions. -/
theorem Outdated.bci_le_iff (outdated : Outdated settled now) {first second : Handle} {one two : Nat}
    (startsFirst : settled.bci first = .ok one) (startsSecond : settled.bci second = .ok two) :
    one ≤ two ↔ now.rank first ≤ now.rank second := by
  obtain ⟨firstSlot, foundFirst, rfl⟩ := bci_eq_ok_iff.mp startsFirst
  obtain ⟨secondSlot, foundSecond, rfl⟩ := bci_eq_ok_iff.mp startsSecond
  have presentFirst := contains_iff.mpr ⟨firstSlot, foundFirst⟩
  have presentSecond := contains_iff.mpr ⟨secondSlot, foundSecond⟩
  have compared := outdated.laid.bci_lt_iff ((outdated.listed.live second).mpr presentSecond)
    ((outdated.listed.live first).mpr presentFirst) foundSecond foundFirst
  have ranked := outdated.rank second first presentSecond presentFirst
  rw [← Nat.not_lt, compared, ← Nat.not_lt, ranked]
  rfl

/-- Old instructions still have the positions of the old layout. -/
theorem Outdated.exists_bci (outdated : Outdated settled now) {handle : Handle}
    (present : settled.contains handle = true) :
    ∃ bci, settled.bci handle = .ok bci ∧ bci < settled.codeLength := by
  obtain ⟨slot, found⟩ := contains_iff.mp present
  have bounds := outdated.laid.bounds ((outdated.listed.live handle).mpr present) found
  have positive := slot.instruction.width_pos
  exact ⟨slot.bci, bci_eq_ok_iff.mpr ⟨slot, found, rfl⟩, by omega⟩

/-- A site that seems to have the position of an instruction of the layout is uncovered only if that
instruction lies in no range. -/
theorem Outdated.not_inRange (outdated : Outdated settled now) {handle : Handle} {bci : Nat}
    (starts : settled.bci handle = .ok bci)
    (uncovered : now.isCovered bci now.ranges = .ok false) {range : ExceptionRange}
    (present : range ∈ now.ranges) (startLive : settled.contains range.start = true)
    (stopLive : ∀ stop ∈ range.stop, settled.contains stop = true) : ¬now.InRange range handle := by
  rintro ⟨started, unfinished⟩
  obtain ⟨start, startsAt, _⟩ := outdated.exists_bci startLive
  obtain ⟨stop, stops, passed⟩ := stop_le_of_isCovered uncovered present
    (outdated.bci _ _ startsAt) ((outdated.bci_le_iff startsAt starts).mpr started)
  cases ends : range.stop with
  | none =>
    obtain ⟨slot, found, _⟩ := bci_eq_ok_iff.mp starts
    obtain ⟨other, starts', inside⟩ := outdated.exists_bci (contains_iff.mpr ⟨slot, found⟩)
    rw [starts, Except.ok.injEq] at starts'
    rw [ends, stopBci, Positions.ofStop, Except.ok.injEq, outdated.codeLength] at stops
    omega
  | some last =>
    obtain ⟨end', endsAt, _⟩ := outdated.exists_bci (stopLive last ends)
    rw [ends, stopBci, Positions.ofStop, outdated.bci _ _ endsAt, Except.ok.injEq] at stops
    have behind := (outdated.bci_le_iff endsAt starts).mp (by omega)
    exact absurd (unfinished last ends) (Nat.not_lt.mpr behind)

end Outdated

/-- An instruction is laid out between a conditional branch of the original body and the instruction
that followed the branch there. -/
structure Detour (original now : Body) (branch next handle : Handle) : Prop where
  conditional : ∃ opcode target opposite,
    original.shape? branch = some (.branch opcode target) ∧ opcode.inverted? = some opposite
  followed : original.successor? branch = some next
  behind : now.rank branch < now.rank handle
  ahead : now.rank handle < now.rank next

section Detour

variable {original now later : Body} {branch next handle : Handle}

/-- Relaxation changes no comparison of original instructions. -/
theorem Rewired.rank_lt_iff (rewired : Rewired original now) {first second : Handle}
    (presentFirst : original.contains first = true) (presentSecond : original.contains second = true) :
    now.rank first < now.rank second ↔ original.rank first < original.rank second := by
  rw [Body.rank, Body.rank, ← Layout.idxOf_filter_lt_iff presentFirst presentSecond, rewired.order,
    Body.rank, Body.rank]

/-- No original instruction lies between a branch and the instruction that followed it. -/
theorem Detour.eq_next (detour : Detour original now branch next handle)
    (rewired : Rewired original now) (listed : original.Listed) {other : Handle}
    (present : original.contains other = true) (after : now.rank handle < now.rank other)
    (upTo : now.rank other ≤ now.rank next) : other = next := by
  have nextPresent := listed.contains_successor? detour.followed
  obtain ⟨_, _, _, shaped, _⟩ := detour.conditional
  have adjacent := listed.rank_successor? detour.followed
  have lower := (rewired.rank_lt_iff (contains_of_shape? shaped) present).mp
    (detour.behind.trans after)
  have upper := mt (rewired.rank_lt_iff nextPresent present).mpr (Nat.not_lt.mpr upTo)
  exact (listed.rank_inj present).mp (by omega)

/-- A detour stays one when other branches are extended. -/
theorem Detour.grows {changed : Handle} (detour : Detour original now branch next handle)
    (rewired : Rewired original now) (listed : original.Listed)
    (present : now.contains handle = true) (grows : Grows changed now later) :
    Detour original later branch next handle := by
  obtain ⟨_, _, _, shaped, _⟩ := detour.conditional
  refine ⟨detour.conditional, detour.followed, ?_, ?_⟩
  · exact (grows.rank_lt_iff (rewired.contains listed (contains_of_shape? shaped)) present).mpr
      detour.behind
  · exact (grows.rank_lt_iff present (rewired.contains listed
      (listed.contains_successor? detour.followed))).mpr detour.ahead

/-- The branch of a detour is inverted. -/
theorem Detour.inverted (detour : Detour original now branch next handle)
    (rewired : Rewired original now) :
    ∃ opcode target opposite current, original.shape? branch = some (.branch opcode target) ∧
      opcode.inverted? = some opposite ∧ now.shape? branch = some (.branch opposite current) := by
  obtain ⟨opcode, target, opposite, shaped, inverts⟩ := detour.conditional
  have straight (same : now.successor? branch = original.successor? branch) : False := by
    rw [detour.followed] at same
    have adjacent := rewired.listed.rank_successor? same
    have behind := detour.behind
    have ahead := detour.ahead
    omega
  cases rewired.branches branch opcode target shaped with
  | same _ _ falls => exact (straight (falls (Opcode.widened?_of_inverted? inverts).2.2.2.1)).elim
  | widened widens =>
    rw [(Opcode.inverted?_of_widened? widens).1] at inverts
    cases inverts
  | inverted inverts' _ shapedNow => exact ⟨opcode, target, _, _, shaped, inverts', shapedNow⟩

end Detour

/-- All exception ranges refer to instructions in use. -/
def RangesLive (body : Body) : Prop :=
  ∀ range ∈ body.ranges, body.contains range.start = true ∧
    ∀ stop ∈ range.stop, body.contains stop = true

instance (body : Body) : Decidable body.RangesLive :=
  inferInstanceAs (Decidable (∀ range ∈ body.ranges, _ ∧ ∀ stop ∈ range.stop, _))

/-- The islands of a body lie in no exception range, unless they are detours of a branch that the
range ends after. -/
structure IslandsPlaced (original now : Body) : Prop where
  ranges : now.ranges = original.ranges
  placed : ∀ range ∈ original.ranges, ∀ island, original.contains island = false →
    now.Framed island → now.InRange range island →
      ∃ branch stop, range.stop = some stop ∧ Detour original now branch stop island

/-- While branches are extended, a trampoline of the same round has the position of the instruction
after it. -/
structure IslandsPending (original settled now : Body) : Prop extends IslandsPlaced original now where
  outdated : Outdated settled now
  originals : ∀ handle, original.contains handle = true → settled.contains handle = true
  trampolines : ∀ handle, now.contains handle = true → settled.contains handle = false →
    ¬now.Framed handle → ∃ branch next bci, Detour original now branch next handle ∧
      settled.bci next = .ok bci ∧ now.bci handle = .ok bci

section Placement

variable {original settled now later : Body}

/-- Computing the layout adds no frames. -/
theorem Synced.framed_of_framed (synced : Synced now later) {handle : Handle}
    (framed : later.Framed handle) : now.Framed handle := by
  obtain ⟨frame, present, same⟩ := framed
  rcases synced.frames?_eq with ⟨_, after⟩ | ⟨old, new, before, after, settledFrames⟩
  · rw [frames, after] at present
    cases present
  · rw [frames_of_frames? after] at present
    obtain ⟨_, other, member, target⟩ := settledFrames.target present
    exact ⟨other, by rw [frames_of_frames? before]; exact member, target.trans same⟩

/-- Computing the layout moves no island. -/
theorem IslandsPlaced.synced (placed : IslandsPlaced original now) (synced : Synced now later) :
    IslandsPlaced original later := by
  refine ⟨by rw [synced.rest]; exact placed.ranges, ?_⟩
  intro range present island absent framed inRange
  rw [InRange, synced.rank] at inRange
  obtain ⟨branch, stop, ends, detour⟩ :=
    placed.placed range present island absent (synced.framed_of_framed framed) inRange
  refine ⟨branch, stop, ends, detour.conditional, detour.followed, ?_, ?_⟩
  · rw [synced.rank]
    exact detour.behind
  · rw [synced.rank]
    exact detour.ahead

/-- After the layout is computed, all positions are exact. -/
theorem IslandsPlaced.pending (placed : IslandsPlaced original now) (rewired : Rewired original now)
    (listed : original.Listed) (synced : Synced now later) :
    IslandsPending original later later := by
  refine ⟨placed.synced synced, synced.outdated (synced.listed rewired.listed), ?_, ?_⟩
  · intro handle present
    rw [synced.contains]
    exact rewired.contains listed present
  · intro handle present absent
    rw [present] at absent
    cases absent

/-- A site in a range is a detour of a branch that the range ends after. -/
theorem IslandsPending.detour_of_site (pending : IslandsPending original settled now)
    (rewired : Rewired original now) (listed : original.Listed) (live : original.RangesLive)
    {site : Handle} (eligible : now.SiteAt site) {range : ExceptionRange}
    (present : range ∈ original.ranges) (inRange : now.InRange range site) :
    ∃ branch stop, range.stop = some stop ∧ Detour original now branch stop site := by
  obtain ⟨bci, starts, uncovered⟩ := eligible.uncovered
  have ranged : range ∈ now.ranges := by rw [pending.ranges]; exact present
  obtain ⟨startLive, stopLive⟩ := live range present
  have startSettled := pending.originals _ startLive
  have stopSettled : ∀ stop ∈ range.stop, settled.contains stop = true :=
    fun stop ends => pending.originals _ (stopLive stop ends)
  by_cases known : settled.contains site = true
  · -- The position of the site is exact, so it cannot lie in a range.
    obtain ⟨exactly, startsAt, _⟩ := pending.outdated.exists_bci known
    have same := pending.outdated.bci _ _ startsAt
    rw [starts, Except.ok.injEq] at same
    exact absurd inRange (pending.outdated.not_inRange (same ▸ startsAt) uncovered ranged
      startSettled stopSettled)
  · have added := Bool.eq_false_of_not_eq_true known
    by_cases framed : now.Framed site
    · refine pending.placed range present site ?_ framed inRange
      by_contra originally
      exact known (pending.originals site (Bool.eq_true_of_not_eq_false originally))
    · -- The site seems to be where the instruction after the detour is, which lies in no range.
      obtain ⟨slot, found, _⟩ := bci_eq_ok_iff.mp starts
      obtain ⟨branch, next, position, detour, nextStarts, stale⟩ :=
        pending.trampolines site (contains_iff.mpr ⟨slot, found⟩) added framed
      rw [starts, Except.ok.injEq] at stale
      have outside := pending.outdated.not_inRange (stale ▸ nextStarts) uncovered ranged
        startSettled stopSettled
      rw [InRange, not_and] at outside
      have beyond := outside (inRange.1.trans (Nat.le_of_lt detour.ahead))
      push Not at beyond
      obtain ⟨stop, ends, reached⟩ := beyond
      have same := detour.eq_next rewired listed (stopLive stop ends) (inRange.2 stop ends) reached
      exact ⟨branch, next, same ▸ ends, detour⟩

/-- An extension changes no membership in a range. -/
theorem Grows.inRange_iff {branch handle : Handle} (grows : Grows branch now later)
    {range : ExceptionRange} (startLive : now.contains range.start = true)
    (stopLive : ∀ stop ∈ range.stop, now.contains stop = true)
    (present : now.contains handle = true) :
    later.InRange range handle ↔ now.InRange range handle := by
  have started := grows.rank_lt_iff present startLive
  refine and_congr (by rw [← Nat.not_lt, started, Nat.not_lt]) ?_
  exact forall₂_congr fun stop ends => grows.rank_lt_iff present (stopLive stop ends)

/-- An extension keeps the invariant if it does so for what it inserts. -/
theorem IslandsPending.grows {branch : Handle} (pending : IslandsPending original settled now)
    (rewired : Rewired original now) (listed : original.Listed) (live : original.RangesLive)
    (grows : Grows branch now later) (ranges : later.ranges = now.ranges)
    (codeLength : later.codeLength = now.codeLength)
    (bci : ∀ handle bci, now.bci handle = .ok bci → later.bci handle = .ok bci)
    (framesLive : ∀ handle, later.Framed handle → later.contains handle = true)
    (framed : ∀ handle, now.contains handle = true → (later.Framed handle ↔ now.Framed handle))
    (island : ∀ handle, later.contains handle = true → now.contains handle = false →
      later.Framed handle → ∀ range ∈ original.ranges, later.InRange range handle →
        ∃ branch stop, range.stop = some stop ∧ Detour original later branch stop handle)
    (trampoline : ∀ handle, later.contains handle = true → now.contains handle = false →
      ¬later.Framed handle → ∃ branch next bci, Detour original later branch next handle ∧
        settled.bci next = .ok bci ∧ later.bci handle = .ok bci) :
    IslandsPending original settled later := by
  refine ⟨⟨ranges.trans pending.ranges, ?_⟩, pending.outdated.grows grows bci codeLength,
    pending.originals, ?_⟩
  · intro range present handle absent framedHandle inRange
    by_cases before : now.contains handle = true
    · obtain ⟨startLive, stopLive⟩ := live range present
      rw [grows.inRange_iff (rewired.contains listed startLive)
        (fun stop ends => rewired.contains listed (stopLive stop ends)) before] at inRange
      obtain ⟨hop, stop, ends, detour⟩ := pending.placed range present handle absent
        ((framed handle before).mp framedHandle) inRange
      exact ⟨hop, stop, ends, detour.grows rewired listed before grows⟩
    · exact island handle (framesLive handle framedHandle) (Bool.eq_false_of_not_eq_true before)
        framedHandle range present inRange
  · intro handle present added unframed
    by_cases before : now.contains handle = true
    · obtain ⟨hop, next, position, detour, starts, stale⟩ := pending.trampolines handle before added
        (mt (framed handle before).mpr unframed)
      exact ⟨hop, next, position, detour.grows rewired listed before grows, starts,
        bci handle position stale⟩
    · exact trampoline handle present (Bool.eq_false_of_not_eq_true before) unframed

/-- A replacement leaves all positions as they are. -/
theorem Replaces.bci {handle : Handle} {instruction : Instruction Jump}
    (replaced : Replaces handle instruction now later) {other : Handle} {bci : Nat}
    (starts : now.bci other = .ok bci) : later.bci other = .ok bci := by
  obtain ⟨slot, found, rfl⟩ := bci_eq_ok_iff.mp starts
  rw [bci_eq_ok_iff, replaced.slot?]
  split
  · rename_i same
    rw [← same, found]
    exact ⟨_, rfl, rfl⟩
  · exact ⟨slot, found, rfl⟩

/-- An insertion leaves all old positions as they are. -/
theorem Inserts.bci {anchor new : Handle} {instruction : Instruction Jump}
    (inserted : Inserts anchor instruction now new later) {other : Handle} {bci : Nat}
    (starts : now.bci other = .ok bci) : later.bci other = .ok bci := by
  obtain ⟨slot, found, rfl⟩ := bci_eq_ok_iff.mp starts
  obtain ⟨position, slots⟩ := inserted.slot?
  have different := inserted.ne_new (contains_iff.mpr ⟨slot, found⟩)
  exact bci_eq_ok_iff.mpr ⟨slot, by rw [slots, if_neg different, found], rfl⟩

/-- The only instruction that an insertion and a replacement add is the inserted one. -/
theorem Inserts.eq_new {anchor new branch : Handle} {first second : Instruction Jump} {middle : Body}
    (inserted : Inserts anchor first now new middle) (replaced : Replaces branch second middle later)
    {handle : Handle} (present : later.contains handle = true)
    (absent : now.contains handle = false) : handle = new := by
  rw [replaced.contains, inserted.contains, absent] at present
  exact present.resolve_right Bool.false_ne_true

/-- A trampoline stands between its branch and the instruction whose position it takes. -/
theorem IslandsPending.inverted {branch target current next trampoline : Handle} {middle : Body}
    {opcode other opposite : Opcode} (pending : IslandsPending original settled now)
    (rewired : Rewired original now) (listed : original.Listed) (live : original.RangesLive)
    (originally : original.shape? branch = some (.branch opcode target))
    (branching : now.shape? branch = some (.branch other current))
    (framesLive : ∀ handle, now.Framed handle → now.contains handle = true)
    (once : now.frames? = none → other = opcode) (inverts : other.inverted? = some opposite)
    (framed : now.needsIsland branch = .ok false) (follows : now.next? branch = .ok (some next))
    (inserted : Inserts branch (.wideBranch .gotoW (.to current)) now trampoline middle)
    (replaced : Replaces branch (.branch opposite (.to next)) middle later) :
    IslandsPending original settled later := by
  have grows := inserted.grows replaced rewired.listed (contains_of_shape? branching) (.inl rfl)
  have rest : later = { now with slots := later.slots, order := later.order } := by
    rw [replaced.rest, inserted.rest]
  have same : later.frames = now.frames := by
    rw [frames, Edit.frames?_of_inserts_replaces inserted replaced, frames]
  have sameFramed (handle : Handle) : later.Framed handle ↔ now.Framed handle := by
    rw [Framed, same, Framed]
  obtain ⟨rfl, _, straight⟩ := (rewired.branches branch opcode target originally).upright branching
    once framed follows
  have successor := (next?_eq_ok_iff.mp follows).2
  have followed : original.successor? branch = some next := by
    rw [← straight (Opcode.widened?_of_inverted? inverts).2.2.2.1, successor]
  have apart := (inserted.ne_new (contains_of_shape? branching)).symm
  refine pending.grows rewired listed live grows (by rw [rest]) (by rw [rest])
    (fun handle bci starts => replaced.bci (inserted.bci starts))
    (fun handle held => grows.kept handle (framesLive handle ((sameFramed handle).mp held)))
    (fun handle _ => sameFramed handle) ?_ ?_
  · intro handle present absent held
    rw [framesLive handle ((sameFramed handle).mp held)] at absent
    cases absent
  · intro handle present absent _
    obtain rfl := inserted.eq_new replaced present absent
    obtain ⟨position, starts, _⟩ := pending.outdated.exists_bci
      (pending.originals next (listed.contains_successor? followed))
    obtain ⟨slot, found, startsNow⟩ := bci_eq_ok_iff.mp (pending.outdated.bci _ _ starts)
    have hop : later.successor? branch = some handle := by
      rw [Body.successor?, replaced.order]
      exact inserted.successor?_anchor
    have landing : later.successor? handle = some next := by
      rw [Body.successor?, replaced.order, ← successor]
      exact inserted.successor?_new rewired.listed
    refine ⟨branch, next, position, ⟨⟨_, _, _, originally, inverts⟩, followed, ?_, ?_⟩, starts, ?_⟩
    · rw [grows.listed.rank_successor? hop]
      exact Nat.lt_succ_self _
    · rw [grows.listed.rank_successor? landing]
      exact Nat.lt_succ_self _
    · apply replaced.bci
      exact bci_eq_ok_iff.mpr ⟨_, inserted.takes next slot successor found, startsNow⟩

/-- An island lies in a range only if its site does. -/
theorem IslandsPending.island {branch target site island : Handle} {middle body : Body}
    {opcode : Opcode} {frames extended : List Frame}
    (pending : IslandsPending original settled now) (rewired : Rewired original now)
    (listed : original.Listed) (live : original.RangesLive)
    (framed : now.frames? = some frames)
    (framesLive : ∀ handle, (body.setFrames extended).Framed handle → body.contains handle = true)
    (targets : ∀ handle, (∃ frame ∈ extended, frame.target = handle) ↔
      handle = island ∨ ∃ frame ∈ frames, frame.target = handle)
    (eligible : now.SiteAt site)
    (inserted : Inserts site (.wideBranch .gotoW (.to target)) now island middle)
    (replaced : Replaces branch (.branch opcode (.to island)) middle body)
    (grows : Grows branch now (body.setFrames extended)) :
    IslandsPending original settled (body.setFrames extended) := by
  have rest : body = { now with slots := body.slots, order := body.order } := by
    rw [replaced.rest, inserted.rest]
  have known : body.frames? = some frames := by
    rw [Edit.frames?_of_inserts_replaces inserted replaced, framed]
  have framedAfter (handle : Handle) :
      (body.setFrames extended).Framed handle ↔ handle = island ∨ now.Framed handle := by
    rw [Framed, frames_of_frames? (frames?_setFrames known extended), targets, Framed,
      frames_of_frames? framed]
  have fresh := inserted.not_contains
  refine pending.grows rewired listed live grows ?_ ?_
    (fun handle bci starts => replaced.bci (inserted.bci starts)) framesLive ?_ ?_ ?_
  · change body.ranges = now.ranges
    rw [rest]
  · change body.codeLength = now.codeLength
    rw [rest]
  · intro handle before
    rw [framedAfter, or_iff_right]
    rintro rfl
    rw [before] at fresh
    cases fresh
  · intro handle presentAfter absent _ range ranged inRange
    obtain rfl := inserted.eq_new replaced presentAfter absent
    have sitePresent : now.contains site = true := by
      obtain ⟨slot, _, found, _⟩ := eligible
      exact contains_iff.mpr ⟨slot, found⟩
    have follows : (body.setFrames extended).successor? site = some handle := by
      change body.successor? site = some handle
      rw [Body.successor?, replaced.order]
      exact inserted.successor?_anchor
    have next := grows.listed.rank_successor? follows
    obtain ⟨startLive, stopLive⟩ := live range ranged
    have startNow := rewired.contains listed startLive
    have elsewhere : range.start ≠ handle := by
      rintro rfl
      rw [startNow] at fresh
      cases fresh
    -- The island stands right behind its site, so a range that holds the island holds the site.
    have siteInRange : (body.setFrames extended).InRange range site := by
      have started := inRange.1
      have differs := mt (grows.listed.rank_inj (grows.kept _ startNow)).mp elsewhere
      refine ⟨by omega, fun stop ends => ?_⟩
      have before := inRange.2 stop ends
      omega
    rw [grows.inRange_iff startNow (fun stop ends => rewired.contains listed (stopLive stop ends))
      sitePresent] at siteInRange
    obtain ⟨hop, stop, ends, detour⟩ := pending.detour_of_site rewired listed live eligible ranged
      siteInRange
    have behind := (detour.grows rewired listed sitePresent grows).behind
    exact ⟨hop, stop, ends, detour.conditional, detour.followed, by omega, inRange.2 stop ends⟩
  · intro handle presentAfter absent unframed
    obtain rfl := inserted.eq_new replaced presentAfter absent
    exact absurd ((framedAfter handle).mpr (.inl rfl)) unframed

/-- Every way to extend a branch keeps the invariant. -/
theorem IslandsPending.extends {branch : Handle} {opcode : Opcode} {jump : Jump}
    {others : List (Handle × Opcode × Jump)} {before after : Edit} (listed : original.Listed)
    (live : original.RangesLive) (placing : IslandsPending original settled before.body)
    (pending : Pending original ((branch, opcode, jump) :: others) before.body)
    (pendingAfter : Pending original others after.body)
    (extends' : Edit.Extends branch opcode jump.target before after) :
    IslandsPending original settled after.body := by
  have framesLive {entries : List (Handle × Opcode × Jump)} {body : Body}
      (remaining : Pending original entries body) (handle : Handle) (held : body.Framed handle) :
      body.contains handle = true := by
    obtain ⟨frame, present, rfl⟩ := held
    cases known : body.frames? with
    | none =>
      rw [frames, known] at present
      cases present
    | some frames =>
      rw [frames_of_frames? known] at present
      exact remaining.framesLive frames known frame present
  have rewired := pending.rewired
  have branching := pending.shaped branch opcode jump (by simp)
  obtain ⟨origin, target, originally⟩ := rewired.lengthened.exists_original branching
  have grows := extends'.grows rewired.listed (contains_of_shape? branching)
  cases extends' with
  | @widened body wider widens replaced =>
    have sameFramed (handle : Handle) : body.Framed handle ↔ before.body.Framed handle := by
      rw [replaced.rest]
      rfl
    have none (handle : Handle) (present : body.contains handle = true)
        (absent : before.body.contains handle = false) : False := by
      rw [replaced.contains, absent] at present
      cases present
    refine placing.grows rewired listed live grows (by rw [replaced.rest]) (by rw [replaced.rest])
      (fun handle bci starts => replaced.bci starts) (framesLive pendingAfter)
      (fun handle _ => sameFramed handle) ?_ ?_
    · exact fun handle present absent => (none handle present absent).elim
    · exact fun handle present absent => (none handle present absent).elim
  | inverted narrow inverts framed follows inserted replaced =>
    exact placing.inverted rewired listed live originally branching (framesLive pending)
      (fun frameless => pending.once frameless branch opcode jump (by simp) origin target originally)
      inverts framed follows inserted replaced
  | @island pool middle body context frames entry state site island narrow unframed known framed
      entered found inserted replaced described =>
    refine placing.island rewired listed live framed (framesLive pendingAfter) ?_
      (siteAt_of_islandSite? found) inserted replaced grows
    intro handle
    rw [← List.mem_map, map_target_withIslandFrame, List.mem_append, List.mem_cons, or_left_comm,
      ← List.mem_append, ← List.map_append, List.take_append_drop, List.mem_map]
    rfl

end Placement

end Body

namespace Edit

/-- An island of a relaxed body lies in no exception range, with one exception: it may stand behind
the trampoline of an inverted branch, where the range ends at the instruction that the branch hops
to. -/
theorem islands_placed_of_relax {body : Body} {pool : Pool} {events : Array Event}
    {after : Logged Edit} (listed : body.Listed) (wellFormed : body.WellFormed)
    (live : body.JumpsLive) (ranges : body.RangesLive)
    (framesLive : ∀ frame ∈ body.frames, body.contains frame.target = true)
    (ran : relax ⟨⟨body, pool⟩, events⟩ = .ok () after)
    {range : ExceptionRange} (present : range ∈ body.ranges) {island : Handle}
    (inserted : body.contains island = false) (framed : after.state.body.Framed island)
    (inRange : after.state.body.InRange range island) :
    ∃ branch opcode target opposite current stop,
      body.shape? branch = some (.branch opcode target) ∧ opcode.inverted? = some opposite ∧
      after.state.body.shape? branch = some (.branch opposite current) ∧
      body.successor? branch = some stop ∧ range.stop = some stop ∧
      after.state.body.rank branch < after.state.body.rank island := by
  obtain ⟨rounds, middle, run, same, _⟩ := rounds_of_relax ran
  obtain ⟨last, ⟨rewired, placed⟩, syncs, _⟩ := relaxRounds_induction
    (fun edit => body.Rewired edit.body ∧ body.IslandsPlaced edit.body)
    (fun entries edit => body.Pending entries edit.body ∧
      ∃ settled, body.IslandsPending settled edit.body)
    (fun before after resting syncs => by
      have synced := syncs.synced resting.1.listed
      exact ⟨resting.1.pending synced, _, resting.2.pending resting.1 listed synced⟩)
    (fun branch opcode jump others before after pending extends' => by
      obtain ⟨pending, settled, placing⟩ := pending
      have pendingAfter := pending.extends listed (Body.wellFormed_iff.mp wellFormed) extends'
      exact ⟨pendingAfter, settled, placing.extends listed ranges pending pendingAfter extends'⟩)
    (fun edit pending => ⟨pending.1.rewired, pending.2.choose_spec.toIslandsPlaced⟩)
    ⟨Body.Rewired.refl listed live, rfl, fun range _ island absent held => by
      obtain ⟨frame, member, target⟩ := held
      rw [← target, framesLive frame member] at absent
      cases absent⟩ run
  have synced := syncs.synced rewired.listed
  have rewiredAfter := rewired.synced synced
  have placedAfter := placed.synced synced
  rw [same] at rewiredAfter placedAfter
  obtain ⟨branch, stop, ends, detour⟩ :=
    placedAfter.placed range present island inserted framed inRange
  obtain ⟨opcode, target, opposite, current, shaped, inverts, shapedAfter⟩ :=
    detour.inverted rewiredAfter
  exact ⟨branch, opcode, target, opposite, current, stop, shaped, inverts, shapedAfter,
    detour.followed, ends, detour.behind⟩

end Edit

/-- A range that ends between two far branches, where the first one gets a trampoline and the second
one an island. -/
def Body.rangeAcross : Body where
  nameIndex := 1
  maxStack := 1
  maxLocals := 1
  slots := #[some ⟨.branch .ifeq (.to ⟨5⟩), 0⟩, some ⟨.branch .ifeq (.to ⟨5⟩), 0⟩,
    some ⟨.simple .nop, 0⟩, some ⟨.branch .goto (.to ⟨4⟩), 0⟩,
    some ⟨.tableSwitch 0 (.to ⟨5⟩) 0 (List.replicate 8190 (.to ⟨5⟩)), 0⟩, some ⟨.simple .returnVoid, 0⟩]
  order := #[⟨0⟩, ⟨1⟩, ⟨2⟩, ⟨3⟩, ⟨4⟩, ⟨5⟩]
  codeLength := 0
  ranges := [⟨⟨0⟩, some ⟨1⟩, ⟨5⟩, none⟩]
  attributes := [⟨1, .frames [.new ⟨1⟩ .same, .new ⟨4⟩ .same, .new ⟨5⟩ .same]⟩]
  context := some ⟨1, "()V", true, false⟩

set_option maxRecDepth 20000 in
theorem Body.wellFormed_rangeAcross :
    Body.rangeAcross.WellFormed ∧ Body.rangeAcross.JumpsLive :=
  ⟨by decide +kernel, by decide +kernel⟩

set_option maxRecDepth 20000 in
/-- The island of the second branch is placed in the range, which covers the first branch alone. -/
theorem Edit.relax_rangeAcross :
    ∃ after, Edit.relax ⟨⟨Body.rangeAcross, Pool.empty⟩, #[]⟩ = .ok () after ∧
      after.state.body.Framed ⟨7⟩ ∧
      after.state.body.InRange ⟨⟨0⟩, some ⟨1⟩, ⟨5⟩, none⟩ ⟨7⟩ := by
  have runs : relaxesWithin 2 (fun edit => edit.body.Framed ⟨7⟩ ∧
      edit.body.InRange ⟨⟨0⟩, some ⟨1⟩, ⟨5⟩, none⟩ ⟨7⟩) ⟨⟨Body.rangeAcross, Pool.empty⟩, #[]⟩ = true := by
    decide +kernel
  exact exists_relax (by decide) runs

/-- There are bodies with islands in an exception range. -/
theorem Edit.exists_island_in_range :
    ∃ (body : Body) (pool : Pool) (after : Logged Edit),
      body.Listed ∧ body.WellFormed ∧ body.JumpsLive ∧ body.RangesLive ∧
      (∀ range ∈ body.ranges, ∀ stop ∈ range.stop, body.rank range.start < body.rank stop) ∧
      (∀ frame ∈ body.frames, body.contains frame.target = true) ∧
      body.attributes.length = 1 ∧ body.FramesOrdered body.frames ∧
      Edit.relax ⟨⟨body, pool⟩, #[]⟩ = .ok () after ∧
      ∃ range ∈ body.ranges, ∃ island, body.contains island = false ∧
        after.state.body.Framed island ∧ after.state.body.InRange range island := by
  obtain ⟨after, ran, framed, inRange⟩ := relax_rangeAcross
  obtain ⟨wellFormed, live⟩ := Body.wellFormed_rangeAcross
  exact ⟨Body.rangeAcross, Pool.empty, after, by decide, wellFormed, live, by decide, by decide,
    by decide, by decide, Body.framesOrdered_iff.mpr (by decide), ran, _, List.mem_singleton_self _,
    ⟨7⟩, by decide, framed, inRange⟩

theorem Edit.islands_placed_of_relax_rangeAcross :
    ∃ after, Edit.relax ⟨⟨Body.rangeAcross, Pool.empty⟩, #[]⟩ = .ok () after ∧
      after.state.body.InRange ⟨⟨0⟩, some ⟨1⟩, ⟨5⟩, none⟩ ⟨7⟩ ∧
      ∃ branch opcode target opposite current stop,
        Body.rangeAcross.shape? branch = some (.branch opcode target) ∧
        opcode.inverted? = some opposite ∧
        after.state.body.shape? branch = some (.branch opposite current) ∧
        Body.rangeAcross.successor? branch = some stop ∧ some ⟨1⟩ = some stop ∧
        after.state.body.rank branch < after.state.body.rank ⟨7⟩ := by
  obtain ⟨after, ran, framed, inRange⟩ := relax_rangeAcross
  obtain ⟨wellFormed, live⟩ := Body.wellFormed_rangeAcross
  refine ⟨after, ran, inRange, ?_⟩
  exact islands_placed_of_relax (by decide) wellFormed live (by decide) (by decide) ran
    (List.mem_singleton_self _) (by decide) framed inRange

end Classfile
