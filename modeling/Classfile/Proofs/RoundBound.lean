import Classfile.Proofs.ControlFlow
import Classfile.Proofs.FrameStates

/-!
How many rounds relaxation takes.

Each extension either takes an original branch out of consideration for good or places an island,
which leaves the branch as it was and adds a frame. So the rounds are bounded by the 16-bit branches
and the islands together, and relaxation goes on forever exactly when it places islands forever.
-/

namespace Classfile

namespace Body

/-- A branch of the original body that is still a 16-bit branch on the same condition. -/
def isUpright (original now : Body) (handle : Handle) : Bool :=
  match original.shape? handle, now.shape? handle with
  | some (.branch before _), some (.branch after _) => before = after
  | _, _ => false

/-- The number of original branches that are still 16-bit branches on the same condition. -/
def uprightCount (original now : Body) : Nat :=
  original.order.toList.countP (original.isUpright now)

/-- The number of 16-bit branches. -/
def branchCount (body : Body) : Nat := body.uprightCount body

/-- The number of frames of a body. -/
def frameCount (body : Body) : Nat := (body.frames?.getD []).length

variable {original now later : Body}

/-- A branch is upright while its opcode is the original one. -/
theorem isUpright_of_branch {handle target current : Handle} {before after : Opcode}
    (originally : original.shape? handle = some (.branch before target))
    (branching : now.shape? handle = some (.branch after current)) :
    original.isUpright now handle = decide (before = after) := by
  unfold isUpright
  rw [originally, branching]

/-- A branch in its wide form is not upright. -/
theorem isUpright_of_wideBranch {handle current : Handle} {after : Opcode}
    (branching : now.shape? handle = some (.wideBranch after current)) :
    original.isUpright now handle = false := by
  unfold isUpright
  rw [branching]
  split
  · rename_i wide
    cases wide
  · rfl

/-- All branches are upright at first. -/
theorem isUpright_self {handle : Handle} :
    original.isUpright original handle = true ↔
      ∃ opcode target, original.shape? handle = some (.branch opcode target) := by
  unfold isUpright
  constructor
  · intro upright
    split at upright
    · rename_i shaped _
      exact ⟨_, _, shaped⟩
    · cases upright
  · intro shaped
    obtain ⟨opcode, target, shaped⟩ := shaped
    rw [shaped]
    simp

/-- Computing the layout keeps the number of upright branches. -/
theorem Synced.uprightCount (synced : Synced now later) :
    original.uprightCount later = original.uprightCount now := by
  unfold Body.uprightCount
  congr 1
  funext handle
  rw [isUpright, synced.shape?, isUpright]

/-- Computing the layout keeps the number of frames. -/
theorem Synced.frameCount (synced : Synced now later) : later.frameCount = now.frameCount := by
  unfold Body.frameCount
  rcases synced.frames?_eq with ⟨before, after⟩ | ⟨old, new, before, after, settledFrames⟩
  · rw [before, after]
  · obtain ⟨arranged, permuted, _, _, rfl⟩ := settledFrames
    have targets := congrArg List.length (targets_settled none arranged)
    rw [List.length_map, List.length_map] at targets
    rw [before, after, Option.getD_some, Option.getD_some, targets, ← permuted.length_eq,
      List.length_map]

theorem length_withIslandFrame (frames : List Frame) (states : List FrameState) (before : Nat)
    (island : Frame) :
    (withIslandFrame frames states before island).length = frames.length + 1 := by
  have targets := congrArg List.length (map_target_withIslandFrame frames states before island)
  simp only [List.length_map, List.length_append, List.length_cons, List.length_take,
    List.length_drop] at targets
  omega

/-- What happens to one branch tells how the count changes. -/
theorem Rewired.uprightCount_grows (rewired : Rewired original now) (listed : original.Listed)
    {branch : Handle} (grows : Grows branch now later) (present : original.contains branch = true) :
    original.uprightCount later + (original.isUpright now branch).toNat =
      original.uprightCount now + (original.isUpright later branch).toNat := by
  have others (handle : Handle) (member : handle ∈ original.order.toList) (apart : handle ≠ branch) :
      original.isUpright later handle = original.isUpright now handle := by
    have alive := rewired.contains listed ((listed.live handle).mp member)
    rw [isUpright, grows.shape? handle apart alive, isUpright]
  have distinct := listed.distinct
  have included := (listed.live branch).mpr present
  unfold Body.uprightCount
  revert others distinct included
  generalize original.order.toList = order
  intro others distinct included
  induction order with
  | nil => cases included
  | cons handle order inductionHypothesis =>
    obtain ⟨absent, distinct⟩ := List.nodup_cons.mp distinct
    rw [List.countP_cons, List.countP_cons]
    by_cases same : handle = branch
    · subst same
      have rest : order.countP (original.isUpright later) = order.countP (original.isUpright now) := by
        apply List.countP_congr
        intro other member
        rw [others other (by simp [member]) (fun equal => absent (equal ▸ member))]
      rw [rest]
      cases original.isUpright now handle <;> cases original.isUpright later handle <;> simp
    · have member : branch ∈ order := (List.mem_cons.mp included).resolve_left (Ne.symm same)
      have rest := inductionHypothesis
        (fun other member => others other (by simp [member])) distinct member
      rw [others handle (by simp) same]
      omega

/-- An extension takes a branch out of consideration or adds a frame. -/
theorem Pending.spends {branch : Handle} {opcode : Opcode} {jump : Jump}
    {others : List (Handle × Opcode × Jump)} {before after : Edit} (listed : original.Listed)
    (pending : Pending original ((branch, opcode, jump) :: others) before.body)
    (extends' : Edit.Extends branch opcode jump.target before after) :
    original.uprightCount after.body + before.body.frameCount + 1 ≤
        original.uprightCount before.body + after.body.frameCount ∧
      after.body.frameCount ≤ before.body.frameCount + 1 := by
  have branching := pending.shaped branch opcode jump (by simp)
  obtain ⟨origin, target, originally⟩ := pending.rewired.lengthened.exists_original branching
  have state := pending.rewired.branches branch origin target originally
  have count := pending.rewired.uprightCount_grows listed
    (extends'.grows pending.rewired.listed (contains_of_shape? branching))
    (contains_of_shape? originally)
  rw [isUpright_of_branch originally branching] at count
  have spent {body : Body} (count : original.uprightCount body + (decide (origin = opcode)).toNat =
        original.uprightCount before.body + (original.isUpright body branch).toNat)
      (upright : origin = opcode) (extended : original.isUpright body branch = false)
      (frames : body.frameCount = before.body.frameCount) :
      original.uprightCount body + before.body.frameCount + 1 ≤
          original.uprightCount before.body + body.frameCount ∧
        body.frameCount ≤ before.body.frameCount + 1 := by
    rw [extended, decide_eq_true upright, Bool.toNat_true, Bool.toNat_false] at count
    omega
  cases extends' with
  | @widened body wider widens replaced =>
    have frames : body.frameCount = before.body.frameCount := by
      unfold Body.frameCount
      rw [replaced.rest]
      rfl
    have upright : origin = opcode := by
      rcases state.cases_of_branch branching with ⟨same, _⟩ | ⟨_, _, inverted, _⟩
      · exact same.symm
      · rw [(Opcode.widened?_of_inverted? inverted).1] at widens
        cases widens
    have extended : original.isUpright body branch = false :=
      isUpright_of_wideBranch replaced.shape?_self
    exact spent count upright extended frames
  | @inverted middle body opposite next trampoline narrow inverts framed follows inserted replaced =>
    have frames : body.frameCount = before.body.frameCount := by
      unfold Body.frameCount
      rw [Edit.frames?_of_inserts_replaces inserted replaced]
    have upright := (state.upright branching
      (fun frameless => pending.once frameless branch opcode jump (by simp) origin target originally)
      framed follows).1.symm
    have extended : original.isUpright body branch = false := by
      have shaped : body.shape? branch = some (.branch opposite next) := replaced.shape?_self
      rw [isUpright_of_branch originally shaped, upright]
      exact decide_eq_false (Opcode.widened?_of_inverted? inverts).2.2.1.symm
    exact spent count upright extended frames
  | @island pool middle body context frames entry described site island narrow unframed known framed
      entered found inserted replaced stated =>
    have added := frames?_setFrames ((Edit.frames?_of_inserts_replaces inserted replaced).trans framed)
      (withIslandFrame frames (entry.expand frames) (body.framesBefore island frames)
        (.new island described.toFull))
    have frameCount : Body.frameCount (body.setFrames (withIslandFrame frames (entry.expand frames)
        (body.framesBefore island frames) (.new island described.toFull))) =
          before.body.frameCount + 1 := by
      unfold Body.frameCount
      rw [added, framed, Option.getD_some, Option.getD_some, length_withIslandFrame]
    have shaped : body.shape? branch = some (.branch opcode island) := replaced.shape?_self
    have extended := isUpright_of_branch originally shaped
    constructor
    · rw [frameCount]
      change original.uprightCount body + _ = _ + (original.isUpright body branch).toNat at count
      rw [extended] at count
      show original.uprightCount body + _ + 1 ≤ _
      omega
    · exact Nat.le_of_eq frameCount

/-- All 16-bit branches are branches of the original body, so there are no more of them. -/
theorem Rewired.length_oversized_le (rewired : Rewired original now) (listed : original.Listed) :
    now.oversized.length ≤ original.branchCount := by
  rw [branchCount, uprightCount, List.countP_eq_length_filter, ← List.length_map Prod.fst]
  have distinct := now.oversized_sublist.nodup rewired.listed.distinct
  apply (List.subperm_of_subset distinct _).length_le
  intro handle member
  obtain ⟨⟨branch, opcode, jump⟩, oversized, rfl⟩ := List.mem_map.mp member
  have branching := shape?_of_mem_oversized oversized
  obtain ⟨before, target, originally⟩ := rewired.lengthened.exists_original branching
  rw [List.mem_filter, listed.live]
  exact ⟨contains_of_shape? originally, isUpright_self.mpr ⟨before, target, originally⟩⟩

end Body

namespace Edit

/-- A number of rounds follow each other, and each of them extends a branch. -/
inductive Rounds (before : Logged Edit) : Nat → Logged Edit → Prop
  | none : Rounds before 0 before
  | next {count : Nat} {middle after : Logged Edit} (earlier : Rounds before count middle)
      (extended : round middle = .ok true after) : Rounds before (count + 1) after

/-- There is always another round. -/
def Endless (before : Logged Edit) : Prop := ∀ count, ∃ after, Rounds before count after

/-- The first of several rounds. -/
theorem Rounds.initial {before after : Logged Edit} {count fewer : Nat}
    (rounds : Rounds before count after) (short : fewer ≤ count) :
    ∃ middle, Rounds before fewer middle := by
  induction rounds with
  | none =>
    rw [Nat.le_zero] at short
    exact ⟨before, short ▸ .none⟩
  | @next count middle after earlier extended inductionHypothesis =>
    by_cases last : fewer = count + 1
    · exact ⟨after, last ▸ earlier.next extended⟩
    · exact inductionHypothesis (by omega)

/-- The steps of relaxation are its rounds. -/
theorem Rounds.relaxRounds {before after : Logged Edit} {count : Nat}
    (rounds : Rounds before count after) (steps start : Nat) :
    Edit.relaxRounds (count + steps) start before = Edit.relaxRounds steps (start + count) after := by
  -- The steps left over vary: the last round takes one of them.
  induction rounds generalizing steps with
  | none => rw [Nat.zero_add, Nat.add_zero]
  | @next count middle after _ extended inductionHypothesis =>
    rw [Nat.add_assoc, Nat.add_comm 1 steps, inductionHypothesis, relaxRounds_succ,
      Task.bind_of_eq_ok extended, if_pos rfl, Nat.add_assoc]

/-- Endless relaxation stops at the limit only. -/
theorem Endless.relax {before : Logged Edit} (endless : Endless before) :
    ∃ after, Edit.relax before = .error .endlessRelaxation after := by
  obtain ⟨after, rounds⟩ := endless roundLimit
  refine ⟨after, Task.bind_of_eq_error ?_⟩
  exact rounds.relaxRounds 0 0

/-- Relaxation is endless where every round extends a branch and leads to another such round. -/
theorem endless_of_progress {holds : Logged Edit → Prop}
    (progress : ∀ before, holds before → ∃ after, round before = .ok true after ∧ holds after)
    {start : Logged Edit} (initially : holds start) : Endless start := by
  have reached : ∀ count, ∃ after, Rounds start count after ∧ holds after := by
    intro count
    induction count with
    | zero => exact ⟨start, .none, initially⟩
    | succ count inductionHypothesis =>
      obtain ⟨middle, rounds, kept⟩ := inductionHypothesis
      obtain ⟨after, extended, keptAfter⟩ := progress middle kept
      exact ⟨after, rounds.next extended, keptAfter⟩
  intro count
  obtain ⟨after, rounds, _⟩ := reached count
  exact ⟨after, rounds⟩

/-- Relaxation that is not endless comes to a round that extends nothing or fails. -/
theorem exists_last_of_not_endless {before : Logged Edit} (ends : ¬Endless before) :
    ∃ count after, Rounds before count after ∧ ∀ later, round after ≠ .ok true later := by
  by_contra onward
  push Not at onward
  apply ends
  apply @endless_of_progress (fun middle => ∃ count, Rounds before count middle)
  · intro middle reached
    obtain ⟨count, rounds⟩ := reached
    obtain ⟨after, extended⟩ := onward count middle rounds
    exact ⟨after, extended, count + 1, rounds.next extended⟩
  · exact ⟨0, .none⟩

variable {original : Body}

/-- A round pays for every branch it extends with a branch or an island. -/
theorem rewired_of_round (listed : original.Listed) (wellFormed : original.WellFormed)
    {before after : Logged Edit} (rewired : original.Rewired before.state.body)
    (extended : round before = .ok true after) :
    original.Rewired after.state.body ∧
      original.uprightCount after.state.body + before.state.body.frameCount + 1 ≤
        original.uprightCount before.state.body + after.state.body.frameCount ∧
      after.state.body.frameCount ≤ before.state.body.frameCount + original.branchCount := by
  obtain ⟨laidOut, computed, run, some⟩ := round_eq_ok_iff.mp extended
  have syncs : Syncs before.state laidOut.state := ⟨before.events, laidOut.events, computed⟩
  have synced := syncs.synced rewired.listed
  have nonempty : 0 < laidOut.state.body.oversized.length := by
    rw [List.length_pos_iff]
    intro empty
    rw [empty] at some
    cases some
  have few := (rewired.synced synced).length_oversized_le listed
  have upright := @Body.Synced.uprightCount original _ _ synced
  have frames := synced.frameCount
  -- Each extension turns a branch that was upright or adds a frame, so the sum of both keeps up with
  -- the extensions that are left.
  have counted := forM_extendBranch_induction
    (fun entries edit => original.Pending entries edit.body ∧
      original.uprightCount edit.body + laidOut.state.body.frameCount +
          laidOut.state.body.oversized.length ≤
        original.uprightCount laidOut.state.body + edit.body.frameCount + entries.length ∧
      edit.body.frameCount + entries.length ≤
        laidOut.state.body.frameCount + laidOut.state.body.oversized.length)
    (by
      intro branch opcode jump others before after holds extends'
      obtain ⟨pending, spent, added⟩ := holds
      have step := pending.spends listed extends'
      rw [List.length_cons] at spent added
      exact ⟨pending.extends listed (Body.wellFormed_iff.mp wellFormed) extends', by omega, by omega⟩)
    ⟨rewired.pending synced, by omega, by omega⟩ run
  obtain ⟨pending, spent, added⟩ := counted
  rw [List.length_nil] at spent added
  exact ⟨pending.rewired, by omega, by omega⟩

/-- Rounds are bounded by branches and islands, and islands are bounded by rounds and branches. -/
theorem Rounds.bounds {pool : Pool} {events : Array Event} (listed : original.Listed)
    (wellFormed : original.WellFormed) (live : original.JumpsLive) {count : Nat}
    {after : Logged Edit} (rounds : Rounds ⟨⟨original, pool⟩, events⟩ count after) :
    original.Rewired after.state.body ∧
      original.uprightCount after.state.body + original.frameCount + count ≤
        original.branchCount + after.state.body.frameCount ∧
      after.state.body.frameCount ≤ original.frameCount + count * original.branchCount := by
  induction rounds with
  | none =>
    refine ⟨Body.Rewired.refl listed live, ?_, by simp⟩
    show original.uprightCount original + original.frameCount + 0 ≤
      original.uprightCount original + original.frameCount
    omega
  | next _ extended inductionHypothesis =>
    obtain ⟨rewired, spent, added⟩ := inductionHypothesis
    obtain ⟨rewiredAfter, spentAfter, addedAfter⟩ :=
      rewired_of_round listed wellFormed rewired extended
    refine ⟨rewiredAfter, by omega, ?_⟩
    rw [Nat.add_mul, Nat.one_mul]
    omega

end Edit

end Classfile
