import Classfile.Proofs.PoolHistory
import Classfile.Proofs.SyncedLayout

/-!
Relaxation ends in a fixed point.

The last thing a successful relaxation does to a body is to compute its layout, after which no branch
is oversized. Relaxing again computes the same layout and finds nothing to extend. The pool only ever
gets new entries at its end, whether relaxation succeeds or fails.
-/

namespace Classfile

namespace Interning

variable {A B : Type}

theorem enlarges_pure (value : A) : Interning.Enlarges (pure value) := by
  intro pool
  exact .refl pool

/-- A task that enlarges a pool does so for all items of a list. -/
theorem enlarges_mapM {act : A → Interning B} (items : List A)
    (each : ∀ item, (act item).Enlarges) : Interning.Enlarges (items.mapM act) := by
  induction items with
  | nil => exact enlarges_pure []
  | cons item items inductionHypothesis =>
    rw [List.mapM_cons]
    apply (each item).bind
    intro value
    apply inductionHypothesis.bind
    intro others
    exact enlarges_pure _

/-- The verification type of a field takes what it needs into the pool. -/
theorem enlarges_ofFieldType (type : FieldType) : (VerificationType.ofFieldType type).Enlarges := by
  cases type with
  | base letter => cases letter <;> exact enlarges_pure _
  | object name => exact (enlarges_internClass name).bind fun _ => enlarges_pure _
  | array element => exact (enlarges_internClass _).bind fun _ => enlarges_pure _

/-- The types of parameters may be new to the pool, and no entry is lost if one of them is refused. -/
theorem enlarges_entryFrame (context : MethodContext) : context.entryFrame.Enlarges := by
  unfold MethodContext.entryFrame
  split
  · intro pool
    exact .refl pool
  · exact (enlarges_mapM _ enlarges_ofFieldType).bind fun _ => enlarges_pure _

end Interning

namespace Edit

variable {A B : Type}

/-- However a task ends, the pool it leaves is the one it found with new entries at its end. -/
def Appends (task : Task Edit A) : Prop :=
  ∀ before, Task.Ends (fun _ after => Pool.Enlarges before.state.pool after.pool)
    (fun _ after => Pool.Enlarges before.state.pool after.pool) (task before)

/-- A task that appends to the pool leaves an enlarged one. -/
theorem Appends.enlarged {task : Task Edit A} (appends : Appends task) {before after : Logged Edit}
    {value : A} (ran : task before = .ok value after) :
    before.state.pool.Enlarges after.state.pool := by
  have ends := appends before
  rw [ran] at ends
  exact ends

/-- Two tasks that append to the pool do so one after the other. -/
theorem Appends.bind {task : Task Edit A} {next : A → Task Edit B} (first : Appends task)
    (continued : ∀ value, Appends (next value)) : Appends (task >>= next) := by
  intro before
  apply Task.Ends.bind (first before)
  intro value middle earlier
  apply Task.Ends.imp (continued value middle)
  · intro _ _ later
    exact earlier.trans later
  · intro _ _ later
    exact earlier.trans later

theorem appends_pure (value : A) : Appends (pure value) := by
  intro before
  exact .refl before.state.pool

theorem appends_throw (error : Error) : Appends (throw error : Task Edit A) := by
  intro before
  exact .refl before.state.pool

theorem appends_body! : Appends body! := by
  intro before
  exact .refl before.state.pool

theorem appends_report (event : Event) : Appends (Task.report event) := by
  intro before
  exact .refl before.state.pool

theorem appends_ofExcept (outcome : Except Error A) :
    Appends (Task.ofExcept outcome : Task Edit A) := by
  intro before
  cases outcome with
  | ok value => exact .refl before.state.pool
  | error error => exact .refl before.state.pool

/-- A task on the body leaves the pool alone. -/
theorem appends_onBody (task : Task Body A) : Appends (onBody task) := by
  intro before
  unfold onBody Task.focus
  cases task ⟨before.state.body, before.events⟩ with
  | ok value after => exact .refl before.state.pool
  | error error after => exact .refl before.state.pool

/-- Interning appends to the pool. -/
theorem appends_onPool {interning : Interning A} (enlarges : interning.Enlarges) :
    Appends (onPool interning) := by
  intro before
  have left := enlarges before.state.pool
  unfold Interning.leaves at left
  unfold onPool Task.focus Task.silent
  cases ran : interning before.state.pool with
  | ok value pool =>
    rw [ran] at left
    exact left
  | error error pool =>
    rw [ran] at left
    exact left

theorem appends_change (result : Body → Except Error (A × Body)) : Appends (change result) := by
  intro before
  have read : (Task.read : Task Edit Edit) before = .ok before.state before := rfl
  rw [change, Task.bind_of_eq_ok read]
  cases result before.state.body with
  | ok pair => exact .refl before.state.pool
  | error error => exact .refl before.state.pool

theorem appends_replace (result : Body → Except Error Body) : Appends (replace result) :=
  appends_change _

/-- A task that appends to the pool does so for all items of a list. -/
theorem appends_forM {act : A → Task Edit Unit} (items : List A) (each : ∀ item, Appends (act item)) :
    Appends (items.forM act) := by
  induction items with
  | nil => exact appends_pure ()
  | cons item items inductionHypothesis => exact (each item).bind fun _ => inductionHypothesis

theorem appends_branchOverTrampoline (branch : Handle) (opcode : Opcode) (target : Handle) :
    Appends (branchOverTrampoline branch opcode target) := by
  apply appends_body!.bind
  intro body
  apply (appends_ofExcept _).bind
  intro next
  split
  · apply (appends_change _).bind
    intro island
    exact (appends_replace _).bind fun _ => appends_report _
  · exact appends_throw _

theorem appends_frameIsland (branch target island : Handle) (states : List FrameState) :
    Appends (frameIsland branch target island states) := by
  apply appends_body!.bind
  intro body
  split
  · exact appends_throw _
  · split
    · exact appends_throw _
    · exact appends_replace _

/-- A branch to an island appends what the state on entry needs. -/
theorem appends_branchToIsland (branch : Handle) (opcode : Opcode) (target : Handle) :
    Appends (branchToIsland branch opcode target) := by
  apply appends_body!.bind
  intro body
  split
  · rename_i context frames _ _
    apply (appends_onPool (Interning.enlarges_entryFrame context)).bind
    intro entry
    apply (appends_ofExcept _).bind
    intro site?
    split
    · exact appends_throw _
    · apply (appends_change _).bind
      intro island
      apply (appends_replace _).bind
      intro _
      exact (appends_frameIsland _ _ _ _).bind fun _ => appends_report _
  · exact appends_throw _

/-- Extending a branch appends to the pool. -/
theorem appends_extendBranch (branch : Handle) (opcode : Opcode) (jump : Jump) :
    Appends (extendBranch branch opcode jump) := by
  apply appends_body!.bind
  intro body
  apply (appends_ofExcept _).bind
  intro bci
  apply (appends_report _).bind
  intro _
  split
  · exact appends_replace _
  · apply (appends_ofExcept _).bind
    intro needed
    split
    · exact appends_branchToIsland _ _ _
    · exact appends_branchOverTrampoline _ _ _

theorem appends_extendOversized : Appends extendOversized := by
  apply appends_body!.bind
  intro body
  apply (appends_forM _ fun entry => appends_extendBranch _ _ _).bind
  intro _
  exact appends_pure _

/-- Rounds follow each other until nothing is extended, and each of them may fail. -/
theorem appends_relaxRounds (steps rounds : Nat) : Appends (relaxRounds steps rounds) := by
  induction steps generalizing rounds with
  | zero => exact appends_throw _
  | succ steps inductionHypothesis =>
    apply (appends_onBody _).bind
    intro _
    apply appends_extendOversized.bind
    intro changed
    split
    · exact inductionHypothesis (rounds + 1)
    · exact appends_pure _

/-- Relaxation appends to the pool. -/
theorem appends_relax : Appends relax := by
  intro before
  exact ends_relax (appends_relaxRounds roundLimit 0 before) (fun _ enlarged _ => enlarged)
    fun _ enlarged _ => enlarged

end Edit

namespace Body

/-- Every 16-bit branch has an offset that 16 bits can hold. -/
def BranchesNear (body : Body) : Prop :=
  ∀ handle slot opcode jump, body.slot? handle = some slot →
    slot.instruction = .branch opcode jump → -32768 ≤ jump.offset ∧ jump.offset ≤ 32767

/-- No branch is oversized if all offsets are near. -/
theorem Listed.oversized_eq_nil_iff {body : Body} (listed : body.Listed) :
    body.oversized = [] ↔ body.BranchesNear := by
  have range (offset : Int) : isNear offset = true ↔ -32768 ≤ offset ∧ offset ≤ 32767 := by
    unfold isNear
    simp only [decide_eq_true_eq]
    omega
  constructor
  · intro empty handle slot opcode jump found branches
    rw [← range]
    by_contra far
    have member : (handle, opcode, jump) ∈ body.oversized := by
      apply mem_oversized_iff.mpr
      exact ⟨(listed.live handle).mpr (contains_iff.mpr ⟨slot, found⟩), by simpa using far, slot, found,
        branches⟩
    rw [empty] at member
    cases member
  · intro near
    apply List.eq_nil_iff_forall_not_mem.mpr
    intro entry member
    obtain ⟨handle, opcode, jump⟩ := entry
    obtain ⟨_, far, slot, found, branches⟩ := mem_oversized_iff.mp member
    rw [(range jump.offset).mpr (near handle slot opcode jump found branches)] at far
    cases far

/-- What relaxation is done for: the code is short enough, branches reach their targets, and compact
frames can hold their deltas. -/
structure AtRest (body : Body) : Prop where
  length : body.codeLength ≤ 65535
  near : body.BranchesNear
  measured : ∀ handle slot opcode jump, body.slot? handle = some slot →
    slot.instruction = .branch opcode jump →
      ∃ target, body.slot? jump.target = some target ∧ jump.offset = (target.bci : Int) - slot.bci
  compact : ∀ frame ∈ body.frames, frame.kind.isCompact = true → frame.delta ≤ 63

/-- Once the layout is computed, compact frames have deltas of 63 at most. -/
theorem Synced.compact {before after : Body} (synced : Synced before after) :
    ∀ frame ∈ after.frames, frame.kind.isCompact = true → frame.delta ≤ 63 := by
  intro frame present
  rw [← FrameKind.fits_iff]
  rcases synced.frames?_eq with ⟨_, unknown⟩ | ⟨old, new, _, known, settled⟩
  · rw [frames, unknown] at present
    cases present
  · rw [frames_of_frames? known] at present
    obtain ⟨arranged, _, _, _, rfl⟩ := settled
    exact Frame.fits_settled frame present

/-- A computed layout with all branches in reach is what relaxation leaves alone. -/
theorem Synced.atRest {before after : Body} (synced : Synced before after) (listed : after.Listed)
    (reached : after.oversized = []) (short : after.codeLength ≤ maxCodeLength) : after.AtRest := by
  constructor
  · exact short
  · exact listed.oversized_eq_nil_iff.mp reached
  · intro handle slot opcode jump found branches
    apply synced.measured handle slot found jump
    rw [branches]
    exact List.mem_singleton.mpr rfl
  · exact synced.compact

end Body

namespace Edit

/-- The state that relaxation returns is one that the layout was just computed for. -/
theorem synced_of_relax {before after : Logged Edit} (listed : before.state.body.Listed)
    (ran : relax before = .ok () after) :
    ∃ last, Body.Synced last after.state.body ∧ after.state.body.Listed ∧
      after.state.body.oversized = [] ∧ after.state.body.codeLength ≤ maxCodeLength := by
  obtain ⟨rounds, middle, run, same, short⟩ := rounds_of_relax ran
  obtain ⟨last, rested, syncs, reached⟩ := relaxRounds_induction
    (fun edit => edit.body.Listed)
    (fun entries edit => edit.body.Listed ∧ ∀ entry ∈ entries, edit.body.contains entry.1 = true)
    (fun before after rested syncs => by
      have laid := (syncs.synced rested).listed rested
      refine ⟨laid, ?_⟩
      intro entry member
      obtain ⟨branch, opcode, jump⟩ := entry
      exact (laid.live branch).mp (Body.mem_oversized_iff.mp member).1)
    (fun branch opcode jump others before after pending extends' => by
      have grows := extends'.grows pending.1 (pending.2 (branch, opcode, jump) (by simp))
      refine ⟨grows.listed, ?_⟩
      intro entry member
      exact grows.kept entry.1 (pending.2 entry (by simp [member])))
    (fun edit pending => pending.1)
    listed run
  rw [same] at syncs reached
  have synced := syncs.synced rested
  exact ⟨last.body, synced, synced.listed rested, reached, short⟩

/-- What a relaxed body satisfies, and that relaxing it again changes neither body nor pool and
reports nothing. -/
theorem rests_of_relax {before after : Logged Edit} (listed : before.state.body.Listed)
    (ran : relax before = .ok () after) :
    after.state.body.AtRest ∧ ∀ events, relax ⟨after.state, events⟩ = .ok () ⟨after.state, events⟩ := by
  obtain ⟨last, synced, laid, reached, short⟩ := synced_of_relax listed ran
  refine ⟨synced.atRest laid reached short, ?_⟩
  intro events
  rw [relax_of_settled after.state.pool (synced.sync_again events) reached,
    if_neg (Nat.not_lt.mpr short)]

/-- Relaxation ends in a fixed point, does nothing to code that is in reach once its layout is
computed, and only appends to the pool. -/
theorem relax_reaches_fixedPoint {body : Body} (listed : body.Listed) (pool : Pool)
    (events : Array Event) :
    (∀ after, relax ⟨⟨body, pool⟩, events⟩ = .ok () after →
      after.state.body.AtRest ∧
        ∀ later, relax ⟨after.state, later⟩ = .ok () ⟨after.state, later⟩) ∧
    (∀ placed reported, Body.sync ⟨body, events⟩ = .ok () ⟨placed, reported⟩ → placed.BranchesNear →
      relax ⟨⟨body, pool⟩, events⟩ =
        if 65535 < placed.codeLength then
          .error (.codeTooLong placed.codeLength) ⟨⟨placed, pool⟩, reported⟩
        else .ok () ⟨⟨placed, pool⟩, reported⟩) ∧
    Task.Ends
      (fun _ after => Pool.Enlarges pool after.pool ∧
        pool.table.entries.toList <+: after.pool.table.entries.toList)
      (fun _ after => Pool.Enlarges pool after.pool ∧
        pool.table.entries.toList <+: after.pool.table.entries.toList)
      (relax ⟨⟨body, pool⟩, events⟩) := by
  refine ⟨?_, ?_, ?_⟩
  · intro after ran
    exact rests_of_relax listed ran
  · intro placed reported computed near
    have synced : Body.Synced body placed := listed.synced_of_sync computed
    exact relax_of_settled pool computed ((synced.listed listed).oversized_eq_nil_iff.mpr near)
  · apply Task.Ends.imp (appends_relax ⟨⟨body, pool⟩, events⟩)
    · intro _ after enlarged
      exact ⟨enlarged, enlarged.entries⟩
    · intro _ after enlarged
      exact ⟨enlarged, enlarged.entries⟩

set_option maxRecDepth 20000 in
theorem relax_reaches_fixedPoint_farFramedBranch :
    ∃ after, relax ⟨⟨Body.farFramedBranch, Pool.empty⟩, #[]⟩ = .ok () after ∧
      after.state.body.size = 5 ∧ after.state.body.AtRest ∧
      ∀ later, relax ⟨after.state, later⟩ = .ok () ⟨after.state, later⟩ := by
  have runs : relaxesWithin 2 (fun edit => edit.body.size = 5)
      ⟨⟨Body.farFramedBranch, Pool.empty⟩, #[]⟩ = true := by
    decide +kernel
  obtain ⟨after, ran, size⟩ := exists_relax (by decide) runs
  have rests := @relax_reaches_fixedPoint Body.farFramedBranch (by decide) Pool.empty #[]
  exact ⟨after, ran, size, rests.1 after ran⟩

end Edit

end Classfile
