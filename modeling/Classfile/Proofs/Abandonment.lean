import Classfile.Proofs.Evaluation
import Classfile.Proofs.Outcomes

/-!
Branches that cannot be extended.

An extension that fails leaves the code alone in all cases but one. An island is inserted, and its
branch pointed at it, before the frame of the target is looked for, so that a target without a frame
leaves behind an island without one. Where the targets of branches have frames, a branch that cannot
be relaxed is the branch that it was, and relaxing the code again points no branch at an instruction
without a frame.
-/

namespace Classfile

namespace Edit

section Abandons

variable {branch target : Handle} {opcode : Opcode} {error : Error}

/-- Only the branch that could not be extended is blamed. -/
theorem Abandons.branch_eq {before after : Edit} {blamed : Handle}
    (abandons : Abandons branch opcode target before (.unrelaxableBranch blamed) after) :
    blamed = branch := by
  cases abandons with
  | stuck | unknown | confined | unframed => rfl
  | refused _ _ _ refused => cases Interning.blamesPool_entryFrame _ _ _ _ refused

/-- What is abandoned is left alone if its target has a frame. -/
theorem Abandons.body_eq {before after : Edit}
    (abandons : Abandons branch opcode target before error after)
    (framed : before.body.frames? ≠ none → before.body.Framed target) : after.body = before.body := by
  cases abandons with
  | stuck | unknown | refused | confined => rfl
  | unframed _ needed _ _ _ unframed =>
    exact absurd (framed (Body.frames?_of_needsIsland needed)) unframed

end Abandons

end Edit

namespace Body

/-- The 16-bit branches lead to instructions with frames, if there are any frames. -/
def BranchesFramed (body : Body) : Prop :=
  body.frames? ≠ none → ∀ branch opcode target,
    body.shape? branch = some (.branch opcode target) → body.Framed target

section Framed

variable {now later : Body}

/-- Computing the layout adds no frame and takes none away. -/
theorem Synced.framed_iff (synced : Synced now later) (handle : Handle) :
    later.Framed handle ↔ now.Framed handle := by
  rcases synced.frames?_eq with
    ⟨before, after⟩ | ⟨old, new, before, after, arranged, permuted, _, _, rfl⟩
  · rw [Framed, Body.frames, after, Framed, Body.frames, before]
  · have targets := permuted.map Frame.target
    rw [List.map_map] at targets
    rw [Framed, frames_of_frames? after, Framed, frames_of_frames? before, ← List.mem_map,
      targets_settled, ← List.mem_map]
    exact targets.mem_iff

/-- Computing the layout keeps branches at framed targets. -/
theorem BranchesFramed.synced (framed : now.BranchesFramed) (synced : Synced now later) :
    later.BranchesFramed := by
  intro some branch opcode target shaped
  rw [synced.shape?] at shaped
  refine (synced.framed_iff target).mpr (framed (fun none => some ?_) branch opcode target shaped)
  rw [frames?_of_attributes (synced.unframed none), none]

/-- Only the branch that is extended can come to lead elsewhere. -/
theorem BranchesFramed.grows {branch : Handle} (framed : now.BranchesFramed)
    (grows : Grows branch now later) (kept : ∀ handle, now.Framed handle → later.Framed handle)
    (here : later.frames? ≠ none → ∀ opcode target,
      later.shape? branch = some (.branch opcode target) → later.Framed target) :
    later.BranchesFramed := by
  intro some other opcode target shaped
  by_cases same : other = branch
  · exact here some opcode target (same ▸ shaped)
  · have present : now.contains other = true := by
      by_contra absent
      obtain ⟨_, onward, added⟩ := grows.added other (contains_of_shape? shaped)
        (Bool.eq_false_of_not_eq_true absent)
      rw [shaped] at added
      cases added
    obtain ⟨frames, known⟩ := Option.ne_none_iff_exists'.mp some
    obtain ⟨old, before, _⟩ := grows.framed frames known
    rw [grows.shape? other same present] at shaped
    exact kept target (framed (by simp [before]) other opcode target shaped)

end Framed

end Body

namespace Edit

section Rounds

variable {branch : Handle} {opcode : Opcode} {jump : Jump} {others : List (Handle × Opcode × Jump)}

/-- An extension leads its branch to an instruction with a frame. -/
theorem Extends.branchesFramed {target current : Handle} {before after : Edit}
    (extends' : Extends branch opcode target before after) (listed : before.body.Listed)
    (branching : before.body.shape? branch = some (.branch opcode current))
    (framed : before.body.BranchesFramed) : after.body.BranchesFramed := by
  have grows := extends'.grows listed (Body.contains_of_shape? branching)
  cases extends' with
  | @widened body wider _ replaced =>
    have same : body.frames = before.body.frames := by
      rw [replaced.rest]
      rfl
    refine framed.grows grows (fun handle held => ?_) fun _ opcode target shaped => ?_
    · rwa [Body.Framed, same]
    · rw [replaced.shape?_self] at shaped
      cases shaped
  | @inverted middle body opposite next _ _ _ straight follows inserted replaced =>
    have same := frames?_of_inserts_replaces inserted replaced
    refine framed.grows grows (fun handle held => ?_) fun some opcode target shaped => ?_
    · rwa [Body.Framed, Body.frames, same]
    · obtain ⟨frames, known⟩ := Option.ne_none_iff_exists'.mp some
      rw [replaced.shape?_self, Option.some.injEq] at shaped
      cases shaped
      rw [Body.Framed, Body.frames_of_frames? known]
      exact Body.frames_at_next straight follows (same.symm.trans known)
  | @island pool middle body _ frames entry state site island _ _ _ known _ _ inserted replaced _ =>
    have targets (handle : Handle) : (body.setFrames (Body.withIslandFrame frames
        (entry.expand frames) (body.framesBefore island frames) (.new island state.toFull))).Framed
          handle ↔ handle = island ∨ before.body.Framed handle := by
      rw [Body.Framed, Body.frames_of_frames? (Body.frames?_setFrames
          ((frames?_of_inserts_replaces inserted replaced).trans known) _), Body.Framed,
        Body.frames_of_frames? known, ← List.mem_map, Body.map_target_withIslandFrame,
        List.mem_append, List.mem_cons, or_left_comm, ← List.mem_append, ← List.map_append,
        List.take_append_drop, List.mem_map]
      rfl
    refine framed.grows grows (fun handle held => (targets handle).mpr (.inr held))
      fun _ opcode target shaped => ?_
    have here : body.shape? branch = some (.branch opcode target) := shaped
    rw [replaced.shape?_self, Option.some.injEq] at here
    cases here
    exact (targets island).mpr (.inl rfl)

/-- Branches that wait for their extension still are what they were. -/
structure Awaits (entries : List (Handle × Opcode × Jump)) (now : Body) : Prop where
  listed : now.Listed
  distinct : (entries.map Prod.fst).Nodup
  shaped : ∀ branch opcode jump, (branch, opcode, jump) ∈ entries →
    now.shape? branch = some (.branch opcode jump.target)

/-- The oversized branches of a body all await their extension. -/
theorem awaits_oversized {body : Body} (listed : body.Listed) : Awaits body.oversized body :=
  ⟨listed, body.oversized_sublist.nodup listed.distinct, fun _ _ _ => Body.shape?_of_mem_oversized⟩

/-- Once a branch is extended, the others still await their extension. -/
theorem Awaits.extends {before after : Edit}
    (awaits : Awaits ((branch, opcode, jump) :: others) before.body)
    (extends' : Extends branch opcode jump.target before after) : Awaits others after.body := by
  have branching := awaits.shaped branch opcode jump (by simp)
  have grows := extends'.grows awaits.listed (Body.contains_of_shape? branching)
  have distinct := awaits.distinct
  rw [List.map_cons, List.nodup_cons] at distinct
  refine ⟨grows.listed, distinct.2, fun other opcode' jump' member => ?_⟩
  have shaped := awaits.shaped other opcode' jump' (by simp [member])
  have apart : other ≠ branch := by
    rintro rfl
    exact distinct.1 (List.mem_map.mpr ⟨_, member, rfl⟩)
  rw [grows.shape? other apart (Body.contains_of_shape? shaped), shaped]

/-- What is left of an intact body in the middle of a round: it is intact, some branches wait, and
branches lead to frames if they did. -/
structure MidRound (original : Body) (entries : List (Handle × Opcode × Jump)) (edit : Edit) :
    Prop where
  intact : edit.body.Intact
  awaits : Awaits entries edit.body
  framed : original.BranchesFramed → edit.body.BranchesFramed

/-- The step: a branch is extended or abandoned. -/
theorem MidRound.ends_extendBranch {original : Body} {edit : Edit}
    (midRound : MidRound original ((branch, opcode, jump) :: others) edit) (events : Array Event) :
    Task.Ends (fun _ after => MidRound original others after)
      (fun error after => Abandons branch opcode jump.target edit error after)
      (extendBranch branch opcode jump ⟨edit, events⟩) := by
  have branching := midRound.awaits.shaped branch opcode jump (by simp)
  have present := Body.contains_of_shape? branching
  have upholds := @upholds_extendBranch edit branch opcode jump midRound.intact present
    (midRound.intact.contains_target branching) events
  cases ran : extendBranch branch opcode jump ⟨edit, events⟩ with
  | ok value after =>
    rw [ran] at upholds
    have extends' := extends_of_extendBranch ran
    exact ⟨upholds.intact, midRound.awaits.extends extends', fun before =>
      extends'.branchesFramed midRound.awaits.listed branching (midRound.framed before)⟩
  | error error after => exact abandons_of_extendBranch midRound.intact present ran

/-- The run: some branches were extended before one is abandoned. -/
theorem exists_abandons {original : Body} {entries : List (Handle × Opcode × Jump)}
    {before after : Logged Edit} {error : Error} (midRound : MidRound original entries before.state)
    (ran : (entries.forM fun (branch, opcode, jump) => extendBranch branch opcode jump) before =
      .error error after) :
    ∃ front branch opcode jump rest middle, entries = front ++ (branch, opcode, jump) :: rest ∧
      (front.forM fun (branch, opcode, jump) => extendBranch branch opcode jump) before =
        .ok () middle ∧
      MidRound original ((branch, opcode, jump) :: rest) middle.state ∧
      Abandons branch opcode jump.target middle.state error after.state := by
  induction entries generalizing before with
  | nil => cases ran
  | cons entry others inductionHypothesis =>
    obtain ⟨branch, opcode, jump⟩ := entry
    have ends := midRound.ends_extendBranch before.events
    change (extendBranch branch opcode jump >>= fun _ =>
      others.forM fun (branch, opcode, jump) => extendBranch branch opcode jump) before = _ at ran
    cases first : extendBranch branch opcode jump before with
    | error cause left =>
      rw [Task.bind_of_eq_error first] at ran
      rw [first] at ends
      cases ran
      exact ⟨[], branch, opcode, jump, others, before, rfl, Task.forM_nil, midRound, ends⟩
    | ok value left =>
      rw [Task.bind_of_eq_ok first] at ran
      rw [first] at ends
      obtain ⟨front, branch', opcode', jump', rest, middle, split, continued, final, abandons⟩ :=
        inductionHypothesis ends ran
      exact ⟨(branch, opcode, jump) :: front, branch', opcode', jump', rest, middle, by rw [split]; rfl,
        Task.forM_cons_eq_ok_iff.mpr ⟨left, first, continued⟩, final, abandons⟩

/-- Relaxation leads branches to instructions with frames only, if they led there before. -/
theorem branchesFramed_of_relax {before after : Logged Edit} (listed : before.state.body.Listed)
    (framed : before.state.body.BranchesFramed) (ran : relax before = .ok () after) :
    after.state.body.BranchesFramed := by
  obtain ⟨rounds, middle, run, same, _⟩ := rounds_of_relax ran
  obtain ⟨last, ⟨rested, reached⟩, syncs, _⟩ := relaxRounds_induction
    (fun edit => edit.body.Listed ∧ edit.body.BranchesFramed)
    (fun entries edit => Awaits entries edit.body ∧ edit.body.BranchesFramed)
    (fun before after resting syncs => by
      have synced := syncs.synced resting.1
      exact ⟨awaits_oversized (synced.listed resting.1), resting.2.synced synced⟩)
    (fun branch opcode jump others before after pending extends' => by
      refine ⟨pending.1.extends extends', ?_⟩
      exact extends'.branchesFramed pending.1.listed
        (pending.1.shaped branch opcode jump List.mem_cons_self) pending.2)
    (fun edit pending => ⟨pending.1.listed, pending.2⟩)
    ⟨listed, framed⟩ run
  rw [← same]
  exact reached.synced (syncs.synced rested)

/-- A branch that cannot be relaxed is an oversized one, and the branches before it are extended. It is
left alone, or it is pointed at an island for which no frame is found. Where branches lead to frames it
is left alone, and relaxing the code again leads no branch to an instruction without a frame. -/
theorem left_alone_of_unrelaxable {body : Body} (intact : body.Intact) {pool : Pool}
    {events : Array Event} {branch : Handle} {after : Logged Edit}
    (failed : extendOversized ⟨⟨body, pool⟩, events⟩ = .error (.unrelaxableBranch branch) after) :
    ∃ front opcode jump rest middle, body.oversized = front ++ (branch, opcode, jump) :: rest ∧
      (front.forM fun (branch, opcode, jump) => extendBranch branch opcode jump)
        ⟨⟨body, pool⟩, events⟩ = .ok () middle ∧
      middle.state.body.shape? branch = body.shape? branch ∧
      Abandons branch opcode jump.target middle.state (.unrelaxableBranch branch) after.state ∧
      (body.BranchesFramed → after.state.body = middle.state.body ∧
        ∀ relaxed, relax after = .ok () relaxed → relaxed.state.body.BranchesFramed) := by
  rw [extendOversized, Task.bind_of_eq_ok (run_body! ⟨body, pool⟩ events)] at failed
  have midRound : MidRound body body.oversized ⟨body, pool⟩ :=
    ⟨intact, awaits_oversized intact.listed, id⟩
  cases ran : (body.oversized.forM fun (branch, opcode, jump) => extendBranch branch opcode jump)
      ⟨⟨body, pool⟩, events⟩ with
  | ok value middle =>
    rw [Task.bind_of_eq_ok ran] at failed
    cases failed
  | error error left =>
    rw [Task.bind_of_eq_error ran] at failed
    cases failed
    -- The branches before the one that failed were extended without touching it.
    obtain ⟨front, blamed, opcode, jump, rest, middle, split, extended, final, abandons⟩ :=
      exists_abandons midRound ran
    obtain rfl := abandons.branch_eq
    have shaped := final.awaits.shaped branch opcode jump List.mem_cons_self
    have member : (branch, opcode, jump) ∈ body.oversized := by simp [split]
    refine ⟨front, opcode, jump, rest, middle, split, extended, ?_, abandons, fun framed => ?_⟩
    · rw [shaped, Body.shape?_of_mem_oversized member]
    · have same := abandons.body_eq fun some => final.framed framed some branch opcode _ shaped
      refine ⟨same, fun relaxed again => branchesFramed_of_relax ?_ ?_ again⟩
      · rw [same]
        exact final.intact.listed
      · rw [same]
        exact final.framed framed

end Rounds

end Edit

/-- A conditional branch, the instruction after it and a table switch so wide that a frame at its only
target does not help the branch: there is no transfer in between to put an island after. -/
def Body.corneredBranch : Body where
  nameIndex := 1
  maxStack := 1
  maxLocals := 1
  slots := #[some ⟨.branch .ifeq ⟨⟨3⟩, 32780⟩, 0⟩, some ⟨.simple .nop, 3⟩,
    some ⟨.tableSwitch 3 ⟨⟨3⟩, 32776⟩ 0 (List.replicate 8190 ⟨⟨3⟩, 32776⟩), 4⟩,
    some ⟨.simple .returnVoid, 32780⟩]
  order := #[⟨0⟩, ⟨1⟩, ⟨2⟩, ⟨3⟩]
  codeLength := 32781
  ranges := []
  attributes := [⟨1, .frames [⟨⟨3⟩, 32780, .sameExtended⟩]⟩]
  context := some ⟨1, "()V", true, false⟩

namespace Edit

set_option maxRecDepth 20000 in
theorem left_alone_of_unrelaxable_cornered :
    Body.corneredBranch.Intact ∧ Body.corneredBranch.BranchesFramed ∧
      ∃ after, extendOversized ⟨⟨Body.corneredBranch, Pool.empty⟩, #[]⟩ =
        .error (.unrelaxableBranch ⟨0⟩) after ∧ after.state.body = Body.corneredBranch ∧
        ∀ relaxed, relax after = .ok () relaxed → relaxed.state.body.BranchesFramed := by
  have fails : (match extendOversized ⟨⟨Body.corneredBranch, Pool.empty⟩, #[]⟩ with
      | .ok _ _ => false
      | .error error _ => decide (error = .unrelaxableBranch ⟨0⟩)) = true := by
    decide +kernel
  have intact : Body.corneredBranch.Intact := ⟨by decide, by decide +kernel⟩
  have first : Body.corneredBranch.shape? ⟨0⟩ = some (.branch .ifeq ⟨3⟩) := rfl
  have framed : Body.corneredBranch.BranchesFramed := by
    intro _ branch opcode target shaped
    have listed : branch ∈ [(⟨0⟩ : Handle), ⟨1⟩, ⟨2⟩, ⟨3⟩] :=
      (intact.listed.live branch).mpr (Body.contains_of_shape? shaped)
    simp only [List.mem_cons, List.not_mem_nil, or_false] at listed
    rcases listed with rfl | rfl | rfl | rfl
    · rw [first] at shaped
      cases shaped
      decide
    · cases shaped
    · cases shaped
    · cases shaped
  have single : Body.corneredBranch.oversized = [(⟨0⟩, .ifeq, ⟨⟨3⟩, 32780⟩)] := by decide +kernel
  split at fails
  · cases fails
  · rename_i error after failed
    rw [of_decide_eq_true fails] at failed
    obtain ⟨front, _, _, _, middle, split, extended, _, _, alone⟩ :=
      left_alone_of_unrelaxable intact failed
    obtain ⟨same, again⟩ := alone framed
    rw [single] at split
    obtain rfl : front = [] := by
      cases front with
      | nil => rfl
      | cons first rest => simp at split
    cases extended
    exact ⟨intact, framed, after, failed, same, again⟩

end Edit

/-- A conditional branch for which there is a site, behind a `goto`, and whose target has no frame. -/
def Body.unframedTarget : Body where
  nameIndex := 1
  maxStack := 1
  maxLocals := 1
  slots := #[some ⟨.branch .ifeq (.to ⟨3⟩), 0⟩, some ⟨.branch .goto (.to ⟨2⟩), 0⟩,
    some ⟨.tableSwitch 0 (.to ⟨3⟩) 0 (List.replicate 8190 (.to ⟨3⟩)), 0⟩, some ⟨.simple .returnVoid, 0⟩]
  order := #[⟨0⟩, ⟨1⟩, ⟨2⟩, ⟨3⟩]
  codeLength := 0
  ranges := []
  attributes := [⟨1, .frames [.new ⟨2⟩ .same]⟩]
  context := some ⟨1, "()V", true, false⟩

namespace Edit

set_option maxRecDepth 20000 in
/-- A branch that cannot be relaxed is not always left alone: this one is turned to an island without a
frame, and relaxing the code again succeeds with that. -/
theorem exists_unrelaxable_turned :
    ∃ (laidOut : Logged Body) (after relaxed : Logged Edit),
      Body.sync ⟨Body.unframedTarget, #[]⟩ = .ok () laidOut ∧ laidOut.state.Intact ∧
      laidOut.state.shape? ⟨0⟩ = some (.branch .ifeq ⟨3⟩) ∧ laidOut.state.contains ⟨4⟩ = false ∧
      extendOversized ⟨⟨laidOut.state, Pool.empty⟩, #[]⟩ = .error (.unrelaxableBranch ⟨0⟩) after ∧
      after.state.body.shape? ⟨0⟩ = some (.branch .ifeq ⟨4⟩) ∧
      relax after = .ok () relaxed ∧
      relaxed.state.body.shape? ⟨0⟩ = some (.branch .ifeq ⟨4⟩) ∧
      relaxed.state.body.shape? ⟨4⟩ = some (.wideBranch .gotoW ⟨3⟩) ∧
      relaxed.state.body.frames?.isSome ∧ ¬relaxed.state.body.Framed ⟨4⟩ := by
  have runs : (match Body.layOut ⟨Body.unframedTarget, #[]⟩ with
      | .error _ _ => false
      | .ok _ laidOut =>
        match extendOversized ⟨⟨laidOut.state, Pool.empty⟩, #[]⟩ with
        | .ok _ _ => false
        | .error error after => decide (laidOut.state.shape? ⟨0⟩ = some (.branch .ifeq ⟨3⟩) ∧
            laidOut.state.contains ⟨4⟩ = false ∧ error = .unrelaxableBranch ⟨0⟩ ∧
            after.state.body.shape? ⟨0⟩ = some (.branch .ifeq ⟨4⟩) ∧
            relaxesWithin 1 (fun edit => edit.body.shape? ⟨0⟩ = some (.branch .ifeq ⟨4⟩) ∧
              edit.body.shape? ⟨4⟩ = some (.wideBranch .gotoW ⟨3⟩) ∧
              edit.body.frames?.isSome ∧ ¬edit.body.Framed ⟨4⟩) after = true)) = true := by
    decide +kernel
  have intact : Body.unframedTarget.Intact := ⟨by decide, by decide +kernel⟩
  have settles := intact.settles_of_sync #[]
  rw [← Body.sync_eq_layOut] at runs
  split at runs
  · cases runs
  · rename_i laidOut computed
    rw [computed] at settles
    split at runs
    · cases runs
    · rename_i error after failed
      obtain ⟨shaped, fresh, same, turned, relaxes⟩ := of_decide_eq_true runs
      rw [same] at failed
      obtain ⟨relaxed, again, kept, onward, framed, unframed⟩ := exists_relax (by decide) relaxes
      exact ⟨laidOut, after, relaxed, computed, settles.intact, shaped, fresh, failed, turned, again,
        kept, onward, framed, unframed⟩

end Edit

end Classfile
