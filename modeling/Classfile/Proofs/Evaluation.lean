import Classfile.Proofs.Extension

/-!
Relaxation of given bodies, evaluated.

The layout is computed by mapping an array and sorting a list, neither of which evaluates in a proof,
and relaxation counts down from a limit that is far off. `Body.layOut` maps a list and sorts frames
that are out of order only, and `Edit.relaxesWithin` stops after a few rounds. Both give the answers
of what they stand for.
-/

namespace Classfile

namespace Body

/-- The offsets of all jumps are computed along the list of slots. -/
def measureJumps (body : Body) : Except Error Body := do
  let slots ← body.slots.toList.mapM fun slot =>
    match slot with
    | none => return none
    | some slot => do
      let instruction ← slot.instruction.mapLabelsM fun jump => do
        return { jump with offset := jumpOffset slot.bci (← body.targetBci jump.target) }
      return some { slot with instruction := instruction }
  return { body with slots := slots.toArray }

/-- The layout is computed without sorting frames that are in order. -/
def layOut : Task Body Unit := do
  let body ← Task.ofExcept (← Task.read).place.measureJumps
  match body.frames? with
  | none => Task.write body
  | some frames =>
    let placed ← Task.ofExcept (body.placeFrames frames)
    let settlement := Frame.settleOnto [] [] none
      (if placed.Pairwise (fun left right => left.1 ≤ right.1) then placed
        else placed.mergeSort fun left right => left.1 ≤ right.1)
    Task.write (body.setFrames settlement.frames)
    settlement.promotions.forM Task.report
    match settlement.conflict with
    | some handle => throw (.conflictingFrames handle)
    | none => return

/-- Jumps are resolved along the list as they are along the array. -/
theorem resolveJumps_eq_measureJumps : resolveJumps = measureJumps := by
  funext body
  rw [resolveJumps, Array.mapM_eq_mapM_toList]
  exact bind_map_left _ _ _

/-- The layout computed along lists is the layout. -/
theorem sync_eq_layOut : Body.sync = Body.layOut := by
  have settled : Frame.settle = fun placed => Frame.settleOnto [] [] none
      (if placed.Pairwise (fun left right => left.1 ≤ right.1) then placed
        else placed.mergeSort fun left right => left.1 ≤ right.1) := funext Frame.settle_eq
  rw [sync, resolveJumps_eq_measureJumps, settled]
  rfl

end Body

namespace Edit

/-- Rounds of relaxation that can be evaluated. -/
def roundsWithin : (steps rounds : Nat) → Task Edit Nat
  | 0, _ => throw .endlessRelaxation
  | steps + 1, rounds => do
    onBody Body.layOut
    if ← extendOversized then roundsWithin steps (rounds + 1) else return rounds

/-- Relaxation ends within a number of rounds, and something holds of the edit it leaves. -/
def relaxesWithin (steps : Nat) (holds : Edit → Prop) [DecidablePred holds] (before : Logged Edit) :
    Bool :=
  match roundsWithin steps 0 before with
  | .ok _ after => decide (after.state.body.codeLength ≤ maxCodeLength ∧ holds after.state)
  | .error _ _ => false

/-- Rounds that can be evaluated are rounds of relaxation. -/
theorem roundsWithin_eq (steps rounds : Nat) : roundsWithin steps rounds = relaxRounds steps rounds := by
  induction steps generalizing rounds with
  | zero => rfl
  | succ steps inductionHypothesis =>
    simp only [roundsWithin, relaxRounds, Body.sync_eq_layOut, inductionHypothesis]

/-- Rounds that end within a number of steps end in the same way if more are allowed. -/
theorem relaxRounds_of_fewer {fewer more rounds total : Nat} (few : fewer ≤ more)
    {before after : Logged Edit} (ran : relaxRounds fewer rounds before = .ok total after) :
    relaxRounds more rounds before = .ok total after := by
  induction fewer generalizing more rounds before with
  | zero => cases ran
  | succ fewer inductionHypothesis =>
    obtain ⟨more, rfl⟩ := Nat.exists_eq_add_of_le' few
    rw [← Nat.add_assoc, relaxRounds_succ, Task.bind_eq_ok_iff] at *
    obtain ⟨changed, middle, stepped, ran⟩ := ran
    refine ⟨changed, middle, stepped, ?_⟩
    cases changed with
    | true => exact inductionHypothesis (Nat.le_add_left fewer more) ran
    | false => exact ran

/-- Relaxation that ends within the limit of rounds succeeds. -/
theorem exists_relax {steps : Nat} (few : steps ≤ roundLimit) {holds : Edit → Prop}
    [DecidablePred holds] {before : Logged Edit} (runs : relaxesWithin steps holds before = true) :
    ∃ after, relax before = .ok () after ∧ holds after.state := by
  rw [relaxesWithin, roundsWithin_eq] at runs
  cases ran : relaxRounds steps 0 before with
  | error error after =>
    rw [ran] at runs
    cases runs
  | ok rounds middle =>
    rw [ran] at runs
    obtain ⟨short, kept⟩ := of_decide_eq_true runs
    obtain ⟨reported, -, relaxed⟩ := relax_of_rounds (relaxRounds_of_fewer few ran)
    rw [if_neg (Nat.not_lt.mpr short)] at relaxed
    exact ⟨⟨middle.state, reported⟩, relaxed, kept⟩

end Edit

end Classfile
