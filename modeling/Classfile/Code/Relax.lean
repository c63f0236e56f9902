import Classfile.Code.Edit

/-!
Relaxation: 16-bit branches that cannot reach their targets are extended.

An unconditional branch has a 32-bit form and is widened in place. A conditional branch has none:
its condition is inverted to hop over a `goto_w` to the target, a trampoline. Where the instruction
after the branch would then need a stack map frame that it does not have, the branch is pointed at
an island instead: a `goto_w` to the target, placed after a nearby instruction that control never
falls through. The island has the frame of the target, written in full, and so has the frame after
the island, which was relative to another predecessor.

Extending makes code longer and can push further branches out of reach, so layout and extending
alternate until nothing is left to extend.
-/

namespace Classfile

/-- The offsets a 16-bit branch can have. -/
def isNear (offset : Int) : Bool := -0x8000 ≤ offset ∧ offset < 0x8000

/-- Islands keep this distance from the limits of 16-bit branches, since later changes may push
them further from their branch. -/
def islandMargin : Int := 1024

def inIslandReach (distance : Int) : Bool :=
  -0x8000 + islandMargin ≤ distance ∧ distance ≤ 0x7FFF - islandMargin

/-- The code of a method has at most this many bytes. -/
def maxCodeLength : Nat := 65535

namespace Body

/-- The 16-bit branches that do not reach their targets, in layout order. -/
def oversized (body : Body) : List (Handle × Opcode × Jump) :=
  body.laidOut.filterMap fun (handle, slot) =>
    match slot.instruction with
    | .branch opcode jump => if isNear jump.offset then none else some (handle, opcode, jump)
    | _ => none

/-- A trampoline would need a frame at the instruction after the branch that is not there. -/
def needsIsland (body : Body) (branch : Handle) : Except Error Bool := do
  match body.frames?, ← body.next? branch with
  | some frames, some next => return ¬frames.any fun frame => frame.target = next
  | _, _ => return false

/-- A position lies in an exception range. -/
def isCovered (body : Body) (bci : Nat) : List ExceptionRange → Except Error Bool
  | [] => .ok false
  | range :: rest => do
    if (← body.bci range.start) ≤ bci then
      if bci < (← body.stopBci range.stop) then return true
    body.isCovered bci rest

/-- How far from a position an island after an instruction would be, if one can be placed there. -/
def islandDistance? (body : Body) (source : Nat) (site : Slot) : Except Error (Option Nat) := do
  let distance : Int := (site.bci : Int) + site.instruction.width - source
  let covered ← body.isCovered site.bci body.ranges
  return if inIslandReach distance ∧ ¬covered then some distance.natAbs else none

/-- The closer of two sites, where the earlier one wins a tie. -/
def closer (best : Option (Nat × Handle)) (distance : Nat) (site : Handle) :
    Option (Nat × Handle) :=
  match best with
  | some (least, _) => if distance < least then some (distance, site) else best
  | none => some (distance, site)

/-- The instruction closest to a branch after which an island can be placed. -/
def islandSite? (body : Body) (branch : Handle) : Except Error (Option Handle) := do
  let source ← body.bci branch
  let best ← (body.laidOut.filter fun (_, slot) => slot.instruction.isTransfer).foldlM
    (fun best (handle, slot) => do
      match ← body.islandDistance? source slot with
      | some distance => return closer best distance handle
      | none => return best)
    (none : Option (Nat × Handle))
  return best.map Prod.snd

/-- The number of frames before the first one that is laid out after an island. -/
def framesBefore (body : Body) (island : Handle) (frames : List Frame) : Nat :=
  let positions := body.positions
  let position (handle : Handle) : Option Nat := positions[handle.index]?.join
  match position island with
  | some islandPosition =>
    frames.findIdx fun frame => (position frame.target).any fun other => islandPosition < other
  | none => frames.length

/-- The frame of an island goes between its neighbours, and the one after it is written in full. -/
def withIslandFrame (frames : List Frame) (states : List FrameState) (before : Nat)
    (island : Frame) : List Frame :=
  let following := (frames.drop before).mapIdx fun index frame =>
    match index, states[before]? with
    | 0, some state => { frame with kind := state.toFull }
    | _, _ => frame
  frames.take before ++ island :: following

end Body

namespace Edit

/-- The branch hops over a `goto_w` to its target when the condition does not hold. -/
def branchOverTrampoline (branch : Handle) (opcode : Opcode) (target : Handle) :
    Task Edit Unit := do
  let body ← body!
  match opcode.inverted?, ← Task.ofExcept (body.next? branch) with
  | some inverted, some next =>
    let _ ← change fun body => body.insertAfter branch (.wideBranch .gotoW (.to target))
    replace fun body => body.set branch (.branch inverted (.to next))
    Task.report (.branchInverted opcode.mnemonic inverted.mnemonic)
  | _, _ => throw (.unrelaxableBranch branch)

/-- The island at a site gets its frame, if its target has one. -/
def frameIsland (branch target island : Handle) (states : List FrameState) : Task Edit Unit := do
  let body ← body!
  match body.frames? with
  | none => throw (.unrelaxableBranch branch)
  | some frames =>
    match states[frames.findIdx fun frame => frame.target = target]? with
    | none => throw (.unrelaxableBranch branch)
    | some state =>
      let before := body.framesBefore island frames
      let frames := Body.withIslandFrame frames states before (.new island state.toFull)
      replace fun body => .ok (body.setFrames frames)

/-- The branch is pointed at a new island that leads to its target. -/
def branchToIsland (branch : Handle) (opcode : Opcode) (target : Handle) : Task Edit Unit := do
  let body ← body!
  match body.context, body.frames? with
  | some context, some frames =>
    let entry ← onPool context.entryFrame
    match ← Task.ofExcept (body.islandSite? branch) with
    | none => throw (.unrelaxableBranch branch)
    | some site =>
      let island ← change fun body => body.insertAfter site (.wideBranch .gotoW (.to target))
      replace fun body => body.set branch (.branch opcode (.to island))
      frameIsland branch target island (entry.expand frames)
      Task.report (.branchToIsland opcode.mnemonic site)
  | _, _ => throw (.unrelaxableBranch branch)

/-- A branch that does not reach its target is extended. -/
def extendBranch (branch : Handle) (opcode : Opcode) (jump : Jump) : Task Edit Unit := do
  let body ← body!
  let bci ← Task.ofExcept (body.bci branch)
  Task.report (.branchOversized opcode.mnemonic bci jump.offset)
  match opcode.widened? with
  | some widened =>
    replace fun body => body.set branch (.wideBranch widened (.to jump.target))
  | none =>
    if ← Task.ofExcept (body.needsIsland branch) then branchToIsland branch opcode jump.target
    else branchOverTrampoline branch opcode jump.target

/-- All branches that did not reach their targets at the last layout are extended. The answer tells
whether there were any, in which case positions and offsets have to be computed again. -/
def extendOversized : Task Edit Bool := do
  let oversized := (← body!).oversized
  oversized.forM fun (branch, opcode, jump) => extendBranch branch opcode jump
  return ¬oversized.isEmpty

/-- Every round that extends a branch adds at least two bytes besides switch padding, so code that
still changes after this many rounds has outgrown 32-bit positions. -/
def roundLimit : Nat := 0x80000000

/-- Layout and extending alternate until nothing is extended; the answer counts the rounds. -/
def relaxRounds : (steps rounds : Nat) → Task Edit Nat
  | 0, _ => throw .endlessRelaxation
  | steps + 1, rounds => do
    onBody Body.sync
    if ← extendOversized then relaxRounds steps (rounds + 1) else return rounds

/-- All branches are brought into reach, and the code has to fit the limit of the format. -/
def relax : Task Edit Unit := do
  let rounds ← relaxRounds roundLimit 0
  let length := (← body!).codeLength
  if 0 < rounds then Task.report (.relaxed rounds length)
  if maxCodeLength < length then throw (.codeTooLong length)

end Edit

end Classfile
