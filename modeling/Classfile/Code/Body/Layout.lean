import Classfile.Code.Body
import Classfile.Sorting

/-!
The layout of a body: positions of instructions, jump offsets and frame deltas.

`Body.sync` recomputes all of them after a change. A jump whose offset no longer fits its encoding
keeps its form.
-/

namespace Classfile

/-- The state of the pass that gives each instruction its position. -/
structure Placement where
  slots : Array (Option Slot)
  bci : Nat

/-- An instruction is placed right after those before it, with the padding its position asks for. -/
def Placement.place (placement : Placement) (handle : Handle) : Placement :=
  match placement.slots[handle.index]?.join with
  | some slot =>
    let instruction := slot.instruction.alignedAt placement.bci
    { slots := placement.slots.setIfInBounds handle.index (some ⟨instruction, placement.bci⟩)
      bci := placement.bci + instruction.width }
  | none => placement

/-- The offset of a jump from one position to another. -/
def jumpOffset (source target : Nat) : Int := target - source

namespace Frame

/-- The distance of a position from the frame before, as far as 16 bits can tell. -/
def deltaFrom (previous : Option Nat) (bci : Nat) : UInt16 :=
  let distance := match previous with
    | none => bci
    | some previous => bci - previous - 1
  if distance < 65536 then UInt16.ofNat distance else 65535

/-- A compact frame whose delta does not fit gets its extended encoding. -/
def promotion? (delta : UInt16) (kind : FrameKind) : Option FrameKind :=
  if kind.fits delta then none else kind.extended?

/-- The outcome of the pass over the frames, which stops at a frame that shares its position with
the frame before. -/
structure Settlement where
  frames : List Frame
  promotions : List Event
  conflict : Option Handle

/-- Deltas are computed from positions, onto the reversed frames and promotions before. -/
def settleOnto (done : List Frame) (promotions : List Event) (previous : Option Nat) :
    List (Nat × Frame) → Settlement
  | [] => ⟨done.reverse, promotions.reverse, none⟩
  | (bci, frame) :: rest =>
    if previous = some bci then
      ⟨done.reverse ++ frame :: rest.map Prod.snd, promotions.reverse, some frame.target⟩
    else
      let delta := deltaFrom previous bci
      match promotion? delta frame.kind with
      | some kind =>
        let event := .framePromoted frame.kind.name bci kind.name delta
        settleOnto (⟨frame.target, delta, kind⟩ :: done) (event :: promotions) (some bci) rest
      | none => settleOnto ({ frame with delta := delta } :: done) promotions (some bci) rest

/-- Frames are put in the order of their positions before their deltas are computed. -/
def settle (placed : List (Nat × Frame)) : Settlement :=
  settleOnto [] [] none (placed.mergeSort fun left right => left.1 ≤ right.1)

end Frame

namespace Body

/-- The position of an instruction that something refers to. -/
def targetBci (body : Body) (handle : Handle) : Except Error Nat :=
  match body.slot? handle with
  | some slot => .ok slot.bci
  | none => .error (.removedTarget handle)

/-- Each instruction starts where the one before it ends. -/
def place (body : Body) : Body :=
  let placement := body.order.foldl Placement.place ⟨body.slots, 0⟩
  { body with slots := placement.slots, codeLength := placement.bci }

/-- The offsets of all jumps are computed from positions. -/
def resolveJumps (body : Body) : Except Error Body := do
  let slots ← body.slots.mapM fun slot =>
    match slot with
    | none => return none
    | some slot => do
      let instruction ← slot.instruction.mapLabelsM fun jump => do
        return { jump with offset := jumpOffset slot.bci (← body.targetBci jump.target) }
      return some { slot with instruction := instruction }
  return { body with slots := slots }

/-- Frames with the positions of the instructions they describe.

Of several removed instructions, the one that sorting comes upon first is reported. -/
def placeFrames (body : Body) (frames : List Frame) : Except Error (List (Nat × Frame)) :=
  match frames.mapM fun frame => return (← body.targetBci frame.target, frame) with
  | .ok placed => .ok placed
  | .error error => do
    Sorting.lookUp (fun frame => body.targetBci frame.target) frames
    throw error

/-- Positions, paddings, jump offsets and frame deltas are recomputed. -/
def sync : Task Body Unit := do
  let body ← Task.ofExcept (← Task.read).place.resolveJumps
  match body.frames? with
  | none => Task.write body
  | some frames =>
    let settlement := Frame.settle (← Task.ofExcept (body.placeFrames frames))
    Task.write (body.setFrames settlement.frames)
    settlement.promotions.forM Task.report
    match settlement.conflict with
    | some handle => throw (.conflictingFrames handle)
    | none => return

end Body

end Classfile
