import Classfile.Code.Table
import Classfile.Task

/-!
Method bodies.

The instructions of a body live in an arena and are named by handles, while their layout is a list
of handles of its own. Inserting an instruction therefore invalidates no reference, and a handle is
never used again after its instruction is removed. Positions and offsets are those of the last time
they were computed.
-/

namespace Classfile

/-- An instruction with its position in the code when positions were last computed. -/
structure Slot where
  instruction : Instruction Jump
  bci : Nat
  deriving DecidableEq

/-- The code of a method with its tables. -/
structure Body where
  nameIndex : ConstantIndex
  maxStack : UInt16
  maxLocals : UInt16
  slots : Array (Option Slot)
  order : Array Handle
  codeLength : Nat
  ranges : List ExceptionRange
  attributes : List CodeAttribute
  context : Option MethodContext

namespace Body

def empty (nameIndex : ConstantIndex) (maxStack maxLocals : UInt16) : Body where
  nameIndex := nameIndex
  maxStack := maxStack
  maxLocals := maxLocals
  slots := #[]
  order := #[]
  codeLength := 0
  ranges := []
  attributes := []
  context := none

/-- The number of instructions. -/
def size (body : Body) : Nat := body.order.size

def slot? (body : Body) (handle : Handle) : Option Slot := body.slots[handle.index]?.join

def contains (body : Body) (handle : Handle) : Bool := (body.slot? handle).isSome

def slot (body : Body) (handle : Handle) : Except Error Slot :=
  match body.slot? handle with
  | some slot => .ok slot
  | none => .error (.staleHandle handle)

def get (body : Body) (handle : Handle) : Except Error (Instruction Jump) :=
  return (← body.slot handle).instruction

def bci (body : Body) (handle : Handle) : Except Error Nat :=
  return (← body.slot handle).bci

/-- The position of an exclusive end. -/
def stopBci (body : Body) (stop : Option Handle) : Except Error Nat :=
  Positions.ofStop body.bci body.codeLength stop

/-- The handles and slots of the instructions in layout order. -/
def laidOut (body : Body) : List (Handle × Slot) :=
  body.order.toList.filterMap fun handle => (body.slot? handle).map (handle, ·)

/-- The index of an instruction in the layout. -/
def position? (body : Body) (handle : Handle) : Option Nat :=
  body.order.findIdx? fun other => other = handle

def position (body : Body) (handle : Handle) : Except Error Nat :=
  match body.position? handle with
  | some position => .ok position
  | none => .error (.staleHandle handle)

/-- The index in the layout of every handle at once. -/
def positions (body : Body) : Array (Option Nat) :=
  (body.order.foldl
    (fun (found, position) handle =>
      (found.setIfInBounds handle.index (some position), position + 1))
    (Array.replicate body.slots.size none, 0)).1

def first? (body : Body) : Option Handle := body.order[0]?

/-- The instruction laid out right after another one. -/
def next? (body : Body) (handle : Handle) : Except Error (Option Handle) :=
  return body.order[(← body.position handle) + 1]?

/-- The frames of the first stack map table. -/
def frames? (body : Body) : Option (List Frame) :=
  body.attributes.findSome? fun entry =>
    match entry.table with
    | .frames frames => some frames
    | _ => none

def frameAt? (body : Body) (handle : Handle) : Option Frame :=
  body.frames?.bind (List.find? fun frame => frame.target = handle)

/-- An instruction is replaced in place, so references to it stay. -/
def set (body : Body) (handle : Handle) (instruction : Instruction Jump) : Except Error Body :=
  return { body with
    slots := body.slots.setIfInBounds handle.index
      (some { ← body.slot handle with instruction := instruction }) }

/-- The handle the next inserted instruction will have. -/
def nextHandle (body : Body) : Handle := ⟨body.slots.size⟩

/-- The position of whatever is at an index of the layout, or the length of the code. -/
def bciAtPosition (body : Body) (position : Nat) : Nat :=
  match body.order[position]? with
  | some displaced => ((body.slot? displaced).map Slot.bci).getD 0
  | none => body.codeLength

/-- An instruction is spliced in at an index of the layout and takes the position of whatever it
displaces until positions are computed again. -/
def splice (body : Body) (position : Nat) (instruction : Instruction Jump)
    (inside : position ≤ body.order.size) : Body :=
  let slot : Slot := ⟨instruction, body.bciAtPosition position⟩
  let handle := body.nextHandle
  { body with
    slots := body.slots.push (some slot)
    order := body.order.insertIdx position handle inside }

def insert (body : Body) (position : Nat) (instruction : Instruction Jump) :
    Except Error (Handle × Body) :=
  if inside : position ≤ body.order.size then
    .ok (body.nextHandle, body.splice position instruction inside)
  else .error .positionPastEnd

def push (body : Body) (instruction : Instruction Jump) : Handle × Body :=
  (body.nextHandle, body.splice body.order.size instruction (Nat.le_refl _))

/-- References to the anchor are left alone, so jumps to it skip the new instruction. -/
def insertBefore (body : Body) (anchor : Handle) (instruction : Instruction Jump) :
    Except Error (Handle × Body) := do
  body.insert (← body.position anchor) instruction

def insertAfter (body : Body) (anchor : Handle) (instruction : Instruction Jump) :
    Except Error (Handle × Body) := do
  body.insert ((← body.position anchor) + 1) instruction

/-- The frames of the first stack map table are replaced. -/
def replaceFrames (frames : List Frame) : List CodeAttribute → List CodeAttribute
  | [] => []
  | entry :: rest =>
    match entry.table with
    | .frames _ => { entry with table := .frames frames } :: rest
    | _ => entry :: replaceFrames frames rest

def setFrames (body : Body) (frames : List Frame) : Body :=
  { body with attributes := replaceFrames frames body.attributes }

/-- Every reference of the body is changed: jumps, ranges, tables, frames and their types. -/
def mapHandle (change : Handle → Handle) (body : Body) : Body :=
  { body with
    slots := body.slots.map (Option.map fun slot =>
      { slot with instruction := slot.instruction.mapLabels fun jump =>
          { jump with target := change jump.target } })
    ranges := body.ranges.map (ExceptionRange.mapHandle change)
    attributes := body.attributes.map fun entry =>
      { entry with table := entry.table.mapHandle change } }

/-- Every reference to one instruction becomes a reference to another. -/
def replaceTargets (body : Body) (old new : Handle) : Body :=
  body.mapHandle (Handle.redirect old new)

/-- An instruction is referred to other than as an exclusive end. -/
def isReferenced (body : Body) (handle : Handle) : Bool :=
  (body.slots.any fun slot =>
    match slot with
    | some slot => slot.instruction.labels.any fun jump => jump.target = handle
    | none => false)
  || (body.ranges.any fun range => range.start = handle ∨ range.handler = handle)
  || (body.attributes.any fun entry => handle ∈ entry.table.handles)

/-- Exclusive ends at the last instruction become the end of the code. -/
def releaseStops (body : Body) (last : Handle) : Body :=
  let release (stop : Option Handle) : Option Handle := if stop = some last then none else stop
  { body with
    ranges := body.ranges.map fun range => { range with stop := release range.stop }
    attributes := body.attributes.map fun entry =>
      { entry with table := entry.table.mapStops release } }

/-- References to an instruction move to the one after it.

The last instruction has none after it, so only exclusive ends may refer to it, and two frames may
not meet on one instruction. -/
def release (body : Body) (handle : Handle) (next? : Option Handle) : Except Error Body :=
  match next? with
  | some next =>
    if (body.frameAt? handle).isSome ∧ (body.frameAt? next).isSome then
      .error (.conflictingFrames next)
    else .ok (body.replaceTargets handle next)
  | none =>
    if body.isReferenced handle then .error (.danglingReference handle)
    else .ok (body.releaseStops handle)

/-- An instruction leaves the layout and its slot stays empty. -/
def clear (body : Body) (handle : Handle) (position : Nat) : Body :=
  { body with
    slots := body.slots.setIfInBounds handle.index none
    order := body.order.eraseIdxIfInBounds position }

/-- The removed instruction, the exception ranges that became empty and the rest of the body. -/
def removed (body : Body) (handle : Handle) :
    Except Error (Instruction Jump × List ExceptionRange × Body) := do
  let position ← body.position handle
  let released ← body.release handle body.order[position + 1]?
  let instruction ← released.get handle
  let (emptied, kept) := released.ranges.partition ExceptionRange.isEmpty
  return (instruction, emptied, { released.clear handle position with ranges := kept })

/-- An instruction is removed, and each exception range emptied by that is reported. -/
def remove (handle : Handle) : Task Body (Instruction Jump) := do
  let (instruction, emptied, body) ← Task.ofExcept ((← Task.read).removed handle)
  Task.write body
  emptied.forM fun _ => Task.report (.handlerDropped handle)
  return instruction

end Body

end Classfile
