import Classfile.Instruction
import Classfile.Pool.Intern

/-!
Stack map frames: the types of locals and operand stack at chosen instructions.

A frame is encoded relative to the frame before it, and the first one relative to the state on
entry to the method. `FrameState.expand` gives the absolute states. Compact and extended encodings
are kept apart, so that a frame is written with the encoding it was read with.
-/

namespace Classfile

/-- References to one handle become references to another. -/
def Handle.redirect (old new handle : Handle) : Handle := if handle = old then new else handle

/-- The type of a local variable or of a stack item. -/
inductive VerificationType where
  | top
  | integer
  | float
  | double
  | long
  | null
  | uninitializedThis
  | object (classIndex : ConstantIndex)
  | uninitialized (creator : Handle)
  deriving DecidableEq

namespace VerificationType

def isReference : VerificationType → Bool
  | .null | .uninitializedThis | .object _ | .uninitialized _ => true
  | _ => false

/-- The type of a parameter on entry to its method. -/
def ofFieldType : FieldType → Interning VerificationType
  | .base .float => return .float
  | .base .long => return .long
  | .base .double => return .double
  | .base _ => return .integer
  | .object className => do return .object (← Pool.internClass className)
  | .array element => do return .object (← Pool.internClass (FieldType.array element).render)

/-- The instruction that created an uninitialized object, if the type names one. -/
def creator? : VerificationType → Option Handle
  | .uninitialized creator => some creator
  | _ => none

def mapHandle (change : Handle → Handle) : VerificationType → VerificationType
  | .uninitialized creator => .uninitialized (change creator)
  | other => other

def byteSize : VerificationType → Nat
  | .object _ | .uninitialized _ => 3
  | _ => 1

end VerificationType

/-- The encoding of a frame relative to the frame before it. -/
inductive FrameKind where
  | same
  | oneItem (item : VerificationType)
  | oneItemExtended (item : VerificationType)
  | chop (count : UInt8)
  | sameExtended
  | append (added : List VerificationType)
  | full (locals stack : List VerificationType)
  deriving DecidableEq

namespace FrameKind

/-- Compact encodings hold a delta of at most 63. -/
def fits (delta : UInt16) : FrameKind → Bool
  | .same | .oneItem _ => delta ≤ 63
  | _ => true

/-- The extended encoding of a compact frame. -/
def extended? : FrameKind → Option FrameKind
  | .same => some .sameExtended
  | .oneItem item => some (.oneItemExtended item)
  | _ => none

/-- The types mentioned by a frame, locals before stack. -/
def types : FrameKind → List VerificationType
  | .same | .chop _ | .sameExtended => []
  | .oneItem item | .oneItemExtended item => [item]
  | .append added => added
  | .full locals stack => locals ++ stack

def mapHandle (change : Handle → Handle) : FrameKind → FrameKind
  | .oneItem item => .oneItem (item.mapHandle change)
  | .oneItemExtended item => .oneItemExtended (item.mapHandle change)
  | .append added => .append (added.map (·.mapHandle change))
  | .full locals stack =>
    .full (locals.map (·.mapHandle change)) (stack.map (·.mapHandle change))
  | other => other

def name : FrameKind → String
  | .same => "same_frame"
  | .oneItem _ => "same_locals_1_stack_item_frame"
  | .oneItemExtended _ => "same_locals_1_stack_item_frame_extended"
  | .chop _ => "chop_frame"
  | .sameExtended => "same_frame_extended"
  | .append _ => "append_frame"
  | .full .. => "full_frame"

def byteSize (kind : FrameKind) : Nat :=
  let contents := Bytes.totalSize VerificationType.byteSize kind.types
  match kind with
  | .same | .oneItem _ => 1 + contents
  | .full .. => 7 + contents
  | _ => 3 + contents

end FrameKind

/-- The frame at an instruction, with the distance from the frame before it. -/
structure Frame where
  target : Handle
  delta : UInt16
  kind : FrameKind
  deriving DecidableEq

namespace Frame

/-- The delta of a new frame is filled in when offsets are next computed. -/
def new (target : Handle) (kind : FrameKind) : Frame := ⟨target, 0, kind⟩

def byteSize (frame : Frame) : Nat := frame.kind.byteSize

def mapHandle (change : Handle → Handle) (frame : Frame) : Frame :=
  { frame with target := change frame.target, kind := frame.kind.mapHandle change }

/-- The instructions a frame refers to. -/
def handles (frame : Frame) : List Handle :=
  frame.target :: frame.kind.types.filterMap VerificationType.creator?

end Frame

/-- The types of locals and stack at an instruction, where a wide value is one entry. -/
structure FrameState where
  locals : List VerificationType
  stack : List VerificationType
  deriving DecidableEq

namespace FrameState

def empty : FrameState := ⟨[], []⟩

/-- The state at a frame whose predecessor has this state. -/
def apply (state : FrameState) : FrameKind → FrameState
  | .same | .sameExtended => ⟨state.locals, []⟩
  | .oneItem item | .oneItemExtended item => ⟨state.locals, [item]⟩
  | .chop count => ⟨state.locals.take (state.locals.length - count.toNat), []⟩
  | .append added => ⟨state.locals ++ added, []⟩
  | .full locals stack => ⟨locals, stack⟩

/-- The states at all frames, from the state on entry to the method. -/
def expand (entry : FrameState) : List Frame → List FrameState
  | [] => []
  | frame :: rest =>
    let state := entry.apply frame.kind
    state :: expand state rest

/-- The encoding that does not depend on the frame before. -/
def toFull (state : FrameState) : FrameKind := .full state.locals state.stack

end FrameState

/-- What a body needs to know about its method to tell the state on entry. -/
structure MethodContext where
  classIndex : ConstantIndex
  descriptor : String
  isStatic : Bool
  isConstructor : Bool
  deriving DecidableEq

namespace MethodContext

/-- The receiver of the method, if it has one. -/
def receiver (context : MethodContext) : List VerificationType :=
  if context.isStatic then []
  else if context.isConstructor then [.uninitializedThis]
  else [.object context.classIndex]

/-- The state on entry: the receiver, then the parameters, on an empty stack. -/
def entryFrame (context : MethodContext) : Interning FrameState :=
  match MethodDescriptor.parse context.descriptor with
  | .error cause => throw (.badDescriptor cause)
  | .ok descriptor => do
    let parameters ← descriptor.parameters.mapM VerificationType.ofFieldType
    return ⟨context.receiver ++ parameters, []⟩

end MethodContext

end Classfile
