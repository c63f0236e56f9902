import Classfile.Opcode
import Classfile.Pool

/-!
Instructions, grouped by the shape of their operands.

An instruction keeps the form it has in the file: `iload_1`, `iload 1` and `wide iload 1` are three
different instructions. Jumps are labels of any type: relative offsets in decoded code, and jumps to
handles in a method body.
-/

namespace Classfile

/-- A jump to an instruction of a body, with the offset it had when offsets were last computed. -/
structure Jump where
  target : Handle
  offset : Int
  deriving DecidableEq

/-- The offset as it is written, in 32 bits. -/
def Jump.encoded (jump : Jump) : Int32 := Int32.ofInt jump.offset

/-- The offset of a new jump is filled in when offsets are next computed. -/
def Jump.to (target : Handle) : Jump := ⟨target, 0⟩

/-- An instruction whose jumps are labels of type `L`. -/
inductive Instruction (L : Type) where
  | simple (opcode : Opcode)
  | localAccess (opcode : Opcode) (index : UInt8)
  | wideLocalAccess (opcode : Opcode) (index : UInt16)
  | increment (index : UInt8) (delta : Int8)
  | wideIncrement (index : UInt16) (delta : Int16)
  | pushByte (value : Int8)
  | pushShort (value : Int16)
  | newArray (elementCode : UInt8)
  | loadConstant (index : UInt8)
  | constant (opcode : Opcode) (index : ConstantIndex)
  | invokeInterface (method : ConstantIndex) (count : UInt8)
  | invokeDynamic (callSite : ConstantIndex)
  | multiNewArray (arrayClass : ConstantIndex) (dimensions : UInt8)
  | branch (opcode : Opcode) (label : L)
  | wideBranch (opcode : Opcode) (label : L)
  | tableSwitch (padding : UInt8) (default : L) (low : Int32) (targets : List L)
  | lookupSwitch (padding : UInt8) (default : L) (pairs : List (Int32 × L))
  deriving DecidableEq

/-- The operands of a switch start at the next multiple of four bytes. -/
def switchPadding (bci : Nat) : UInt8 := UInt8.ofNat (3 - bci % 4)

/-- The last key of a `tableswitch` with a number of keys from a lowest one. -/
def switchHigh? (low : Int32) (count : Nat) : Option Int32 :=
  if 1 ≤ count ∧ count ≤ 0x80000000 ∧ low.toInt + count ≤ 0x80000000 then
    some (Int32.ofInt (low.toInt + count - 1))
  else none

namespace Instruction

variable {L K : Type}

/-- The opcode, which for a `wide` form is the opcode that is widened. -/
def opcode : Instruction L → Opcode
  | .simple opcode | .localAccess opcode _ | .wideLocalAccess opcode _ | .constant opcode _
  | .branch opcode _ | .wideBranch opcode _ => opcode
  | .increment .. | .wideIncrement .. => .iinc
  | .pushByte _ => .bipush
  | .pushShort _ => .sipush
  | .newArray _ => .newarray
  | .loadConstant _ => .ldc
  | .invokeInterface .. => .invokeinterface
  | .invokeDynamic _ => .invokedynamic
  | .multiNewArray .. => .multianewarray
  | .tableSwitch .. => .tableswitch
  | .lookupSwitch .. => .lookupswitch

def mnemonic (instruction : Instruction L) : String := instruction.opcode.mnemonic

def isTransfer (instruction : Instruction L) : Bool := instruction.opcode.isTransfer

/-- The opcode belongs to the shape, and a `tableswitch` has a last key. -/
def isWellFormed : Instruction L → Bool
  | .simple opcode => opcode.format = .none
  | .localAccess opcode _ | .wideLocalAccess opcode _ => opcode.format = .localIndex
  | .constant opcode _ => opcode.format = .constant
  | .branch opcode _ => opcode.format = .branch
  | .wideBranch opcode _ => opcode.format = .wideBranch
  | .tableSwitch _ _ low targets => (switchHigh? low targets.length).isSome
  | _ => true

/-- The number of bytes of the encoded instruction. -/
def width : Instruction L → Nat
  | .simple _ => 1
  | .localAccess .. | .pushByte _ | .newArray _ | .loadConstant _ => 2
  | .increment .. | .pushShort _ | .constant .. | .branch .. => 3
  | .wideLocalAccess .. | .multiNewArray .. => 4
  | .invokeInterface .. | .invokeDynamic _ | .wideBranch .. => 5
  | .wideIncrement .. => 6
  | .tableSwitch padding _ _ targets => 1 + padding.toNat + 4 * (3 + targets.length)
  | .lookupSwitch padding _ pairs => 1 + padding.toNat + 8 * (1 + pairs.length)

instance : HasWidth (Instruction L) := ⟨width⟩

/-- The jumps of an instruction, where the default of a switch comes first. -/
def labels : Instruction L → List L
  | .branch _ label | .wideBranch _ label => [label]
  | .tableSwitch _ default _ targets => default :: targets
  | .lookupSwitch _ default pairs => default :: pairs.map Prod.snd
  | _ => []

/-- Each label is replaced, the default of a switch before its cases. -/
def mapLabelsM {M : Type → Type} [Monad M] (change : L → M K) :
    Instruction L → M (Instruction K)
  | .simple opcode => pure (.simple opcode)
  | .localAccess opcode index => pure (.localAccess opcode index)
  | .wideLocalAccess opcode index => pure (.wideLocalAccess opcode index)
  | .increment index delta => pure (.increment index delta)
  | .wideIncrement index delta => pure (.wideIncrement index delta)
  | .pushByte value => pure (.pushByte value)
  | .pushShort value => pure (.pushShort value)
  | .newArray elementCode => pure (.newArray elementCode)
  | .loadConstant index => pure (.loadConstant index)
  | .constant opcode index => pure (.constant opcode index)
  | .invokeInterface method count => pure (.invokeInterface method count)
  | .invokeDynamic callSite => pure (.invokeDynamic callSite)
  | .multiNewArray arrayClass dimensions => pure (.multiNewArray arrayClass dimensions)
  | .branch opcode label => do return .branch opcode (← change label)
  | .wideBranch opcode label => do return .wideBranch opcode (← change label)
  | .tableSwitch padding default low targets => do
    let default ← change default
    return .tableSwitch padding default low (← targets.mapM change)
  | .lookupSwitch padding default pairs => do
    let default ← change default
    return .lookupSwitch padding default (← pairs.mapM fun (key, label) => do
      return (key, ← change label))

def mapLabels (change : L → K) (instruction : Instruction L) : Instruction K :=
  (instruction.mapLabelsM (M := Id) fun label => pure (change label)).run

/-- A switch has the padding its position asks for. -/
def alignedAt (bci : Nat) : Instruction L → Instruction L
  | .tableSwitch _ default low targets => .tableSwitch (switchPadding bci) default low targets
  | .lookupSwitch _ default pairs => .lookupSwitch (switchPadding bci) default pairs
  | other => other

/-- The change in stack height of a call through a constant. -/
def callDelta (pool : Pool) (index : ConstantIndex) (hasReceiver : Bool) : Except Error Int := do
  match MethodDescriptor.parse (← pool.memberDescriptor index) with
  | .ok descriptor => return descriptor.stackDelta hasReceiver
  | .error cause => throw (.badDescriptor cause)

/-- The change in stack height, which for calls follows from the descriptor in the pool. -/
def stackDelta (pool : Pool) : Instruction L → Except Error Int
  | .constant .invokestatic method => callDelta pool method false
  | .constant .invokevirtual method | .constant .invokespecial method => callDelta pool method true
  | .invokeInterface method _ => callDelta pool method true
  | .invokeDynamic callSite => callDelta pool callSite false
  | .multiNewArray _ dimensions => .ok (1 - dimensions.toNat)
  | other => .ok (other.opcode.stackDelta.getD 0)

end Instruction

end Classfile
