import Classfile.Instruction

/-!
The byte form of instructions.

Instructions are read and written with relative jump offsets. Code is decoded from its first byte
on, so an instruction starts at the sum of the widths of those before it.
-/

namespace Classfile

namespace Instruction

/-- The bytes after the opcode. -/
def operandBytes : Instruction Int32 → Except Error Bytes
  | .simple _ => .ok []
  | .localAccess _ index => .ok (Bytes.ofU8 index)
  | .wideLocalAccess _ index => .ok (Bytes.ofU16 index)
  | .increment index delta => .ok (Bytes.ofU8 index ++ Bytes.ofI8 delta)
  | .wideIncrement index delta => .ok (Bytes.ofU16 index ++ Bytes.ofI16 delta)
  | .pushByte value => .ok (Bytes.ofI8 value)
  | .pushShort value => .ok (Bytes.ofI16 value)
  | .newArray elementCode => .ok (Bytes.ofU8 elementCode)
  | .loadConstant index => .ok (Bytes.ofU8 index)
  | .constant _ index => .ok (Bytes.ofU16 index)
  | .invokeInterface method count => .ok (Bytes.ofU16 method ++ Bytes.ofU8 count ++ Bytes.ofU8 0)
  | .invokeDynamic callSite => .ok (Bytes.ofU16 callSite ++ Bytes.ofU16 0)
  | .multiNewArray arrayClass dimensions => .ok (Bytes.ofU16 arrayClass ++ Bytes.ofU8 dimensions)
  | .branch opcode offset =>
    if -0x8000 ≤ offset.toInt ∧ offset.toInt < 0x8000 then .ok (Bytes.ofI16 offset.toInt16)
    else .error (.branchTooFar opcode.mnemonic offset)
  | .wideBranch _ offset => .ok (Bytes.ofI32 offset)
  | .tableSwitch padding default low targets =>
    match switchHigh? low targets.length with
    | some high =>
      .ok (List.replicate padding.toNat 0 ++ Bytes.ofI32 default ++ Bytes.ofI32 low
        ++ Bytes.ofI32 high ++ targets.flatMap Bytes.ofI32)
    | none => .error (.switchWithoutHigh low targets.length)
  | .lookupSwitch padding default pairs =>
    .ok (List.replicate padding.toNat 0 ++ Bytes.ofI32 default ++ Bytes.ofLength pairs.length
      ++ pairs.flatMap fun (key, offset) => Bytes.ofI32 key ++ Bytes.ofI32 offset)

/-- A `wide` form starts with a byte of its own. -/
def opcodeBytes : Instruction Int32 → Bytes
  | .wideLocalAccess opcode _ => [Opcode.wide.byte, opcode.byte]
  | .wideIncrement .. => [Opcode.wide.byte, Opcode.iinc.byte]
  | other => [other.opcode.byte]

def toBytes (instruction : Instruction Int32) : Except Error Bytes :=
  match instruction.operandBytes with
  | .ok operands => .ok (instruction.opcodeBytes ++ operands)
  | .error error => .error error

def readTableSwitch (bci : Nat) : Reader (Instruction Int32) := do
  let padding := switchPadding bci
  let _ ← Reader.bytes padding.toNat
  let default ← Reader.i32
  let low ← Reader.i32
  let high ← Reader.i32
  if high < low then Reader.fail (.malformedSwitch bci)
  else
    let targets ← Reader.many Reader.i32 (high.toInt - low.toInt + 1).toNat
    return .tableSwitch padding default low targets

def readLookupSwitch (bci : Nat) : Reader (Instruction Int32) := do
  let padding := switchPadding bci
  let _ ← Reader.bytes padding.toNat
  let default ← Reader.i32
  let count ← Reader.i32
  if count < 0 then Reader.fail (.malformedSwitch bci)
  else
    let pairs ← Reader.many (do return (← Reader.i32, ← Reader.i32)) count.toInt.toNat
    return .lookupSwitch padding default pairs

/-- Only accesses to local variables have a `wide` form. -/
def readWide (bci : Nat) : Reader (Instruction Int32) := do
  let byte ← Reader.u8
  match Opcode.ofByte? byte with
  | none => Reader.fail (.unknownWideOpcode byte bci)
  | some opcode =>
    match opcode.format with
    | .localIndex => return .wideLocalAccess opcode (← Reader.u16)
    | .increment => return .wideIncrement (← Reader.u16) (← Reader.i16)
    | _ => Reader.fail (.unknownWideOpcode byte bci)

/-- The operands of an opcode, for an instruction that starts at a position. -/
def readOperands (bci : Nat) (opcode : Opcode) : Reader (Instruction Int32) :=
  match opcode.format with
  | .none => return .simple opcode
  | .localIndex => do return .localAccess opcode (← Reader.u8)
  | .increment => do return .increment (← Reader.u8) (← Reader.i8)
  | .signedByte => do return .pushByte (← Reader.i8)
  | .signedShort => do return .pushShort (← Reader.i16)
  | .arrayType => do return .newArray (← Reader.u8)
  | .narrowConstant => do return .loadConstant (← Reader.u8)
  | .constant => do return .constant opcode (← Reader.u16)
  | .invokeInterface => do
    let method ← Reader.u16
    let count ← Reader.u8
    let _ ← Reader.u8
    return .invokeInterface method count
  | .invokeDynamic => do
    let callSite ← Reader.u16
    let _ ← Reader.u16
    return .invokeDynamic callSite
  | .multiNewArray => do return .multiNewArray (← Reader.u16) (← Reader.u8)
  | .branch => do return .branch opcode (← Reader.i16).toInt32
  | .wideBranch => do return .wideBranch opcode (← Reader.i32)
  | .tableSwitch => readTableSwitch bci
  | .lookupSwitch => readLookupSwitch bci
  | .wide => readWide bci

def read (bci : Nat) : Reader (Instruction Int32) := do
  let byte ← Reader.u8
  match Opcode.ofByte? byte with
  | some opcode => readOperands bci opcode
  | none => Reader.fail (.unknownOpcode byte bci)

end Instruction

/-- Decoded code: instructions by the positions at which they start. -/
abbrev DecodedCode := OffsetTable (Instruction Int32)

namespace DecodedCode

/-- Each byte starts an instruction or, as the first argument counts, belongs to the one before. -/
def decodeOnto : Nat → DecodedCode → Bytes → Except Error DecodedCode
  | _, code, [] => .ok code
  | inside + 1, code, _ :: rest => decodeOnto inside code rest
  | 0, code, byte :: rest =>
    match Instruction.read code.extent (byte :: rest) with
    | .ok (instruction, _) => decodeOnto (instruction.width - 1) (code.push instruction) rest
    | .error error => .error error

def decode (bytes : Bytes) : Except Error DecodedCode :=
  decodeOnto 0 (OffsetTable.startingAt 0) bytes

/-- The instruction that starts exactly at a position; the instructions are numbered in order. -/
def handleAt (code : DecodedCode) (bci : Int) : Except Error Handle :=
  if bci < 0 then .error (.noInstructionAt bci)
  else
    match code.lookup bci.toNat with
    | .found index _ => .ok ⟨index⟩
    | _ => .error (.noInstructionAt bci)

/-- An exclusive end may also be the end of the code, which has no handle. -/
def stopAt (code : DecodedCode) (bci : Int) : Except Error (Option Handle) :=
  if bci = code.extent then .ok none
  else
    match code.handleAt bci with
    | .ok handle => .ok (some handle)
    | .error error => .error error

end DecodedCode

end Classfile
