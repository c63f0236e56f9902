import Classfile.Code.Frame
import Classfile.Instruction.Codec

/-!
The tables that accompany the code of a method: exception ranges, line numbers, local variables and
stack map frames.

In a file they refer to code by position. Here they refer to it by handle, where an exclusive end
without a handle is the end of the code. Reading takes the decoded code to resolve positions, and
writing takes the positions of the handles.
-/

namespace Classfile

/-- The positions of handles, which fail for a handle that is not in use. -/
abbrev Positions := Handle → Except Error Nat

/-- The position of an exclusive end in code of some length. -/
def Positions.ofStop (positions : Positions) (codeLength : Nat) : Option Handle → Except Error Nat
  | none => .ok codeLength
  | some handle => positions handle

/-- A range of code whose exceptions are handled at an instruction. -/
structure ExceptionRange where
  start : Handle
  stop : Option Handle
  handler : Handle
  catchType : Option ConstantIndex
  deriving DecidableEq

namespace ExceptionRange

def byteSize : Nat := 8

def read (code : DecodedCode) : Reader ExceptionRange := do
  let start ← Reader.u16
  let stop ← Reader.u16
  let handler ← Reader.u16
  let catchType ← Reader.u16
  return {
    start := ← Reader.ofExcept (code.handleAt start.toNat)
    stop := ← Reader.ofExcept (code.stopAt stop.toNat)
    handler := ← Reader.ofExcept (code.handleAt handler.toNat)
    catchType := if catchType = 0 then none else some catchType }

def toBytes (positions : Positions) (codeLength : Nat) (range : ExceptionRange) :
    Except Error Bytes := do
  let start ← positions range.start
  let stop ← positions.ofStop codeLength range.stop
  let handler ← positions range.handler
  return Bytes.ofCount start ++ Bytes.ofCount stop ++ Bytes.ofCount handler
    ++ Bytes.ofU16 (range.catchType.getD 0)

def mapHandle (change : Handle → Handle) (range : ExceptionRange) : ExceptionRange :=
  { range with
    start := change range.start
    stop := range.stop.map change
    handler := change range.handler }

/-- A range that ends where it starts covers nothing. -/
def isEmpty (range : ExceptionRange) : Bool := range.stop = some range.start

end ExceptionRange

/-- The line of the source at which the code from an instruction on comes from. -/
structure LineNumber where
  start : Handle
  line : UInt16
  deriving DecidableEq

namespace LineNumber

def read (code : DecodedCode) : Reader LineNumber := do
  let start ← Reader.u16
  let line ← Reader.u16
  return ⟨← Reader.ofExcept (code.handleAt start.toNat), line⟩

def toBytes (positions : Positions) (entry : LineNumber) : Except Error Bytes := do
  let start ← positions entry.start
  return Bytes.ofCount start ++ Bytes.ofU16 entry.line

end LineNumber

/-- A range of code in which a local slot holds a named variable. -/
structure LocalVariable where
  start : Handle
  stop : Option Handle
  name : ConstantIndex
  descriptor : ConstantIndex
  index : UInt16
  deriving DecidableEq

namespace LocalVariable

def read (code : DecodedCode) : Reader LocalVariable := do
  let start ← Reader.u16
  let length ← Reader.u16
  let first ← Reader.ofExcept (code.handleAt start.toNat)
  let stop ← Reader.ofExcept (code.stopAt (start.toNat + length.toNat))
  return ⟨first, stop, ← Reader.u16, ← Reader.u16, ← Reader.u16⟩

/-- A range whose end lies before its start is written with length zero. -/
def toBytes (positions : Positions) (codeLength : Nat) (entry : LocalVariable) :
    Except Error Bytes := do
  let start ← positions entry.start
  let stop ← positions.ofStop codeLength entry.stop
  return Bytes.ofCount start ++ Bytes.ofCount (stop - start) ++ Bytes.ofU16 entry.name
    ++ Bytes.ofU16 entry.descriptor ++ Bytes.ofU16 entry.index

def mapHandle (change : Handle → Handle) (entry : LocalVariable) : LocalVariable :=
  { entry with start := change entry.start, stop := entry.stop.map change }

end LocalVariable

namespace VerificationType

def read (code : DecodedCode) : Reader VerificationType := do
  let tag ← Reader.u8
  match tag with
  | 0 => return .top
  | 1 => return .integer
  | 2 => return .float
  | 3 => return .double
  | 4 => return .long
  | 5 => return .null
  | 6 => return .uninitializedThis
  | 7 => return .object (← Reader.u16)
  | 8 =>
    let creator ← Reader.u16
    return .uninitialized (← Reader.ofExcept (code.handleAt creator.toNat))
  | _ => Reader.fail (.unknownVerificationType tag)

def toBytes (positions : Positions) : VerificationType → Except Error Bytes
  | .top => .ok [0]
  | .integer => .ok [1]
  | .float => .ok [2]
  | .double => .ok [3]
  | .long => .ok [4]
  | .null => .ok [5]
  | .uninitializedThis => .ok [6]
  | .object classIndex => .ok (7 :: Bytes.ofU16 classIndex)
  | .uninitialized creator => do return 8 :: Bytes.ofCount (← positions creator)

/-- Types are written one after the other. -/
def listToBytes (positions : Positions) (types : List VerificationType) : Except Error Bytes := do
  return (← types.mapM (toBytes positions)).flatten

end VerificationType

namespace Frame

/-- The delta and the encoding of a frame, as its tag byte says. -/
def readKind (code : DecodedCode) : Reader (UInt16 × FrameKind) := do
  let tag ← Reader.u8
  if tag < 64 then return (tag.toUInt16, .same)
  else if tag < 128 then return (tag.toUInt16 - 64, .oneItem (← VerificationType.read code))
  else if tag < 247 then Reader.fail (.unknownFrameType tag)
  else
    let delta ← Reader.u16
    if tag = 247 then return (delta, .oneItemExtended (← VerificationType.read code))
    else if tag < 251 then return (delta, .chop (251 - tag))
    else if tag = 251 then return (delta, .sameExtended)
    else if tag < 255 then
      return (delta, .append (← Reader.many (VerificationType.read code) (tag.toNat - 251)))
    else
      let locals ← Reader.table (VerificationType.read code)
      let stack ← Reader.table (VerificationType.read code)
      return (delta, .full locals stack)

/-- The position a frame describes: its delta, counted from just after the frame before. -/
def position (previous : Option Nat) (delta : UInt16) : Nat :=
  match previous with
  | none => delta.toNat
  | some previous => previous + delta.toNat + 1

/-- Frames are read onto the reversed frames before them. -/
def readOnto (code : DecodedCode) : Nat → Option Nat → List Frame → Reader (List Frame)
  | 0, _, done, input => .ok (done.reverse, input)
  | count + 1, previous, done, input =>
    match readKind code input with
    | .error error => .error error
    | .ok ((delta, kind), rest) =>
      match code.handleAt (position previous delta) with
      | .error error => .error error
      | .ok target =>
        readOnto code count (some (position previous delta)) (⟨target, delta, kind⟩ :: done) rest

def readTable (code : DecodedCode) : Reader (List Frame) := do
  readOnto code (← Reader.u16).toNat none []

/-- A compact encoding holds a small delta, and chopped or appended locals number one to three. -/
def toBytes (positions : Positions) (frame : Frame) : Except Error Bytes :=
  if ¬frame.kind.fits frame.delta then .error (.frameDeltaTooLarge frame.kind.name frame.delta)
  else
    match frame.kind with
    | .same => .ok [frame.delta.toUInt8]
    | .oneItem item => do return (frame.delta.toUInt8 + 64) :: (← item.toBytes positions)
    | .oneItemExtended item => do
      return 247 :: (Bytes.ofU16 frame.delta ++ (← item.toBytes positions))
    | .chop count =>
      if 0 < count ∧ count < 4 then .ok ((251 - count) :: Bytes.ofU16 frame.delta)
      else .error .chopSize
    | .sameExtended => .ok (251 :: Bytes.ofU16 frame.delta)
    | .append added =>
      if 0 < added.length ∧ added.length < 4 then do
        let added' ← VerificationType.listToBytes positions added
        return UInt8.ofNat (251 + added.length) :: (Bytes.ofU16 frame.delta ++ added')
      else .error .appendSize
    | .full locals stack => do
      let locals' ← VerificationType.listToBytes positions locals
      let stack' ← VerificationType.listToBytes positions stack
      return 255 :: (Bytes.ofU16 frame.delta ++ Bytes.ofCount locals.length ++ locals'
        ++ Bytes.ofCount stack.length ++ stack')

end Frame

/-- The contents of an attribute of the code. -/
inductive CodeTable where
  | frames (entries : List Frame)
  | lines (entries : List LineNumber)
  | variables (entries : List LocalVariable)
  | variableTypes (entries : List LocalVariable)
  deriving DecidableEq

/-- An attribute of the code with the index of its name. -/
structure CodeAttribute where
  nameIndex : ConstantIndex
  table : CodeTable
  deriving DecidableEq

/-- A parsed attribute must use up exactly the length it declares. -/
def checkAttributeLength (name : String) (declared : UInt32) (used : Nat) : Except Error Unit :=
  if used = declared.toNat then .ok ()
  else .error (.attributeLength name declared (UInt32.ofNat used))

/-- The length and the contents of an attribute that a reader has to use up. -/
def Reader.payload {A : Type} (name : String) (contents : Reader A) : Reader A := do
  let length ← Reader.u32
  let payload ← Reader.bytes length.toNat
  let (value, used) ← Reader.ofExcept (Reader.onPayload payload contents)
  Reader.ofExcept (checkAttributeLength name length used)
  return value

namespace CodeTable

/-- The table with a name, if it is one that code may have. -/
def reader? (code : DecodedCode) : String → Option (Reader CodeTable)
  | "StackMapTable" => some do return .frames (← Frame.readTable code)
  | "LineNumberTable" => some do return .lines (← Reader.table (LineNumber.read code))
  | "LocalVariableTable" => some do return .variables (← Reader.table (LocalVariable.read code))
  | "LocalVariableTypeTable" =>
    some do return .variableTypes (← Reader.table (LocalVariable.read code))
  | _ => none

def byteSize : CodeTable → Nat
  | .frames entries => 2 + Bytes.totalSize Frame.byteSize entries
  | .lines entries => 2 + 4 * entries.length
  | .variables entries | .variableTypes entries => 2 + 10 * entries.length

/-- The rows of a table, after their count. -/
def rowsToBytes {A : Type} (row : A → Except Error Bytes) (rows : List A) : Except Error Bytes := do
  return Bytes.ofCount rows.length ++ (← rows.mapM row).flatten

def toBytes (positions : Positions) (codeLength : Nat) : CodeTable → Except Error Bytes
  | .frames entries => rowsToBytes (Frame.toBytes positions) entries
  | .lines entries => rowsToBytes (LineNumber.toBytes positions) entries
  | .variables entries | .variableTypes entries =>
    rowsToBytes (LocalVariable.toBytes positions codeLength) entries

def mapHandle (change : Handle → Handle) : CodeTable → CodeTable
  | .frames entries => .frames (entries.map (Frame.mapHandle change))
  | .lines entries => .lines (entries.map fun entry => { entry with start := change entry.start })
  | .variables entries => .variables (entries.map (LocalVariable.mapHandle change))
  | .variableTypes entries => .variableTypes (entries.map (LocalVariable.mapHandle change))

/-- The instructions a table refers to other than as an exclusive end. -/
def handles : CodeTable → List Handle
  | .frames entries => entries.flatMap Frame.handles
  | .lines entries => entries.map LineNumber.start
  | .variables entries | .variableTypes entries => entries.map LocalVariable.start

/-- Exclusive ends of a table are replaced. -/
def mapStops (change : Option Handle → Option Handle) : CodeTable → CodeTable
  | .variables entries =>
    .variables (entries.map fun entry => { entry with stop := change entry.stop })
  | .variableTypes entries =>
    .variableTypes (entries.map fun entry => { entry with stop := change entry.stop })
  | other => other

end CodeTable

namespace CodeAttribute

def read (pool : Pool) (code : DecodedCode) : Reader CodeAttribute := do
  let nameIndex ← Reader.u16
  let name ← Reader.ofExcept (pool.text nameIndex)
  match CodeTable.reader? code name with
  | some reader => return ⟨nameIndex, ← Reader.payload name reader⟩
  | none =>
    let length ← Reader.u32
    let _ ← Reader.bytes length.toNat
    Reader.fail (.unknownAttribute name)

def byteSize (entry : CodeAttribute) : Nat := 6 + entry.table.byteSize

def toBytes (positions : Positions) (codeLength : Nat) (entry : CodeAttribute) :
    Except Error Bytes := do
  let contents ← entry.table.toBytes positions codeLength
  return Bytes.ofU16 entry.nameIndex ++ Bytes.ofLength entry.table.byteSize ++ contents

end CodeAttribute

end Classfile
