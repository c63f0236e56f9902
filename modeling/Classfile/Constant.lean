import Classfile.Bytes
import Classfile.OffsetTable

/-!
The constants of a class file and their encoding.

A constant is written as a tag byte and its operands. The 8-byte constants take two indices of the
pool, all others take one. Floating point constants are kept as their bits.
-/

namespace Classfile

/-- An index into the constant pool. -/
abbrev ConstantIndex := UInt16

/-- What a method handle does with the member it refers to. -/
inductive HandleKind where
  | getField
  | getStatic
  | putField
  | putStatic
  | invokeVirtual
  | invokeStatic
  | invokeSpecial
  | newInvokeSpecial
  | invokeInterface
  deriving DecidableEq, Hashable

def HandleKind.byte : HandleKind → UInt8
  | .getField => 1
  | .getStatic => 2
  | .putField => 3
  | .putStatic => 4
  | .invokeVirtual => 5
  | .invokeStatic => 6
  | .invokeSpecial => 7
  | .newInvokeSpecial => 8
  | .invokeInterface => 9

def HandleKind.ofByte (byte : UInt8) : Except Error HandleKind :=
  match byte with
  | 1 => .ok .getField
  | 2 => .ok .getStatic
  | 3 => .ok .putField
  | 4 => .ok .putStatic
  | 5 => .ok .invokeVirtual
  | 6 => .ok .invokeStatic
  | 7 => .ok .invokeSpecial
  | 8 => .ok .newInvokeSpecial
  | 9 => .ok .invokeInterface
  | _ => .error (.unknownHandleKind byte)

@[simp] theorem HandleKind.ofByte_byte (kind : HandleKind) : ofByte kind.byte = .ok kind := by
  cases kind <;> rfl

/-- A constant of the pool, which refers to others by their indices. -/
inductive Constant where
  | utf8 (bytes : Bytes)
  | integer (value : Int32)
  | float (bits : UInt32)
  | long (value : Int64)
  | double (bits : UInt64)
  | classInfo (name : ConstantIndex)
  | string (text : ConstantIndex)
  | fieldRef (owner signature : ConstantIndex)
  | methodRef (owner signature : ConstantIndex) (onInterface : Bool)
  | nameAndType (name descriptor : ConstantIndex)
  | methodHandle (kind : HandleKind) (member : ConstantIndex)
  | methodType (descriptor : ConstantIndex)
  | dynamic (bootstrap : UInt16) (signature : ConstantIndex)
  | invokeDynamic (bootstrap : UInt16) (signature : ConstantIndex)
  | moduleInfo (name : ConstantIndex)
  | packageInfo (name : ConstantIndex)
  deriving DecidableEq, Hashable

namespace Constant

/-- The number of pool indices a constant takes up. -/
def width : Constant → Nat
  | .long _ | .double _ => 2
  | _ => 1

instance : HasWidth Constant := ⟨width⟩

/-- The number of bytes of the encoded constant. -/
def byteSize : Constant → Nat
  | .utf8 bytes => 3 + bytes.length
  | .integer _ | .float _ | .fieldRef .. | .methodRef .. | .nameAndType .. | .dynamic ..
  | .invokeDynamic .. => 5
  | .long _ | .double _ => 9
  | .classInfo _ | .string _ | .methodType _ | .moduleInfo _ | .packageInfo _ => 3
  | .methodHandle .. => 4

def toBytes : Constant → Bytes
  | .utf8 bytes => 1 :: (Bytes.ofCount bytes.length ++ bytes)
  | .integer value => 3 :: Bytes.ofI32 value
  | .float bits => 4 :: Bytes.ofU32 bits
  | .long value => 5 :: Bytes.ofU64 value.toUInt64
  | .double bits => 6 :: Bytes.ofU64 bits
  | .classInfo name => 7 :: Bytes.ofU16 name
  | .string text => 8 :: Bytes.ofU16 text
  | .fieldRef owner signature => 9 :: (Bytes.ofU16 owner ++ Bytes.ofU16 signature)
  | .methodRef owner signature onInterface =>
    (if onInterface then 11 else 10) :: (Bytes.ofU16 owner ++ Bytes.ofU16 signature)
  | .nameAndType name descriptor => 12 :: (Bytes.ofU16 name ++ Bytes.ofU16 descriptor)
  | .methodHandle kind member => 15 :: kind.byte :: Bytes.ofU16 member
  | .methodType descriptor => 16 :: Bytes.ofU16 descriptor
  | .dynamic bootstrap signature => 17 :: (Bytes.ofU16 bootstrap ++ Bytes.ofU16 signature)
  | .invokeDynamic bootstrap signature =>
    18 :: (Bytes.ofU16 bootstrap ++ Bytes.ofU16 signature)
  | .moduleInfo name => 19 :: Bytes.ofU16 name
  | .packageInfo name => 20 :: Bytes.ofU16 name

/-- The operands that follow a tag; the index only serves to report an unknown tag. -/
def readOperands (index : ConstantIndex) (tag : UInt8) : Reader Constant :=
  match tag with
  | 1 => do return .utf8 (← Reader.bytes (← Reader.u16).toNat)
  | 3 => do return .integer (← Reader.i32)
  | 4 => do return .float (← Reader.u32)
  | 5 => do return .long (← Reader.u64).toInt64
  | 6 => do return .double (← Reader.u64)
  | 7 => do return .classInfo (← Reader.u16)
  | 8 => do return .string (← Reader.u16)
  | 9 => do return .fieldRef (← Reader.u16) (← Reader.u16)
  | 10 => do return .methodRef (← Reader.u16) (← Reader.u16) false
  | 11 => do return .methodRef (← Reader.u16) (← Reader.u16) true
  | 12 => do return .nameAndType (← Reader.u16) (← Reader.u16)
  | 15 => do
    let kind ← Reader.ofExcept (HandleKind.ofByte (← Reader.u8))
    return .methodHandle kind (← Reader.u16)
  | 16 => do return .methodType (← Reader.u16)
  | 17 => do return .dynamic (← Reader.u16) (← Reader.u16)
  | 18 => do return .invokeDynamic (← Reader.u16) (← Reader.u16)
  | 19 => do return .moduleInfo (← Reader.u16)
  | 20 => do return .packageInfo (← Reader.u16)
  | _ => Reader.fail (.unknownConstantTag tag index)

def read (index : ConstantIndex) : Reader Constant := do
  readOperands index (← Reader.u8)

end Constant

end Classfile
