import Classfile.Constant
import Classfile.ModifiedUtf8
import Std.Data.HashMap

/-!
The constant pool.

The pool only grows at its end, so an index keeps its meaning for good. Beside the constants the
pool knows the first index of each constant, which serves to find a constant that is already there.
-/

namespace Classfile

/-- The constants of a class, indexed from one, with the first index of each of them. -/
structure Pool where
  table : OffsetTable Constant
  firstIndex : Std.HashMap Constant ConstantIndex

namespace Pool

def empty : Pool := ⟨OffsetTable.startingAt 1, ∅⟩

/-- The number of indices in use. -/
def size (pool : Pool) : Nat := pool.table.extent - 1

def isEmpty (pool : Pool) : Bool := pool.table.size = 0

def constants (pool : Pool) : List Constant := pool.table.elements

/-- The index the next constant will have. -/
def nextIndex (pool : Pool) : ConstantIndex := UInt16.ofNat pool.table.extent

/-- Why a constant may not be added: its indices must stay below the limit of the format, and a
text must have a length that fits into two bytes. -/
def refusal? (pool : Pool) (constant : Constant) : Option Error :=
  if 65536 ≤ pool.nextIndex.toNat + constant.width then some (.poolFull pool.nextIndex)
  else
    match constant with
    | .utf8 bytes => if 65535 < bytes.length then some (.utf8TooLong bytes.length) else none
    | _ => none

/-- A constant goes to the end of the pool. -/
def append (pool : Pool) (constant : Constant) : Pool :=
  let index := pool.nextIndex
  ⟨pool.table.push constant, pool.firstIndex.insertIfNew constant index⟩

def push (pool : Pool) (constant : Constant) : Except Error Pool :=
  match pool.refusal? constant with
  | some error => .error error
  | none => .ok (pool.append constant)

/-- Constants are read until the declared number of indices is used up. -/
def readOnto (count : Nat) : (steps : Nat) → Pool → Reader Pool
  | 0, pool, input => .ok (pool, input)
  | steps + 1, pool, input =>
    if pool.table.extent < count then
      match Constant.read pool.nextIndex input with
      | .error error => .error error
      | .ok (constant, rest) =>
        match pool.push constant with
        | .error error => .error error
        | .ok pool => readOnto count steps pool rest
    else .ok (pool, input)

/-- The last constant must end exactly at the declared count. -/
def read : Reader Pool := do
  let count ← Reader.u16
  let pool ← readOnto count.toNat count.toNat empty
  if pool.table.extent = max count.toNat 1 then return pool
  else Reader.fail (.constantOutOfRange count)

def toBytes (pool : Pool) : Bytes :=
  Bytes.ofCount pool.table.extent ++ pool.constants.flatMap Constant.toBytes

def byteSize (pool : Pool) : Nat := 2 + Bytes.totalSize Constant.byteSize pool.constants

/-- Index zero, the second index of a wide constant and indices past the end hold nothing. -/
def get (pool : Pool) (index : ConstantIndex) : Except Error Constant :=
  match pool.table.lookup index.toNat with
  | .found _ constant => .ok constant
  | _ => .error (.constantOutOfRange index)

/-- The encoded text of a text constant. -/
def utf8 (pool : Pool) (index : ConstantIndex) : Except Error Bytes := do
  match ← pool.get index with
  | .utf8 bytes => return bytes
  | _ => throw (.unexpectedConstant index .utf8)

def text (pool : Pool) (index : ConstantIndex) : Except Error String := do
  return ModifiedUtf8.decode (← pool.utf8 index)

/-- The name of a class constant, which is a descriptor for array classes. -/
def className (pool : Pool) (index : ConstantIndex) : Except Error String := do
  match ← pool.get index with
  | .classInfo name => pool.text name
  | _ => throw (.unexpectedConstant index .className)

/-- The contents of a string constant. -/
def string (pool : Pool) (index : ConstantIndex) : Except Error String := do
  match ← pool.get index with
  | .string contents => pool.text contents
  | _ => throw (.unexpectedConstant index .string)

/-- The indices of a name and a descriptor. -/
def nameAndType (pool : Pool) (index : ConstantIndex) :
    Except Error (ConstantIndex × ConstantIndex) := do
  match ← pool.get index with
  | .nameAndType name descriptor => return (name, descriptor)
  | _ => throw (.unexpectedConstant index .nameAndType)

/-- The indices of the class and of the name and type of a field or method. -/
def member (pool : Pool) (index : ConstantIndex) :
    Except Error (ConstantIndex × ConstantIndex) := do
  match ← pool.get index with
  | .fieldRef owner signature | .methodRef owner signature _ => return (owner, signature)
  | _ => throw (.unexpectedConstant index .member)

/-- The descriptor of a field, a method or a dynamically computed value. -/
def memberDescriptor (pool : Pool) (index : ConstantIndex) : Except Error String := do
  match ← pool.get index with
  | .fieldRef _ signature | .methodRef _ signature _ | .dynamic _ signature
  | .invokeDynamic _ signature =>
    let (_, descriptor) ← pool.nameAndType signature
    pool.text descriptor
  | _ => throw (.unexpectedConstant index .memberOrCallSite)

end Pool

end Classfile
