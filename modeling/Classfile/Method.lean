import Classfile.AccessFlags
import Classfile.Attribute
import Classfile.Code.Body.Codec

/-!
Methods of a class, whose code is decoded and whose other attributes are kept as they are.
-/

namespace Classfile

inductive MethodAttribute where
  | code (body : Body)
  | other (raw : Attribute)

structure Method where
  flags : MethodFlags
  nameIndex : ConstantIndex
  descriptorIndex : ConstantIndex
  attributes : List MethodAttribute

namespace MethodAttribute

def body? : MethodAttribute → Option Body
  | .code body => some body
  | .other _ => none

/-- An attribute named `Code` is decoded, which is reported before its length is checked. -/
def read (pool : Pool) (context : MethodContext) : Task Bytes MethodAttribute := do
  let nameIndex ← Task.ofReader Reader.u16
  let name ← Task.ofExcept (pool.text nameIndex)
  if name = "Code" then
    let length ← Task.ofReader Reader.u32
    let payload ← Task.ofReader (Reader.bytes length.toNat)
    let (body, used) ← Task.ofExcept
      (Reader.onPayload payload (Body.read nameIndex pool (some context)))
    Task.report body.decodedEvent
    Task.ofExcept (checkAttributeLength name length used)
    return .code body
  else return .other (← Task.ofReader (Attribute.readInfo nameIndex name))

def byteSize : MethodAttribute → Nat
  | .code body => body.byteSize
  | .other raw => raw.byteSize

def toBytes : MethodAttribute → Except Error Bytes
  | .code body => body.toBytes
  | .other raw => .ok raw.toBytes

end MethodAttribute

namespace Method

/-- A method declared by a class. -/
def read (pool : Pool) (classIndex : ConstantIndex) : Task Bytes Method := do
  let flags : MethodFlags ← Task.ofReader AccessFlags.read
  let nameIndex ← Task.ofReader Reader.u16
  let descriptorIndex ← Task.ofReader Reader.u16
  let descriptor ← Task.ofExcept (pool.text descriptorIndex)
  let name ← Task.ofExcept (pool.text nameIndex)
  let context : MethodContext := {
    classIndex := classIndex
    descriptor := descriptor
    isStatic := flags.isStatic
    isConstructor := name = "<init>" }
  let count ← Task.ofReader Reader.u16
  let attributes ← Task.many (MethodAttribute.read pool context) count.toNat
  return ⟨flags, nameIndex, descriptorIndex, attributes⟩

/-- The body of the method, unless it is abstract or native. -/
def code? (method : Method) : Option Body := method.attributes.findSome? MethodAttribute.body?

/-- The first body is replaced. -/
def replaceCode (body : Body) : List MethodAttribute → List MethodAttribute
  | [] => []
  | .code _ :: rest => .code body :: rest
  | .other raw :: rest => .other raw :: replaceCode body rest

def setCode (method : Method) (body : Body) : Method :=
  { method with attributes := replaceCode body method.attributes }

def name (method : Method) (pool : Pool) : Except Error String := pool.text method.nameIndex

def descriptor (method : Method) (pool : Pool) : Except Error String :=
  pool.text method.descriptorIndex

def byteSize (method : Method) : Nat :=
  8 + Bytes.totalSize MethodAttribute.byteSize method.attributes

def toBytes (method : Method) : Except Error Bytes := do
  let attributes ← method.attributes.mapM MethodAttribute.toBytes
  return method.flags.toBytes ++ Bytes.ofU16 method.nameIndex ++ Bytes.ofU16 method.descriptorIndex
    ++ Bytes.ofCount method.attributes.length ++ attributes.flatten

end Method

end Classfile
