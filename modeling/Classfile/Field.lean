import Classfile.AccessFlags
import Classfile.Attribute

/-!
Fields of a class.
-/

namespace Classfile

structure Field where
  flags : FieldFlags
  nameIndex : ConstantIndex
  descriptorIndex : ConstantIndex
  attributes : List Attribute
  deriving DecidableEq

namespace Field

def read (pool : Pool) : Reader Field := do
  let flags ← AccessFlags.read
  let nameIndex ← Reader.u16
  let descriptorIndex ← Reader.u16
  return ⟨flags, nameIndex, descriptorIndex, ← Reader.table (Attribute.read pool)⟩

def byteSize (field : Field) : Nat := 8 + Bytes.totalSize Attribute.byteSize field.attributes

def toBytes (field : Field) : Bytes :=
  field.flags.toBytes ++ Bytes.ofU16 field.nameIndex ++ Bytes.ofU16 field.descriptorIndex
    ++ Bytes.ofTable Attribute.toBytes field.attributes

end Field

end Classfile
