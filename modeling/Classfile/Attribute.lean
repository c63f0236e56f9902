import Classfile.Pool

/-!
Attributes of classes, fields and methods that are kept as raw bytes.
-/

namespace Classfile

/-- An attribute as the index of its name and its contents. -/
structure Attribute where
  nameIndex : ConstantIndex
  info : Bytes
  deriving DecidableEq

namespace Attribute

/-- The attributes that the format defines. -/
def knownNames : List String := [
  "ConstantValue", "Code", "StackMapTable", "Exceptions", "InnerClasses", "EnclosingMethod",
  "Synthetic", "Signature", "SourceFile", "SourceDebugExtension", "LineNumberTable",
  "LocalVariableTable", "LocalVariableTypeTable", "Deprecated", "RuntimeVisibleAnnotations",
  "RuntimeInvisibleAnnotations", "RuntimeVisibleParameterAnnotations",
  "RuntimeInvisibleParameterAnnotations", "RuntimeVisibleTypeAnnotations",
  "RuntimeInvisibleTypeAnnotations", "AnnotationDefault", "BootstrapMethods", "MethodParameters",
  "Module", "ModulePackages", "ModuleMainClass", "NestHost", "NestMembers", "Record",
  "PermittedSubclasses"]

/-- The length and contents of an attribute whose name is known. -/
def readInfo (nameIndex : ConstantIndex) (name : String) : Reader Attribute :=
  if name ∈ knownNames then do
    let length ← Reader.u32
    return ⟨nameIndex, ← Reader.bytes length.toNat⟩
  else Reader.fail (.unknownAttribute name)

def read (pool : Pool) : Reader Attribute := do
  let nameIndex ← Reader.u16
  readInfo nameIndex (← Reader.ofExcept (pool.text nameIndex))

def byteSize (raw : Attribute) : Nat := 6 + raw.info.length

def toBytes (raw : Attribute) : Bytes :=
  Bytes.ofU16 raw.nameIndex ++ Bytes.ofLength raw.info.length ++ raw.info

end Attribute

end Classfile
