import Classfile.Code.Edit
import Classfile.Field
import Classfile.Method
import Classfile.Version

/-!
Whole classes and their file form.
-/

namespace Classfile

/-- A class with its constants and members. -/
structure Class where
  version : Version
  pool : Pool
  flags : ClassFlags
  thisClass : ConstantIndex
  superClass : Option ConstantIndex
  interfaces : List ConstantIndex
  fields : List Field
  methods : Array Method
  attributes : List Attribute

namespace Class

/-- The first four bytes of every class file. -/
def magic : UInt32 := 0xCAFEBABE

/-- What reading a class reports. -/
def readEvent (classFile : Class) : Event :=
  .classRead classFile.version.major classFile.version.minor classFile.pool.size
    classFile.fields.length classFile.methods.size

/-- A class without a superclass has index zero in its place. -/
def read : Task Bytes Class := do
  let found ← Task.ofReader Reader.u32
  if found ≠ magic then throw (.badMagic found)
  let version ← Task.ofReader Version.read
  let pool ← Task.ofReader Pool.read
  let flags ← Task.ofReader AccessFlags.read
  let thisClass ← Task.ofReader Reader.u16
  let superClass ← Task.ofReader Reader.u16
  let interfaces ← Task.ofReader (Reader.table Reader.u16)
  let fields ← Task.ofReader (Reader.table (Field.read pool))
  let methodCount ← Task.ofReader Reader.u16
  let methods ← Task.many (Method.read pool thisClass) methodCount.toNat
  let attributes ← Task.ofReader (Reader.table (Attribute.read pool))
  let classFile : Class := {
    version := version
    pool := pool
    flags := flags
    thisClass := thisClass
    superClass := if superClass = 0 then none else some superClass
    interfaces := interfaces
    fields := fields
    methods := methods.toArray
    attributes := attributes }
  Task.report classFile.readEvent
  return classFile

/-- The name of the class with slashes between its parts. -/
def name (classFile : Class) : Except Error String := classFile.pool.className classFile.thisClass

def byteSize (classFile : Class) : Nat :=
  4 + 4 + classFile.pool.byteSize + 6 + 2 + 2 * classFile.interfaces.length
    + 2 + Bytes.totalSize Field.byteSize classFile.fields
    + 2 + Bytes.totalSize Method.byteSize classFile.methods.toList
    + 2 + Bytes.totalSize Attribute.byteSize classFile.attributes

def toBytes (classFile : Class) : Except Error Bytes := do
  let methods ← classFile.methods.toList.mapM Method.toBytes
  return Bytes.ofU32 magic ++ classFile.version.toBytes ++ classFile.pool.toBytes
    ++ classFile.flags.toBytes ++ Bytes.ofU16 classFile.thisClass
    ++ Bytes.ofU16 (classFile.superClass.getD 0)
    ++ Bytes.ofTable Bytes.ofU16 classFile.interfaces
    ++ Bytes.ofTable Field.toBytes classFile.fields
    ++ Bytes.ofCount classFile.methods.size ++ methods.flatten
    ++ Bytes.ofTable Attribute.toBytes classFile.attributes

/-- The body of a method of the class. -/
def code? (classFile : Class) (index : Nat) : Option Body :=
  classFile.methods[index]?.bind Method.code?

/-- The body of a method and the pool are replaced. -/
def setCode (classFile : Class) (index : Nat) (edit : Edit) : Class :=
  { classFile with
    pool := edit.pool
    methods := classFile.methods.modify index fun method => method.setCode edit.body }

/-- A task on the body of a method, if it has one. -/
def onCode {A : Type} (index : Nat) (task : Task Edit A) : Task Class (Option A) := do
  match (← Task.read).code? index with
  | none => return none
  | some body =>
    let value ← Task.focus (fun classFile => ⟨body, classFile.pool⟩)
      (fun classFile edit => classFile.setCode index edit) task
    return some value

end Class

end Classfile
