import Classfile.Code.Body

/-!
The byte form of a body, which is the attribute `Code` of a method.

Reading decodes all instructions before it resolves jumps and the positions in the tables, since
jumps may lead forward.
-/

namespace Classfile

namespace Body

/-- The jumps of a decoded instruction lead to the instructions at their offsets. -/
def resolve (code : DecodedCode) (bci : Nat) (instruction : Instruction Int32) :
    Except Error (Instruction Jump) :=
  instruction.mapLabelsM fun offset => do
    return ⟨← code.handleAt (bci + offset.toInt), offset.toInt⟩

/-- The contents of the attribute, after its name and length. -/
def read (nameIndex : ConstantIndex) (pool : Pool) (context : Option MethodContext) :
    Reader Body := do
  let maxStack ← Reader.u16
  let maxLocals ← Reader.u16
  let codeLength ← Reader.u32
  let bytes ← Reader.bytes codeLength.toNat
  let code ← Reader.ofExcept (DecodedCode.decode bytes)
  let slots ← Reader.ofExcept (code.entries.mapM fun (bci, instruction) => do
    return some ⟨← resolve code bci instruction, bci⟩)
  let ranges ← Reader.table (ExceptionRange.read code)
  let attributes ← Reader.table (CodeAttribute.read pool code)
  return {
    nameIndex := nameIndex
    maxStack := maxStack
    maxLocals := maxLocals
    slots := slots
    order := Array.ofFn fun index : Fin slots.size => ⟨index⟩
    codeLength := codeLength.toNat
    ranges := ranges
    attributes := attributes
    context := context }

/-- What reading a body reports. -/
def decodedEvent (body : Body) : Event :=
  .bodyDecoded body.size body.codeLength body.ranges.length

/-- The number of bytes of the encoded instructions. -/
def encodedLength (body : Body) : Nat :=
  Bytes.totalSize (fun (_, slot) => slot.instruction.width) body.laidOut

/-- The number of bytes of the contents of the attribute. -/
def payloadSize (body : Body) : Nat :=
  8 + body.encodedLength + 2 + ExceptionRange.byteSize * body.ranges.length + 2
    + Bytes.totalSize CodeAttribute.byteSize body.attributes

/-- The number of bytes of the attribute with its name and length. -/
def byteSize (body : Body) : Nat := 6 + body.payloadSize

def codeBytes (body : Body) : Except Error Bytes := do
  let encoded ← body.laidOut.mapM fun (_, slot) =>
    (slot.instruction.mapLabels Jump.encoded).toBytes
  return encoded.flatten

/-- The attribute with its name and length. -/
def toBytes (body : Body) : Except Error Bytes := do
  let code ← body.codeBytes
  let ranges ← body.ranges.mapM (ExceptionRange.toBytes body.bci body.codeLength)
  let attributes ← body.attributes.mapM (CodeAttribute.toBytes body.bci body.codeLength)
  return Bytes.ofU16 body.nameIndex ++ Bytes.ofLength body.payloadSize
    ++ Bytes.ofU16 body.maxStack ++ Bytes.ofU16 body.maxLocals
    ++ Bytes.ofLength body.encodedLength ++ code
    ++ Bytes.ofCount body.ranges.length ++ ranges.flatten
    ++ Bytes.ofCount body.attributes.length ++ attributes.flatten

end Body

end Classfile
