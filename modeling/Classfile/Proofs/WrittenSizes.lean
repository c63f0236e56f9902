import Classfile.Proofs.ClassRoundTrip

/-!
Sizes of what is written.

The lengths in front of attributes and code are computed before anything is written, from widths and
counts alone. `sizes_of_written` says that they are right, and the sizes of all parts of a class
with them. Nothing is asked of the parts: positions and paddings may be out of date, and
instructions need not be well formed.
-/

namespace Classfile

open Reader

/-- A length is that of the contents it is written for, unless 32 bits are too few for it. -/
def Declares (length : UInt32) (contents : Bytes) : Prop :=
  contents.length < 4294967296 → length.toNat = contents.length

/-- Bytes are those of an attribute: the index of its name, a length and contents of this length. -/
def Encloses (nameIndex : ConstantIndex) (bytes contents : Bytes) : Prop :=
  ∃ length, bytes = Bytes.ofU16 nameIndex ++ (Bytes.ofU32 length ++ contents) ∧
    Declares length contents

/-- A size that is exact is declared exactly if it fits in 32 bits. -/
theorem declares_ofNat {size : Nat} {contents : Bytes} (exactly : contents.length = size) :
    Declares (UInt32.ofNat size) contents := by
  intro small
  rw [exactly] at small ⊢
  exact UInt32.toNat_ofNat_of_lt' small

/-- Contents of exactly the size are enclosed by their name and length. -/
theorem encloses_of_length (nameIndex : ConstantIndex) {size : Nat} {contents : Bytes}
    (exactly : contents.length = size) :
    Encloses nameIndex (Bytes.ofU16 nameIndex ++ (Bytes.ofLength size ++ contents)) contents :=
  ⟨UInt32.ofNat size, rfl, declares_ofNat exactly⟩

/-- Values that are written one after the other are all written well. -/
theorem sequence_of_mapM {A : Type} {write : A → Except Error Bytes} {form : A → Bytes → Prop}
    {values : List A} {parts : List Bytes} (written : values.mapM write = .ok parts)
    (forms : ∀ value part, write value = .ok part → form value part) :
    Sequence form values parts.flatten :=
  ((sequence_iff_mapM write values _).mpr ⟨parts, written, rfl⟩).imp fun value _ part => forms value part

/-- Encodings one after the other are a sequence of their forms. -/
theorem sequence_flatMap {A : Type} {write : A → Bytes} {form : A → Bytes → Prop} (values : List A)
    (forms : ∀ value, form value (write value)) : Sequence form values (values.flatMap write) :=
  ((sequence_iff_flatMap write values _).mpr rfl).imp fun value _ _ same => same ▸ forms value

/-- The bytes of an attribute are as many as its size says, and enclose its contents. -/
structure Attribute.Measured (raw : Attribute) (bytes : Bytes) : Prop where
  size : bytes.length = raw.byteSize
  encloses : Encloses raw.nameIndex bytes raw.info

/-- Every attribute is measured. -/
theorem Attribute.measured (raw : Attribute) : raw.Measured raw.toBytes where
  size := Class.length_attributeBytes raw
  encloses := by
    rw [toBytes, List.append_assoc]
    exact encloses_of_length raw.nameIndex rfl

/-- An attribute of the code encloses its table. -/
structure CodeAttribute.Measured (positions : Positions) (codeLength : Nat) (entry : CodeAttribute)
    (bytes : Bytes) : Prop where
  size : bytes.length = entry.byteSize
  encloses : ∃ contents, entry.table.toBytes positions codeLength = .ok contents ∧
    contents.length = entry.table.byteSize ∧ Encloses entry.nameIndex bytes contents

/-- An attribute of code that is written is measured. -/
theorem CodeAttribute.measured_of_written {positions : Positions} {codeLength : Nat}
    {entry : CodeAttribute} {bytes : Bytes} (written : entry.toBytes positions codeLength = .ok bytes) :
    entry.Measured positions codeLength bytes := by
  refine ⟨Body.length_attributeBytes written, ?_⟩
  simp only [toBytes, exceptBind_eq_ok_iff, exceptPure_eq_ok_iff] at written
  obtain ⟨contents, inner, rfl⟩ := written
  have sized := CodeTable.length_toBytes inner
  rw [List.append_assoc]
  exact ⟨contents, inner, sized, encloses_of_length entry.nameIndex sized⟩

namespace Body

/-- The attribute encloses the code and its tables. The code is in front of a length of its own, and
has the widths of its instructions. -/
structure Measured (body : Body) (bytes : Bytes) : Prop where
  size : bytes.length = body.byteSize
  encloses : ∃ length code ranges attributes,
    Encloses body.nameIndex bytes
      (Bytes.ofU16 body.maxStack ++ Bytes.ofU16 body.maxLocals ++ Bytes.ofU32 length ++ code
        ++ Bytes.ofCount body.ranges.length ++ ranges
        ++ Bytes.ofCount body.attributes.length ++ attributes) ∧
    body.codeBytes = .ok code ∧
    code.length = Bytes.totalSize (fun entry => entry.2.instruction.width) body.laidOut ∧
    Declares length code ∧
    Sequence (fun range part => range.toBytes body.bci body.codeLength = .ok part) body.ranges ranges ∧
    Sequence (CodeAttribute.Measured body.bci body.codeLength) body.attributes attributes

/-- Code is written as many bytes as its length says. -/
theorem length_codeBytes {body : Body} {code : Bytes} (written : body.codeBytes = .ok code) :
    code.length = body.encodedLength := by
  simp only [codeBytes, exceptBind_eq_ok_iff, exceptPure_eq_ok_iff] at written
  obtain ⟨parts, each, rfl⟩ := written
  have formed := (sequence_iff_mapM _ _ _).mpr ⟨parts, each, rfl⟩
  refine formed.length_eq fun entry part done => ?_
  rw [Instruction.length_toBytes done, Instruction.width_mapLabels]

/-- A body that is written is measured. -/
theorem measured_of_written {body : Body} {bytes : Bytes} (written : body.toBytes = .ok bytes) :
    body.Measured bytes := by
  simp only [toBytes, exceptBind_eq_ok_iff, exceptPure_eq_ok_iff] at written
  obtain ⟨code, codeWritten, ranges, rangesWritten, attributes, attributesWritten, rfl⟩ := written
  have codeSize := length_codeBytes codeWritten
  have rangeForms := sequence_of_mapM rangesWritten fun _ _ done => done
  have attributeForms := sequence_of_mapM attributesWritten fun _ _ => CodeAttribute.measured_of_written
  have rangeSize := rangeForms.length_eq fun _ _ => length_rangeBytes
  have attributeSize := attributeForms.length_eq fun _ _ => CodeAttribute.Measured.size
  rw [totalSize_const] at rangeSize
  have sized : (Bytes.ofU16 body.maxStack ++ Bytes.ofU16 body.maxLocals
      ++ Bytes.ofLength body.encodedLength ++ code ++ Bytes.ofCount body.ranges.length
      ++ ranges.flatten ++ Bytes.ofCount body.attributes.length ++ attributes.flatten).length =
        body.payloadSize := by
    simp only [List.length_append, Bytes.length_ofU16, Bytes.length_ofLength, Bytes.length_ofCount,
      codeSize, rangeSize, attributeSize, payloadSize]
  have encloses := encloses_of_length body.nameIndex sized
  simp only [List.append_assoc] at encloses sized ⊢
  refine ⟨?_, UInt32.ofNat body.encodedLength, code, _, _, ?_, codeWritten, codeSize,
    declares_ofNat codeSize, rangeForms, attributeForms⟩
  · rw [List.length_append, List.length_append, sized, byteSize, Bytes.length_ofU16,
      Bytes.length_ofLength, ← Nat.add_assoc]
  · simp only [List.append_assoc]
    exact encloses

end Body

/-- A field counts its attributes and has them one after the other. -/
structure Field.Measured (field : Field) (bytes : Bytes) : Prop where
  size : bytes.length = field.byteSize
  attributes : ∃ attributes, Sequence Attribute.Measured field.attributes attributes ∧
    bytes = field.flags.toBytes ++ Bytes.ofU16 field.nameIndex ++ Bytes.ofU16 field.descriptorIndex
      ++ Bytes.ofCount field.attributes.length ++ attributes

/-- Every field is measured. -/
theorem Field.measured (field : Field) : field.Measured field.toBytes where
  size := Class.length_fieldBytes field
  attributes := ⟨_, sequence_flatMap field.attributes Attribute.measured, by
    rw [toBytes, Bytes.ofTable, List.append_assoc _ (Bytes.ofCount _)]⟩

/-- The code of a method is measured like any other attribute. -/
def MethodAttribute.Measured : MethodAttribute → Bytes → Prop
  | .code body => body.Measured
  | .other raw => raw.Measured

/-- An attribute of a method that is written is measured. -/
theorem MethodAttribute.measured_of_written {entry : MethodAttribute} {bytes : Bytes}
    (written : entry.toBytes = .ok bytes) : entry.Measured bytes := by
  cases entry with
  | code body => exact Body.measured_of_written written
  | other raw =>
    cases written
    exact raw.measured

/-- A measured attribute of a method has the size it says. -/
theorem MethodAttribute.Measured.size {entry : MethodAttribute} {bytes : Bytes}
    (measured : entry.Measured bytes) : bytes.length = entry.byteSize := by
  cases entry with
  | code body => exact Body.Measured.size measured
  | other raw => exact Attribute.Measured.size measured

/-- A method counts its attributes and has them one after the other. -/
structure Method.Measured (method : Method) (bytes : Bytes) : Prop where
  size : bytes.length = method.byteSize
  attributes : ∃ attributes, Sequence MethodAttribute.Measured method.attributes attributes ∧
    bytes = method.flags.toBytes ++ Bytes.ofU16 method.nameIndex
      ++ Bytes.ofU16 method.descriptorIndex ++ Bytes.ofCount method.attributes.length ++ attributes

/-- A method that is written is measured. -/
theorem Method.measured_of_written {method : Method} {bytes : Bytes}
    (written : method.toBytes = .ok bytes) : method.Measured bytes := by
  simp only [toBytes, exceptBind_eq_ok_iff, exceptPure_eq_ok_iff] at written
  obtain ⟨parts, each, rfl⟩ := written
  have formed := sequence_of_mapM each fun _ _ => MethodAttribute.measured_of_written
  have sized := formed.length_eq fun _ _ => MethodAttribute.Measured.size
  refine ⟨?_, _, formed, rfl⟩
  have flags : method.flags.toBytes.length = 2 := rfl
  simp only [List.length_append, flags, Bytes.length_ofU16, Bytes.length_ofCount, sized, byteSize]

namespace Class

/-- A class counts its members and attributes and has them one after the other. -/
structure Measured (classFile : Class) (bytes : Bytes) : Prop where
  size : bytes.length = classFile.byteSize
  parts : ∃ fields methods attributes,
    bytes = Bytes.ofU32 magic ++ classFile.version.toBytes ++ classFile.pool.toBytes
      ++ classFile.flags.toBytes ++ Bytes.ofU16 classFile.thisClass
      ++ Bytes.ofU16 (classFile.superClass.getD 0) ++ Bytes.ofTable Bytes.ofU16 classFile.interfaces
      ++ Bytes.ofCount classFile.fields.length ++ fields
      ++ Bytes.ofCount classFile.methods.size ++ methods
      ++ Bytes.ofCount classFile.attributes.length ++ attributes ∧
    Sequence Field.Measured classFile.fields fields ∧
    Sequence Method.Measured classFile.methods.toList methods ∧
    Sequence Attribute.Measured classFile.attributes attributes

/-- A class that is written is measured. -/
theorem measured_of_written {classFile : Class} {bytes : Bytes}
    (written : classFile.toBytes = .ok bytes) : classFile.Measured bytes := by
  simp only [toBytes, exceptBind_eq_ok_iff, exceptPure_eq_ok_iff] at written
  obtain ⟨parts, each, rfl⟩ := written
  have formed := sequence_of_mapM each fun _ _ => Method.measured_of_written
  have methodSize := formed.length_eq fun _ _ => Method.Measured.size
  refine ⟨?_, _, _, _, by simp only [Bytes.ofTable, List.append_assoc],
    sequence_flatMap classFile.fields Field.measured, formed,
    sequence_flatMap classFile.attributes Attribute.measured⟩
  change (classFile.headBytes ++ parts.flatten
    ++ Bytes.ofTable Attribute.toBytes classFile.attributes).length = _
  rw [List.length_append, List.length_append, length_headBytes, methodSize,
    length_ofTable length_attributeBytes, headSize, byteSize]
  omega

end Class

/-- All sizes are those of what is written, and so are the lengths that are written along. -/
theorem sizes_of_written :
    (∀ constant : Constant, constant.toBytes.length = constant.byteSize) ∧
    (∀ pool : Pool, pool.toBytes.length = pool.byteSize) ∧
    (∀ (instruction : Instruction Int32) bytes, instruction.toBytes = .ok bytes →
      bytes.length = instruction.width) ∧
    (∀ (positions : Positions) (frame : Frame) bytes, frame.toBytes positions = .ok bytes →
      bytes.length = frame.byteSize) ∧
    (∀ (positions : Positions) codeLength (table : CodeTable) bytes,
      table.toBytes positions codeLength = .ok bytes → bytes.length = table.byteSize) ∧
    (∀ (positions : Positions) codeLength (entry : CodeAttribute) bytes,
      entry.toBytes positions codeLength = .ok bytes → entry.Measured positions codeLength bytes) ∧
    (∀ raw : Attribute, raw.Measured raw.toBytes) ∧
    (∀ field : Field, field.Measured field.toBytes) ∧
    (∀ (body : Body) bytes, body.toBytes = .ok bytes → body.Measured bytes) ∧
    (∀ (method : Method) bytes, method.toBytes = .ok bytes → method.Measured bytes) ∧
    ∀ (classFile : Class) bytes, classFile.toBytes = .ok bytes → classFile.Measured bytes :=
  ⟨Pool.length_toBytes_constant, Pool.length_toBytes, fun _ _ => Instruction.length_toBytes,
    fun _ _ _ => Frame.length_toBytes, fun _ _ _ _ => CodeTable.length_toBytes,
    fun _ _ _ _ => CodeAttribute.measured_of_written, Attribute.measured, Field.measured,
    fun _ _ => Body.measured_of_written, fun _ _ => Method.measured_of_written,
    fun _ _ => Class.measured_of_written⟩

/-- A class with a body whose positions were never computed, which holds an opcode in the wrong shape
and a switch with seven bytes of padding. -/
def unsettled : Class where
  version := .java8
  pool := .empty
  flags := ⟨0, rfl⟩
  thisClass := 1
  superClass := none
  interfaces := []
  fields := []
  methods := #[{
    flags := ⟨0, rfl⟩
    nameIndex := 2
    descriptorIndex := 3
    attributes := [.code {
      Body.empty 4 1 1 with
      slots := #[some ⟨.simple .goto, 0⟩, some ⟨.tableSwitch 7 (.to ⟨0⟩) 5 [.to ⟨1⟩], 0⟩]
      order := #[⟨0⟩, ⟨1⟩]
      attributes := [⟨5, .lines [⟨⟨1⟩, 12⟩]⟩] }] }]
  attributes := [⟨6, [0, 7]⟩]

theorem sizes_of_written_unsettled :
    ∃ bytes, unsettled.toBytes = .ok bytes ∧ bytes.length = unsettled.byteSize ∧
      unsettled.Measured bytes := by
  obtain ⟨-, -, -, -, -, -, -, -, -, -, classes⟩ := sizes_of_written
  obtain ⟨bytes, written⟩ : ∃ bytes, unsettled.toBytes = .ok bytes := ⟨_, rfl⟩
  have measured := classes unsettled bytes written
  exact ⟨bytes, written, measured.size, measured⟩

end Classfile
