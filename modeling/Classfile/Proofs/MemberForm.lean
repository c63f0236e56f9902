import Classfile.Class
import Classfile.Proofs.BodyForm
import Classfile.Proofs.Interning

/-!
The byte forms of constants, fields and methods.

What is read is written back as the bytes it was read from, except for the spare bytes of code.
`Restored` states this for a value with spare bytes, and it carries over to sequences of values.
-/

namespace Classfile

open Reader

/-- A byte that stands for a kind of handle is the byte of that kind. -/
theorem HandleKind.byte_of_ofByte {byte : UInt8} {kind : HandleKind}
    (known : HandleKind.ofByte byte = .ok kind) : kind.byte = byte := by
  unfold HandleKind.ofByte at known
  split at known
  all_goals first | (cases known; rfl) | cases known

/-- A constant is read from the bytes it is written as. -/
theorem Constant.bytes_of_read {index : ConstantIndex} {input rest : Bytes} {constant : Constant}
    (read : Constant.read index input = .ok (constant, rest)) :
    input = constant.toBytes ++ rest := by
  rw [Constant.read, bind_eq_ok_iff] at read
  obtain ⟨tag, middle, first, read⟩ := read
  rw [u8_eq_ok_iff] at first
  rw [first]
  unfold Constant.readOperands at read
  split at read
  all_goals simp only [bind_eq_ok_iff, u8_eq_ok_iff, u16_eq_ok_iff, u32_eq_ok_iff, u64_eq_ok_iff,
    i32_eq_ok_iff, bytes_eq_ok_iff, ofExcept_eq_ok_iff, pure_eq_ok_iff, fail_eq_ok_iff] at read
  · obtain ⟨length, _, rfl, bytes, _, ⟨sized, rfl⟩, rfl, rfl⟩ := read
    have count := ((ofCount_eq_ofU16_iff bytes.length length).mpr sized.symm).2
    simp [Constant.toBytes, count]
  · obtain ⟨value, _, rfl, rfl, rfl⟩ := read
    rfl
  · obtain ⟨bits, _, rfl, rfl, rfl⟩ := read
    rfl
  · obtain ⟨value, _, rfl, rfl, rfl⟩ := read
    rfl
  · obtain ⟨bits, _, rfl, rfl, rfl⟩ := read
    rfl
  · obtain ⟨name, _, rfl, rfl, rfl⟩ := read
    rfl
  · obtain ⟨text, _, rfl, rfl, rfl⟩ := read
    rfl
  · obtain ⟨owner, _, rfl, signature, _, rfl, rfl, rfl⟩ := read
    simp [Constant.toBytes]
  · obtain ⟨owner, _, rfl, signature, _, rfl, rfl, rfl⟩ := read
    simp [Constant.toBytes]
  · obtain ⟨owner, _, rfl, signature, _, rfl, rfl, rfl⟩ := read
    simp [Constant.toBytes]
  · obtain ⟨name, _, rfl, descriptor, _, rfl, rfl, rfl⟩ := read
    simp [Constant.toBytes]
  · obtain ⟨byte, _, rfl, kind, _, ⟨known, rfl⟩, member, _, rfl, rfl, rfl⟩ := read
    simp [Constant.toBytes, HandleKind.byte_of_ofByte known]
  · obtain ⟨descriptor, _, rfl, rfl, rfl⟩ := read
    rfl
  · obtain ⟨bootstrap, _, rfl, signature, _, rfl, rfl, rfl⟩ := read
    simp [Constant.toBytes]
  · obtain ⟨bootstrap, _, rfl, signature, _, rfl, rfl, rfl⟩ := read
    simp [Constant.toBytes]
  · obtain ⟨name, _, rfl, rfl, rfl⟩ := read
    rfl
  · obtain ⟨name, _, rfl, rfl, rfl⟩ := read
    rfl

namespace Pool

theorem constants_append (pool : Pool) (constant : Constant) :
    (pool.append constant).constants = pool.constants ++ [constant] := by
  simp [append, constants, OffsetTable.push, OffsetTable.elements]

/-- Constants that were pushed are in the pool in the same order. -/
theorem constants_of_pushed {constants : List Constant} {start result : Pool}
    (pushed : constants.foldlM push start = .ok result) :
    result.constants = start.constants ++ constants := by
  induction constants generalizing start with
  | nil =>
    cases pushed
    exact (List.append_nil _).symm
  | cons constant constants inductionHypothesis =>
    rw [List.foldlM_cons, exceptBind_eq_ok_iff] at pushed
    obtain ⟨middle, first, others⟩ := pushed
    rw [inductionHypothesis others, (push_eq_ok_iff.mp first).2, constants_append, List.append_assoc]
    rfl

/-- What is read onto a pool is pushed onto it, constant by constant. -/
theorem pushed_of_readOnto {count steps : Nat} {pool result : Pool} {input rest : Bytes}
    (read : readOnto count steps pool input = .ok (result, rest)) :
    ∃ added : List Constant, added.foldlM push pool = .ok result ∧
      input = added.flatMap Constant.toBytes ++ rest := by
  induction steps generalizing pool input with
  | zero =>
    cases read
    exact ⟨[], rfl, rfl⟩
  | succ steps inductionHypothesis =>
    rw [readOnto] at read
    split at read
    · split at read
      · cases read
      · rename_i constant middle accepted
        split at read
        · cases read
        · rename_i later pushed
          obtain ⟨added, others, rfl⟩ := inductionHypothesis read
          refine ⟨constant :: added, ?_, ?_⟩
          · rw [List.foldlM_cons, exceptBind_eq_ok_iff]
            exact ⟨later, pushed, others⟩
          · rw [Constant.bytes_of_read accepted, List.flatMap_cons, List.append_assoc]
    · cases read
      exact ⟨[], rfl, rfl⟩

/-- A pool is read from its bytes, unless its count was zero. -/
theorem bytes_of_read {pool : Pool} {input rest : Bytes}
    (read : Pool.read input = .ok (pool, rest)) :
    input = pool.toBytes ++ rest ∨ input.take 2 = [0, 0] := by
  simp only [Pool.read, bind_eq_ok_iff, u16_eq_ok_iff] at read
  obtain ⟨count, _, rfl, built, _, constants, read⟩ := read
  split at read
  · rename_i exactCount
    obtain ⟨rfl, rfl⟩ := pure_eq_ok_iff.mp read
    by_cases none : count = 0
    · right
      rw [none]
      rfl
    · left
      obtain ⟨added, pushed, rfl⟩ := pushed_of_readOnto constants
      have listed := constants_of_pushed pushed
      have positive : 1 ≤ count.toNat := by
        have nonzero : count.toNat ≠ 0 := fun zero => none (UInt16.toNat_inj.mp zero)
        omega
      have extent : built.table.extent = count.toNat := by rw [exactCount, Nat.max_eq_left positive]
      have empty : Pool.empty.constants = [] := rfl
      rw [toBytes, extent, ofCount_toNat, listed, empty, List.nil_append, List.append_assoc]
  · exact (fail_eq_ok_iff.mp read).elim

/-- A constant is written as many bytes as its size says. -/
theorem length_toBytes_constant (constant : Constant) :
    constant.toBytes.length = constant.byteSize := by
  cases constant with
  | utf8 bytes =>
    simp [Constant.toBytes, Constant.byteSize]
    omega
  | _ => rfl

theorem length_toBytes (pool : Pool) : pool.toBytes.length = pool.byteSize := by
  rw [toBytes, List.length_append, length_flatMap_of_sizes length_toBytes_constant,
    Bytes.length_ofCount, byteSize]

end Pool

/-- Reading flags inverts writing them. -/
theorem AccessFlags.read_reads {mask : UInt16} :
    (AccessFlags.read : Reader (AccessFlags mask)).Reads
      fun flags bytes => bytes = flags.toBytes := by
  intro input flags rest
  simp only [AccessFlags.read, bind_eq_ok_iff, u16_eq_ok_iff, ofExcept_eq_ok_iff]
  constructor
  · rintro ⟨bits, _, rfl, known, rfl⟩
    rw [AccessFlags.ofBits] at known
    split at known
    · cases known
      exact ⟨_, rfl, rfl⟩
    · cases known
  · rintro ⟨_, rfl, rfl⟩
    refine ⟨flags.bits, rest, rfl, ?_, rfl⟩
    rw [AccessFlags.ofBits, dif_pos flags.known]

theorem Version.read_reads : Version.read.Reads fun version bytes => bytes = version.toBytes := by
  intro input version rest
  simp only [Version.read, bind_eq_ok_iff, u16_eq_ok_iff, pure_eq_ok_iff]
  constructor
  · rintro ⟨minor, _, rfl, major, _, rfl, rfl, rfl⟩
    exact ⟨_, rfl, by simp [Version.toBytes]⟩
  · rintro ⟨_, rfl, rfl⟩
    exact ⟨version.minor, _, by rw [Version.toBytes, List.append_assoc], version.major, rest, rfl,
      rfl, rfl⟩

/-- A table of indices is written as it is read. -/
theorem indices_reads : (Reader.table u16).Reads fun indices bytes =>
    bytes = Bytes.ofTable Bytes.ofU16 indices ∧ indices.length < 65536 := by
  have single : u16.Reads fun index bytes => bytes = Bytes.ofU16 index := by
    intro input index rest
    rw [u16_eq_ok_iff]
    simp
  apply single.table.congr
  intro indices bytes
  simp only [sequence_iff_flatMap]
  constructor
  · rintro ⟨small, _, rfl, rfl⟩
    exact ⟨rfl, small⟩
  · rintro ⟨rfl, small⟩
    exact ⟨small, _, rfl, rfl⟩

/-- The name of a raw attribute is known, and its length has 32 bits. -/
structure Attribute.Readable (pool : Pool) (raw : Attribute) : Prop where
  named : ∃ name, pool.text raw.nameIndex = .ok name ∧ name ∈ Attribute.knownNames
  sized : raw.info.length < 4294967296

/-- The contents of an attribute are read as they are if its name is known. -/
theorem Attribute.readInfo_eq_ok_iff {nameIndex : ConstantIndex} {name : String} {raw : Attribute}
    {input rest : Bytes} :
    Attribute.readInfo nameIndex name input = .ok (raw, rest) ↔
      raw.nameIndex = nameIndex ∧ name ∈ Attribute.knownNames ∧ raw.info.length < 4294967296 ∧
        input = Bytes.ofLength raw.info.length ++ (raw.info ++ rest) := by
  rw [Attribute.readInfo]
  split
  · rename_i known
    simp only [bind_eq_ok_iff, u32_eq_ok_iff, bytes_eq_ok_iff, pure_eq_ok_iff]
    constructor
    · rintro ⟨length, _, rfl, info, _, ⟨sized, rfl⟩, rfl, rfl⟩
      obtain ⟨small, same⟩ := (ofLength_eq_ofU32_iff info.length length).mpr sized.symm
      exact ⟨rfl, known, small, by rw [same]⟩
    · rintro ⟨rfl, _, small, rfl⟩
      have exactLength : (UInt32.ofNat raw.info.length).toNat = raw.info.length :=
        UInt32.toNat_ofNat_of_lt' small
      exact ⟨UInt32.ofNat raw.info.length, _, rfl, raw.info, rest, ⟨exactLength.symm, rfl⟩, rfl, rfl⟩
  · rename_i unknown
    simp [fail_eq_ok_iff, unknown]

/-- Reading an attribute inverts writing it. -/
theorem Attribute.read_reads (pool : Pool) :
    (Attribute.read pool).Reads fun raw bytes => bytes = raw.toBytes ∧ raw.Readable pool := by
  intro input raw rest
  simp only [Attribute.read, bind_eq_ok_iff, u16_eq_ok_iff, ofExcept_eq_ok_iff,
    Attribute.readInfo_eq_ok_iff]
  constructor
  · rintro ⟨nameIndex, _, rfl, name, _, ⟨named, rfl⟩, rfl, known, small, rfl⟩
    exact ⟨_, ⟨rfl, ⟨name, named, known⟩, small⟩, by simp [Attribute.toBytes]⟩
  · rintro ⟨_, ⟨rfl, ⟨name, named, known⟩, small⟩, rfl⟩
    exact ⟨raw.nameIndex, _, by simp only [Attribute.toBytes, List.append_assoc]; rfl, name, _,
      ⟨named, rfl⟩, rfl, known, small, by simp⟩

/-- A table of rows with one form each is written as it is read. -/
theorem table_reads {A : Type} {row : Reader A} {write : A → Bytes} {valid : A → Prop}
    (reads : row.Reads fun value bytes => bytes = write value ∧ valid value) :
    (Reader.table row).Reads fun rows bytes =>
      bytes = Bytes.ofTable write rows ∧ rows.length < 65536 ∧ ∀ value ∈ rows, valid value := by
  apply reads.table.congr
  intro rows bytes
  simp only [sequence_and_iff, sequence_iff_flatMap]
  constructor
  · rintro ⟨small, contents, ⟨rfl, holds⟩, rfl⟩
    exact ⟨rfl, small, holds⟩
  · rintro ⟨rfl, small, holds⟩
    exact ⟨small, _, ⟨rfl, holds⟩, rfl⟩

theorem Field.read_reads (pool : Pool) :
    (Field.read pool).Reads fun field bytes => bytes = field.toBytes ∧
      field.attributes.length < 65536 ∧ ∀ raw ∈ field.attributes, raw.Readable pool := by
  have attributes := table_reads (Attribute.read_reads pool)
  intro input field rest
  simp only [Field.read, bind_eq_ok_iff, u16_eq_ok_iff, AccessFlags.read_reads _ _ _,
    attributes _ _ _, pure_eq_ok_iff]
  constructor
  · rintro ⟨flags, _, ⟨_, rfl, rfl⟩, name, _, rfl, descriptor, _, rfl, raws, _,
      ⟨_, ⟨rfl, holds⟩, rfl⟩, rfl, rfl⟩
    exact ⟨_, ⟨rfl, holds⟩, by simp [Field.toBytes]⟩
  · rintro ⟨_, ⟨rfl, holds⟩, rfl⟩
    refine ⟨field.flags, _, ⟨_, rfl, ?_⟩, field.nameIndex, _, rfl, field.descriptorIndex, _, rfl,
      field.attributes, rest, ⟨_, ⟨rfl, holds⟩, rfl⟩, rfl, rfl⟩
    simp only [Field.toBytes, List.append_assoc]

/-- A value is written as the bytes it was read from, with zeros in its spare bytes. -/
structure Restored (spare : List Bool) (written : Except Error Bytes) (bytes : Bytes) : Prop where
  sized : spare.length = bytes.length
  cleared : written = .ok (Bytes.clear spare bytes)

/-- Bytes without spare ones are restored as they are. -/
theorem Restored.plain {size : Nat} {bytes : Bytes} (sized : bytes.length = size) :
    Restored (List.replicate size false) (.ok bytes) bytes :=
  ⟨by rw [List.length_replicate, sized], by rw [Bytes.clear_replicate_false sized]⟩

/-- Parts that are restored one by one are restored one after the other. -/
theorem restored_sequence {A : Type} {spare : A → List Bool} {write : A → Except Error Bytes}
    {values : List A} {bytes : Bytes}
    (formed : Sequence (fun value part => Restored (spare value) (write value) part) values bytes) :
    ∃ parts, values.mapM write = .ok parts ∧
      Restored (values.flatMap spare) (.ok parts.flatten) bytes := by
  induction values generalizing bytes with
  | nil =>
    obtain rfl : bytes = [] := formed
    exact ⟨[], rfl, rfl, rfl⟩
  | cons value values inductionHypothesis =>
    obtain ⟨front, back, frontFormed, backFormed, rfl⟩ := formed
    obtain ⟨parts, written, restored⟩ := inductionHypothesis backFormed
    have rest := Except.ok.inj restored.cleared
    refine ⟨Bytes.clear (spare value) front :: parts, ?_, ?_, ?_⟩
    · rw [List.mapM_cons, frontFormed.cleared, written]
      rfl
    · rw [List.flatMap_cons, List.length_append, List.length_append, frontFormed.sized,
        restored.sized]
    · rw [List.flatten_cons, List.flatMap_cons, Bytes.clear_append frontFormed.sized, rest]

/-- The bytes of the attribute `Code` that carry no information are those of its instructions. -/
def Body.spareBytes (body : Body) : List Bool :=
  List.replicate 14 false ++ (Body.spareCode (body.laidOut.map Prod.snd) ++
    List.replicate (body.byteSize - 14 - body.encodedLength) false)

/-- The form of a body is restored but for its spare bytes. -/
theorem Body.Form.restored {pool : Pool} {body : Body} {slots : List Slot}
    {code ranges attributes : Bytes} (formed : body.Form pool slots code ranges attributes) :
    Restored body.spareBytes body.toBytes (Bytes.ofU16 body.nameIndex ++
      (Bytes.ofLength (body.payload code ranges attributes).length ++
        body.payload code ranges attributes)) := by
  have spareSize : (Body.spareCode slots).length = code.length := by
    rw [Body.length_spareCode, ← formed.compact.codeLength, formed.codeLength]
  have cleared : (Bytes.clear (Body.spareCode slots) code).length = code.length := by
    rw [Bytes.clear, List.length_zipWith, spareSize, Nat.min_self]
  have tailSize : (Bytes.ofCount body.ranges.length ++ (ranges ++
      (Bytes.ofCount body.attributes.length ++ attributes))).length =
        body.byteSize - 14 - body.encodedLength := by
    have whole := formed.payloadSize
    have length := formed.codeLength
    have encoded := formed.compact.encodedLength
    simp only [Body.payload, List.length_append, Bytes.length_ofU16, Bytes.length_ofLength,
      Bytes.length_ofCount] at whole ⊢
    rw [Body.byteSize]
    omega
  have split (middle : Bytes) (sized : middle.length = code.length) :
      Bytes.ofU16 body.nameIndex ++
        (Bytes.ofLength (body.payload code ranges attributes).length ++
          body.payload middle ranges attributes) =
      (Bytes.ofU16 body.nameIndex ++ Bytes.ofLength (body.payload code ranges attributes).length ++
        Bytes.ofU16 body.maxStack ++ Bytes.ofU16 body.maxLocals ++ Bytes.ofLength code.length) ++
        (middle ++ (Bytes.ofCount body.ranges.length ++ (ranges ++
          (Bytes.ofCount body.attributes.length ++ attributes)))) := by
    simp only [Body.payload, List.append_assoc, sized]
  rw [Body.spareBytes, formed.compact.laidOut]
  constructor
  · rw [split code rfl]
    simp only [List.length_append, List.length_replicate, spareSize, Bytes.length_ofU16,
      Bytes.length_ofLength] at tailSize ⊢
    omega
  · rw [formed.toBytes, split code rfl, split _ cleared, Bytes.clear_append (by simp),
      Bytes.clear_append spareSize, Bytes.clear_replicate_false (by simp),
      Bytes.clear_replicate_false tailSize]

/-- A successful task consumes a form of its value from the front of its input. -/
def Task.Consumes {A : Type} (task : Task Bytes A) (form : A → Bytes → Prop) : Prop :=
  ∀ input events value after, task ⟨input, events⟩ = .ok value after →
    ∃ bytes, form value bytes ∧ input = bytes ++ after.state

/-- A number of items consumes a sequence of that length. -/
theorem Task.Consumes.manyOnto {A : Type} {item : Task Bytes A} {form : A → Bytes → Prop}
    (consumes : item.Consumes form) (count : Nat) (done values : List A) (before after : Logged Bytes)
    (ran : Task.manyOnto item count done before = .ok values after) :
    ∃ more bytes, values = done.reverse ++ more ∧ more.length = count ∧
      Sequence form more bytes ∧ before.state = bytes ++ after.state := by
  induction count generalizing done before with
  | zero =>
    cases ran
    exact ⟨[], [], by simp, rfl, rfl, rfl⟩
  | succ count inductionHypothesis =>
    rw [Task.manyOnto] at ran
    split at ran
    · rename_i value middle first
      obtain ⟨more, bytes, rfl, rfl, formed, split⟩ := inductionHypothesis _ _ ran
      obtain ⟨front, frontFormed, same⟩ := consumes before.state before.events value middle first
      exact ⟨value :: more, front ++ bytes, by simp, rfl, ⟨front, bytes, frontFormed, formed, rfl⟩,
        by rw [same, split, List.append_assoc]⟩
    · cases ran

/-- A number of items consumes a sequence of that length and no more. -/
theorem Task.Consumes.many {A : Type} {item : Task Bytes A} {form : A → Bytes → Prop}
    (consumes : item.Consumes form) (count : Nat) :
    (Task.many item count).Consumes fun values bytes =>
      values.length = count ∧ Sequence form values bytes := by
  intro input events values after ran
  obtain ⟨more, bytes, rfl, counted, formed, split⟩ :=
    consumes.manyOnto count [] values ⟨input, events⟩ after ran
  exact ⟨bytes, ⟨counted, formed⟩, split⟩

namespace MethodAttribute

def spareBytes : MethodAttribute → List Bool
  | .code body => body.spareBytes
  | .other raw => List.replicate raw.byteSize false

/-- The name of an attribute tells whether it is code, which knows the method it belongs to. -/
def Legible (pool : Pool) (context : MethodContext) : MethodAttribute → Prop
  | .code body => pool.text body.nameIndex = .ok "Code" ∧ body.context = some context
  | .other raw => raw.Readable pool ∧ pool.text raw.nameIndex ≠ .ok "Code"

/-- An attribute is restored, and code is in its form. -/
structure Fresh (pool : Pool) (context : MethodContext) (entry : MethodAttribute) (bytes : Bytes) :
    Prop where
  restored : Restored entry.spareBytes entry.toBytes bytes
  formed : ∀ body, entry.body? = some body → ∃ slots code ranges attributes,
    body.Form pool slots code ranges attributes
  legible : entry.Legible pool context

theorem read_consumes (pool : Pool) (context : MethodContext) :
    (MethodAttribute.read pool context).Consumes (Fresh pool context) := by
  intro input events entry after ran
  simp only [MethodAttribute.read, Task.bind_eq_ok_iff, Task.ofReader_eq_ok_iff, u16_eq_ok_iff,
    Task.ofExcept_eq_ok_iff] at ran
  obtain ⟨nameIndex, _, ⟨_, rfl, rfl⟩, name, _, ⟨named, rfl⟩, ran⟩ := ran
  split at ran
  · rename_i codeName
    simp only [Task.bind_eq_ok_iff, Task.ofReader_eq_ok_iff, u32_eq_ok_iff, bytes_eq_ok_iff,
      Task.ofExcept_eq_ok_iff, Task.report_eq_ok_iff, Task.pure_eq_ok_iff, checkAttributeLength,
      onPayload] at ran
    obtain ⟨length, _, ⟨_, rfl, rfl⟩, payload, _, ⟨_, ⟨sized, rfl⟩, rfl⟩, ⟨body, used⟩, _,
      ⟨parsed, rfl⟩, _, _, rfl, _, _, ⟨checked, rfl⟩, rfl, rfl⟩ := ran
    split at parsed
    · rename_i left read
      cases parsed
      split at checked
      · rename_i exhausted
        obtain ⟨rfl, owned, slots, code, ranges, attributes, formed, same⟩ :=
          Body.read_eq_ok_iff.mp read
        have nothing : left = [] := by
          apply List.eq_nil_of_length_eq_zero
          rw [same, List.length_append] at exhausted sized
          omega
        rw [nothing, List.append_nil] at same
        rw [same] at sized
        have lengthForm := ((ofLength_eq_ofU32_iff _ length).mpr sized.symm).2
        refine ⟨_, ⟨formed.restored, ?_, by rw [named, codeName], owned⟩, ?_⟩
        · rintro _ ⟨⟩
          exact ⟨slots, code, ranges, attributes, formed⟩
        · rw [lengthForm, same]
          simp only [List.append_assoc]
      · cases checked
    · cases parsed
  · rename_i otherName
    simp only [Task.bind_eq_ok_iff, Task.ofReader_eq_ok_iff, Attribute.readInfo_eq_ok_iff,
      Task.pure_eq_ok_iff] at ran
    obtain ⟨raw, _, ⟨_, ⟨rfl, known, small, rfl⟩, rfl⟩, rfl, rfl⟩ := ran
    refine ⟨raw.toBytes, ⟨Restored.plain ?_, ?_, ⟨⟨name, named, known⟩, small⟩, ?_⟩, ?_⟩
    · simp [Attribute.toBytes, Attribute.byteSize]
      omega
    · rintro _ ⟨⟩
    · rw [named]
      simpa using otherName
    · simp [Attribute.toBytes]

end MethodAttribute

namespace Method

def spareBytes (method : Method) : List Bool :=
  List.replicate 8 false ++ method.attributes.flatMap MethodAttribute.spareBytes

/-- What code knows of the method it belongs to. -/
def context (pool : Pool) (classIndex : ConstantIndex) (method : Method) :
    Except Error MethodContext := do
  let descriptor ← method.descriptor pool
  let name ← method.name pool
  return {
    classIndex := classIndex
    descriptor := descriptor
    isStatic := method.flags.isStatic
    isConstructor := name = "<init>" }

/-- The name, the descriptor and the attributes of a method can be read again. -/
structure Legible (pool : Pool) (classIndex : ConstantIndex) (method : Method) : Prop where
  attributes : ∃ context, method.context pool classIndex = .ok context ∧
    ∀ entry ∈ method.attributes, entry.Legible pool context
  count : method.attributes.length < 65536

/-- A method is restored, and its code is in its form. -/
structure Fresh (pool : Pool) (classIndex : ConstantIndex) (method : Method) (bytes : Bytes) :
    Prop where
  restored : Restored method.spareBytes method.toBytes bytes
  formed : ∀ body, method.code? = some body → ∃ slots code ranges attributes,
    body.Form pool slots code ranges attributes
  legible : method.Legible pool classIndex

theorem read_consumes (pool : Pool) (classIndex : ConstantIndex) :
    (Method.read pool classIndex).Consumes (Fresh pool classIndex) := by
  intro input events method after ran
  simp only [Method.read, Task.bind_eq_ok_iff, Task.ofReader_eq_ok_iff, u16_eq_ok_iff,
    AccessFlags.read_reads _ _ _, Task.ofExcept_eq_ok_iff, Task.pure_eq_ok_iff] at ran
  obtain ⟨flags, _, ⟨_, ⟨_, rfl, rfl⟩, rfl⟩, nameIndex, _, ⟨_, rfl, rfl⟩, descriptorIndex, _,
    ⟨_, rfl, rfl⟩, descriptor, _, ⟨described, rfl⟩, name, _, ⟨named, rfl⟩, count, _, ⟨_, rfl, rfl⟩,
    attributes, _, read, rfl, rfl⟩ := ran
  obtain ⟨contents, ⟨counted, formed⟩, split⟩ :=
    (MethodAttribute.read_consumes pool _).many count.toNat _ _ _ _ read
  obtain ⟨parts, written, restored⟩ :=
    restored_sequence (formed.imp fun _ _ _ fresh => fresh.restored)
  obtain ⟨countable, lengthForm⟩ := (ofCount_eq_ofU16_iff attributes.length count).mpr counted.symm
  have legible : Legible pool classIndex ⟨flags, nameIndex, descriptorIndex, attributes⟩ := by
    refine ⟨⟨⟨classIndex, descriptor, flags.isStatic, name = "<init>"⟩, ?_, fun entry present => ?_⟩,
      countable⟩
    · simp only [Method.context, Method.descriptor, Method.name, described, named]
      rfl
    · obtain ⟨part, fresh⟩ := formed.exists_form present
      exact fresh.legible
  refine ⟨flags.toBytes ++ Bytes.ofU16 nameIndex ++ Bytes.ofU16 descriptorIndex ++
    Bytes.ofCount attributes.length ++ contents, ⟨⟨?_, ?_⟩, ?_, legible⟩, ?_⟩
  · have header : flags.toBytes.length = 2 := rfl
    have sized := restored.sized
    simp only [spareBytes, List.length_append, List.length_replicate, header, sized,
      Bytes.length_ofU16, Bytes.length_ofCount]
  · rw [Method.toBytes, written, spareBytes, Bytes.clear_append (by rfl),
      Bytes.clear_replicate_false (by rfl), ← Except.ok.inj restored.cleared]
    rfl
  · intro body found
    obtain ⟨entry, present, isCode⟩ := List.exists_of_findSome?_eq_some found
    obtain ⟨part, fresh⟩ := formed.exists_form present
    exact fresh.formed body isCode
  · rw [lengthForm, split]
    simp only [List.append_assoc]

end Method

end Classfile
