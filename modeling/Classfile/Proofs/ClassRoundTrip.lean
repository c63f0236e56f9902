import Classfile.Proofs.Acceptance
import Classfile.Proofs.Extension
import Classfile.Trace

/-!
An untouched class is written as the bytes it was read from.

Only spare bytes may differ: they are written as zero. Relaxing all bodies of a class that was just
read changes nothing, and it fails only for code that is too long for the format.
-/

namespace Classfile

open Reader

/-- The length of a body that is too long for the format. -/
def Body.overlong? (body : Body) : Option Nat :=
  if maxCodeLength < body.codeLength then some body.codeLength else none

/-- The length of the code of a method, if it is too long for the format. -/
def Method.overlong? (method : Method) : Option Nat := method.code?.bind Body.overlong?

/-- Relaxing a body in its form only checks the length of its code. -/
theorem Edit.relaxReporting_of_form {pool : Pool} {body : Body} {slots : List Slot}
    {code ranges attributes : Bytes} (formed : body.Form pool slots code ranges attributes)
    (current : Pool) (events : Array Event) :
    Edit.relaxReporting ⟨⟨body, current⟩, events⟩ =
      match body.overlong? with
      | some length => .error (.codeTooLong length) ⟨⟨body, current⟩, events⟩
      | none => .ok () ⟨⟨body, current⟩, events⟩ := by
  have relaxed := Edit.relax_of_settled current (formed.sync events) formed.oversized
  have read : Edit.body! ⟨⟨body, current⟩, events⟩ = .ok body ⟨⟨body, current⟩, events⟩ := rfl
  rw [Edit.relaxReporting, Task.bind_of_eq_ok read]
  by_cases long : maxCodeLength < body.codeLength
  · rw [if_pos long] at relaxed
    have failed : body.overlong? = some body.codeLength := by rw [Body.overlong?, if_pos long]
    rw [failed, Task.bind_of_eq_error relaxed]
  · rw [if_neg long] at relaxed
    have passed : body.overlong? = none := by rw [Body.overlong?, if_neg long]
    rw [passed, Task.bind_of_eq_ok relaxed, Task.bind_of_eq_ok read, if_neg (by simp)]
    rfl

/-- A method that is given its own body stays as it is. -/
theorem Method.setCode_self {method : Method} {body : Body} (known : method.code? = some body) :
    method.setCode body = method := by
  have replaced (attributes : List MethodAttribute)
      (found : attributes.findSome? MethodAttribute.body? = some body) :
      Method.replaceCode body attributes = attributes := by
    induction attributes with
    | nil => rfl
    | cons entry rest inductionHypothesis =>
      rw [List.findSome?_cons] at found
      cases entry with
      | code other =>
        cases found
        rfl
      | other raw => rw [Method.replaceCode, inductionHypothesis found]
  rw [Method.setCode, replaced method.attributes known]

namespace Class

theorem setCode_self {classFile : Class} {index : Nat} {body : Body}
    (known : classFile.code? index = some body) :
    classFile.setCode index ⟨body, classFile.pool⟩ = classFile := by
  obtain ⟨method, found, code⟩ := Option.bind_eq_some_iff.mp known
  have same : (classFile.methods.modify index fun method => method.setCode body) =
      classFile.methods := by
    apply Array.ext_getElem?
    intro other
    rw [Array.getElem?_modify]
    split
    · rename_i here
      rw [← here, found, Option.map_some, Method.setCode_self code]
    · rfl
  rw [setCode, same]

/-- Every body of a class is in its form. -/
def Fresh (classFile : Class) : Prop :=
  ∀ index body, classFile.code? index = some body → ∃ slots code ranges attributes,
    body.Form classFile.pool slots code ranges attributes

/-- Relaxing one body of a fresh class changes nothing. -/
theorem onCode_relaxReporting {classFile : Class} (fresh : classFile.Fresh) (index : Nat)
    (events : Array Event) :
    discard (onCode index Edit.relaxReporting) ⟨classFile, events⟩ =
      match (classFile.code? index).bind Body.overlong? with
      | some length => .error (.codeTooLong length) ⟨classFile, events⟩
      | none => .ok () ⟨classFile, events⟩ := by
  have read : (Task.read : Task Class Class) ⟨classFile, events⟩ =
      .ok classFile ⟨classFile, events⟩ := rfl
  change EStateM.map _ (onCode index Edit.relaxReporting) _ = _
  rw [EStateM.map, onCode, Task.bind_of_eq_ok read]
  cases known : classFile.code? index with
  | none => rfl
  | some body =>
    obtain ⟨slots, code, ranges, attributes, formed⟩ := fresh index body known
    have relaxed := Edit.relaxReporting_of_form formed classFile.pool events
    have unchanged := setCode_self known
    have focused : Task.focus (fun classFile => (⟨body, classFile.pool⟩ : Edit))
        (fun classFile edit => classFile.setCode index edit) Edit.relaxReporting
          ⟨classFile, events⟩ =
        match body.overlong? with
        | some length => .error (.codeTooLong length) ⟨classFile, events⟩
        | none => .ok () ⟨classFile, events⟩ := by
      rw [Task.focus, relaxed]
      cases body.overlong? with
      | none => simp only [unchanged]
      | some length => simp only [unchanged]
    rw [Option.bind_some]
    cases overlong : body.overlong? with
    | none =>
      simp only [overlong] at focused
      simp only [Task.bind_of_eq_ok focused]
      rfl
    | some length =>
      simp only [overlong] at focused
      simp only [Task.bind_of_eq_error focused]

/-- Relaxing all bodies of a fresh class only checks the lengths of their code. -/
theorem relaxAll_of_fresh {classFile : Class} (fresh : classFile.Fresh) (events : Array Event) :
    relaxAll ⟨classFile, events⟩ =
      match classFile.methods.toList.findSome? Method.overlong? with
      | some length => .error (.codeTooLong length) ⟨classFile, events⟩
      | none => .ok () ⟨classFile, events⟩ := by
  -- A fresh body is left as it is, so every body is checked against the class that was read.
  have each (indices : List Nat) :
      (indices.forM fun index => discard (onCode index Edit.relaxReporting)) ⟨classFile, events⟩ =
        match indices.findSome? fun index => (classFile.code? index).bind Body.overlong? with
        | some length => .error (.codeTooLong length) ⟨classFile, events⟩
        | none => .ok () ⟨classFile, events⟩ := by
    induction indices with
    | nil => rfl
    | cons index indices inductionHypothesis =>
      have first := onCode_relaxReporting fresh index events
      change (discard (onCode index Edit.relaxReporting) >>= fun _ => indices.forM fun index =>
        discard (onCode index Edit.relaxReporting)) ⟨classFile, events⟩ = _
      rw [List.findSome?_cons]
      cases overlong : (classFile.code? index).bind Body.overlong? with
      | none =>
        simp only [overlong] at first
        rw [Task.bind_of_eq_ok first]
        exact inductionHypothesis
      | some length =>
        simp only [overlong] at first
        rw [Task.bind_of_eq_error first]
  have read : (Task.read : Task Class Class) ⟨classFile, events⟩ =
      .ok classFile ⟨classFile, events⟩ := rfl
  have lengths : (List.range classFile.methods.size).findSome?
      (fun index => (classFile.code? index).bind Body.overlong?) =
        classFile.methods.toList.findSome? Method.overlong? := by
    rw [← Body.filterMap_range_getElem? classFile.methods.toList, ← List.head?_filterMap,
      ← List.head?_filterMap, List.filterMap_filterMap, Array.length_toList]
    congr 2
    funext index
    rw [code?, Option.bind_assoc, Array.getElem?_toList]
    rfl
  rw [relaxAll, Task.bind_of_eq_ok read, each, lengths]

/-- The number of bytes before the methods, their count included. -/
def headSize (classFile : Class) : Nat :=
  16 + classFile.pool.byteSize + 2 * classFile.interfaces.length
    + 2 + Bytes.totalSize Field.byteSize classFile.fields + 2

/-- The bytes of a class that carry no information are those of its instructions. -/
def spareBytes (classFile : Class) : List Bool :=
  List.replicate classFile.headSize false ++ (classFile.methods.toList.flatMap Method.spareBytes ++
    List.replicate (2 + Bytes.totalSize Attribute.byteSize classFile.attributes) false)

/-- A table takes two bytes for the count and the sizes of its items. -/
theorem length_ofTable {A : Type} {write : A → Bytes} {size : A → Nat}
    (sized : ∀ item, (write item).length = size item) (items : List A) :
    (Bytes.ofTable write items).length = 2 + Bytes.totalSize size items := by
  rw [Bytes.ofTable, List.length_append, length_flatMap_of_sizes sized]
  rfl

/-- An attribute is written as many bytes as its size says. -/
theorem length_attributeBytes (raw : Attribute) : raw.toBytes.length = raw.byteSize := by
  simp [Attribute.toBytes, Attribute.byteSize]
  omega

theorem length_fieldBytes (field : Field) : field.toBytes.length = field.byteSize := by
  have flags : field.flags.toBytes.length = 2 := rfl
  simp [Field.toBytes, Field.byteSize, flags, length_ofTable length_attributeBytes]
  omega

/-- The bytes before the methods, their count included. -/
def headBytes (classFile : Class) : Bytes :=
  Bytes.ofU32 magic ++ classFile.version.toBytes ++ classFile.pool.toBytes
    ++ classFile.flags.toBytes ++ Bytes.ofU16 classFile.thisClass
    ++ Bytes.ofU16 (classFile.superClass.getD 0)
    ++ Bytes.ofTable Bytes.ofU16 classFile.interfaces
    ++ Bytes.ofTable Field.toBytes classFile.fields ++ Bytes.ofCount classFile.methods.size

theorem length_headBytes (classFile : Class) : classFile.headBytes.length = classFile.headSize := by
  have versionSize : classFile.version.toBytes.length = 4 := rfl
  have flagsSize : classFile.flags.toBytes.length = 2 := rfl
  have interfaceSize := length_ofTable (fun index => Bytes.length_ofU16 index) classFile.interfaces
  rw [totalSize_const] at interfaceSize
  simp only [headBytes, headSize, List.length_append, Bytes.length_ofU32, versionSize,
    Pool.length_toBytes, flagsSize, Bytes.length_ofU16, interfaceSize,
    length_ofTable length_fieldBytes, Bytes.length_ofCount]
  omega

/-- A class whose methods are restored is restored. -/
theorem restored_of_methods {classFile : Class} {contents : Bytes}
    (formed : Sequence (fun method part => Restored method.spareBytes method.toBytes part)
      classFile.methods.toList contents) :
    Restored classFile.spareBytes classFile.toBytes
      (classFile.headBytes ++ (contents ++ Bytes.ofTable Attribute.toBytes classFile.attributes)) := by
  obtain ⟨parts, written, restored⟩ := restored_sequence formed
  have headSize := classFile.length_headBytes
  have tailSize := length_ofTable length_attributeBytes classFile.attributes
  constructor
  · rw [spareBytes, List.length_append, List.length_append, List.length_append, List.length_append,
      List.length_replicate, List.length_replicate, headSize, tailSize, restored.sized]
  · have cleared : Bytes.clear classFile.spareBytes (classFile.headBytes ++
        (contents ++ Bytes.ofTable Attribute.toBytes classFile.attributes)) =
          classFile.headBytes ++
            (parts.flatten ++ Bytes.ofTable Attribute.toBytes classFile.attributes) := by
      rw [spareBytes, Bytes.clear_append (by rw [List.length_replicate, headSize]),
        Bytes.clear_append restored.sized, Bytes.clear_replicate_false headSize,
        Bytes.clear_replicate_false tailSize, ← Except.ok.inj restored.cleared]
    rw [cleared, toBytes, written]
    simp only [bind, Except.bind, pure, Except.pure, headBytes, List.append_assoc]

/-- All that a class lists can be counted, and its names can be read again. -/
structure Legible (classFile : Class) : Prop where
  built : classFile.pool.Built
  superClass : classFile.superClass ≠ some 0
  interfaceCount : classFile.interfaces.length < 65536
  fieldCount : classFile.fields.length < 65536
  fields : ∀ field ∈ classFile.fields, field.attributes.length < 65536 ∧
    ∀ raw ∈ field.attributes, raw.Readable classFile.pool
  methodCount : classFile.methods.size < 65536
  methods : ∀ method ∈ classFile.methods.toList, method.Legible classFile.pool classFile.thisClass
  attributeCount : classFile.attributes.length < 65536
  attributes : ∀ raw ∈ classFile.attributes, raw.Readable classFile.pool

/-- The bytes after the constants and before the methods, their count included. -/
def memberBytes (classFile : Class) : Bytes :=
  classFile.flags.toBytes ++ (Bytes.ofU16 classFile.thisClass
    ++ (Bytes.ofU16 (classFile.superClass.getD 0)
      ++ (Bytes.ofTable Bytes.ofU16 classFile.interfaces
        ++ (Bytes.ofTable Field.toBytes classFile.fields ++ Bytes.ofCount classFile.methods.size))))

/-- A class is legible when it is read, and only its constants can be encoded in another way. -/
theorem parts_of_read {input : Bytes} {events : Array Event} {classFile : Class}
    {after : Logged Bytes} (ran : Class.read ⟨input, events⟩ = .ok classFile after) :
    classFile.Legible ∧ ∃ constants rest contents,
      input = Bytes.ofU32 magic ++ (classFile.version.toBytes ++ constants) ∧
      Pool.read constants = .ok (classFile.pool, rest) ∧
      rest = classFile.memberBytes ++
        (contents ++ (Bytes.ofTable Attribute.toBytes classFile.attributes ++ after.state)) ∧
      Sequence (Method.Fresh classFile.pool classFile.thisClass) classFile.methods.toList contents := by
  simp only [Class.read, Task.bind_eq_ok_iff, Task.ofReader_eq_ok_iff, u32_eq_ok_iff] at ran
  obtain ⟨found, _, ⟨_, rfl, rfl⟩, ran⟩ := ran
  split at ran
  · obtain ⟨_, _, failed, _⟩ := Task.bind_eq_ok_iff.mp ran
    exact (Task.throw_eq_ok_iff.mp failed).elim
  rename_i genuine
  have magical : found = magic := not_not.mp genuine
  simp only [Task.bind_eq_ok_iff, Task.ofReader_eq_ok_iff, Version.read_reads _ _ _, u16_eq_ok_iff,
    AccessFlags.read_reads _ _ _, indices_reads _ _ _, Task.report_eq_ok_iff,
    Task.pure_eq_ok_iff] at ran
  obtain ⟨version, _, ⟨_, ⟨_, rfl, rfl⟩, rfl⟩, pool, _, ⟨constants, readPool, rfl⟩, flags, _,
    ⟨_, ⟨_, rfl, rfl⟩, rfl⟩, thisClass, _, ⟨_, rfl, rfl⟩, superClass, _, ⟨_, rfl, rfl⟩, interfaces, _,
    ⟨_, ⟨_, ⟨rfl, interfaceCount⟩, rfl⟩, rfl⟩, fields, _, ⟨_, readFields, rfl⟩, methodCount, _,
    ⟨_, rfl, rfl⟩, methods, _, readMethods, attributes, _, ⟨_, readAttributes, rfl⟩, _, _, rfl, made,
    rfl⟩ := ran
  obtain ⟨_, ⟨rfl, fieldCount, fieldForms⟩, rfl⟩ :=
    (table_reads (Field.read_reads pool) _ _ _).mp readFields
  obtain ⟨_, ⟨rfl, attributeCount, attributeForms⟩, rest⟩ :=
    (table_reads (Attribute.read_reads pool) _ _ _).mp readAttributes
  obtain ⟨contents, ⟨methodsCounted, formed⟩, split⟩ :=
    (Method.read_consumes pool thisClass).many methodCount.toNat _ _ _ _ readMethods
  obtain ⟨countable, countForm⟩ :=
    (ofCount_eq_ofU16_iff methods.length methodCount).mpr methodsCounted.symm
  have superForm : (if superClass = 0 then none else some superClass).getD 0 = superClass := by
    split <;> simp_all
  subst made
  refine ⟨⟨Pool.built_of_read readPool, ?_, interfaceCount, fieldCount, fieldForms, countable, ?_,
    attributeCount, attributeForms⟩, _, _, contents, ?_, readPool, ?_, formed⟩
  · dsimp only
    split <;> simp_all
  · intro method present
    obtain ⟨part, fresh⟩ := formed.exists_form present
    exact fresh.legible
  · rw [magical]
  · simp only [memberBytes, superForm, List.size_toArray, countForm, split, rest, List.append_assoc]

/-- The bodies of a class are in their forms when it is read. -/
theorem fresh_of_read {input : Bytes} {events : Array Event} {classFile : Class}
    {after : Logged Bytes} (ran : Class.read ⟨input, events⟩ = .ok classFile after) :
    classFile.Fresh := by
  obtain ⟨-, _, _, contents, -, -, -, formed⟩ := parts_of_read ran
  intro index body known
  obtain ⟨method, located, code⟩ := Option.bind_eq_some_iff.mp known
  have present := Array.mem_toList_iff.mpr (Array.mem_of_getElem? located)
  obtain ⟨part, fresh⟩ := formed.exists_form present
  exact fresh.formed body code

/-- A class is restored from the bytes it is read from, and its code is in its form. -/
theorem consumes_of_read {input : Bytes} {events : Array Event} {classFile : Class}
    {after : Logged Bytes} (ran : Class.read ⟨input, events⟩ = .ok classFile after)
    (counted : (input.drop 8).take 2 ≠ [0, 0]) :
    ∃ consumed, input = consumed ++ after.state ∧
      Restored classFile.spareBytes classFile.toBytes consumed ∧ classFile.Fresh := by
  have fresh := fresh_of_read ran
  obtain ⟨-, constants, rest, contents, rfl, readPool, rfl, formed⟩ := parts_of_read ran
  rcases Pool.bytes_of_read readPool with same | zero
  · refine ⟨_, ?_, restored_of_methods (formed.imp fun _ _ _ fresh => fresh.restored), fresh⟩
    rw [same]
    simp only [headBytes, memberBytes, List.append_assoc]
  · exact (counted zero).elim

/-- A class file is restored from the bytes it is read from, before and after its bodies are
relaxed, and relaxing can only fail because the code of a method is too long. -/
theorem restored_of_read {input : Bytes} {events : Array Event} {classFile : Class}
    {after : Logged Bytes} (ran : Class.read ⟨input, events⟩ = .ok classFile after)
    (counted : (input.drop 8).take 2 ≠ [0, 0]) :
    ∃ consumed, input = consumed ++ after.state ∧
      Restored classFile.spareBytes classFile.toBytes consumed ∧
      ∀ reported : Array Event,
        (∀ relaxed, relaxAll ⟨classFile, reported⟩ = .ok () relaxed →
          Restored classFile.spareBytes relaxed.state.toBytes consumed) ∧
        (∀ error failed, relaxAll ⟨classFile, reported⟩ = .error error failed →
          ∃ length, error = .codeTooLong length) ∧
        ((∃ error failed, relaxAll ⟨classFile, reported⟩ = .error error failed) ↔
          ∃ method ∈ classFile.methods.toList, ∃ body, method.code? = some body ∧
            maxCodeLength < body.codeLength) := by
  obtain ⟨consumed, split, restored, fresh⟩ := consumes_of_read ran counted
  refine ⟨consumed, split, restored, fun reported => ?_⟩
  have relaxes := relaxAll_of_fresh fresh reported
  have overlong (method : Method) (length : Nat) : method.overlong? = some length ↔
      ∃ body, method.code? = some body ∧ maxCodeLength < body.codeLength ∧
        body.codeLength = length := by
    simp only [Method.overlong?, Option.bind_eq_some_iff, Body.overlong?]
    constructor
    · rintro ⟨body, known, long⟩
      split at long
      · rename_i exceeds
        exact ⟨body, known, exceeds, Option.some.inj long⟩
      · cases long
    · rintro ⟨body, known, exceeds, rfl⟩
      exact ⟨body, known, by rw [if_pos exceeds]⟩
  cases found : classFile.methods.toList.findSome? Method.overlong? with
  | none =>
    simp only [found] at relaxes
    rw [relaxes]
    refine ⟨?_, ?_, ?_⟩
    · rintro _ ⟨⟩
      exact restored
    · rintro _ _ ⟨⟩
    · constructor
      · rintro ⟨_, _, ⟨⟩⟩
      · rintro ⟨method, present, body, known, exceeds⟩
        have short := List.findSome?_eq_none_iff.mp found method present
        rw [(overlong method _).mpr ⟨body, known, exceeds, rfl⟩] at short
        cases short
  | some length =>
    simp only [found] at relaxes
    rw [relaxes]
    refine ⟨?_, ?_, ?_⟩
    · rintro _ ⟨⟩
    · rintro _ _ ⟨⟩
      exact ⟨length, rfl⟩
    · obtain ⟨method, present, long⟩ := List.exists_of_findSome?_eq_some found
      obtain ⟨body, known, exceeds, _⟩ := (overlong method length).mp long
      exact ⟨fun _ => ⟨method, present, body, known, exceeds⟩, fun _ => ⟨_, _, rfl⟩⟩

/-- A class whose only method has a switch with padding that is not zero. -/
def paddedSwitch : Bytes :=
  [0xCA, 0xFE, 0xBA, 0xBE, 0, 0, 0, 52, 0, 6,
    1, 0, 4, 0x43, 0x6F, 0x64, 0x65, 1, 0, 1, 0x6D, 1, 0, 3, 0x28, 0x29, 0x56,
    1, 0, 1, 0x41, 7, 0, 4,
    0, 0x21, 0, 5, 0, 0, 0, 0, 0, 0,
    0, 1, 0, 8, 0, 2, 0, 3, 0, 1,
    0, 1, 0, 0, 0, 25, 0, 1, 0, 0, 0, 0, 0, 13,
    0x03, 0xAB, 7, 7, 0, 0, 0, 11, 0, 0, 0, 0, 0xB1, 0, 0, 0, 0,
    0, 0]

set_option maxRecDepth 8000 in
theorem restored_of_read_paddedSwitch :
    ∃ classFile after consumed, Class.read ⟨paddedSwitch, #[]⟩ = .ok classFile after ∧
      paddedSwitch = consumed ++ after.state ∧
      Restored classFile.spareBytes classFile.toBytes consumed := by
  obtain ⟨classFile, after, ran⟩ :
      ∃ classFile after, Class.read ⟨paddedSwitch, #[]⟩ = .ok classFile after := by
    simp only [Class.read, Method.read, MethodAttribute.read, Body.read, Array.mapM_eq_mapM_toList]
    exact ⟨_, _, rfl⟩
  obtain ⟨consumed, split, restored, _⟩ := restored_of_read ran (by decide)
  exact ⟨classFile, after, consumed, ran, split, restored⟩

end Class

end Classfile
