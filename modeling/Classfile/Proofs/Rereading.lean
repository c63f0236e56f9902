import Classfile.Proofs.BodyRoundTrip
import Classfile.Proofs.ClassRoundTrip

/-!
A class whose layout is computed is read back from the bytes it is written as.

What is read back is the class with handles that number the instructions of each body in layout
order. It is written as the same bytes again, and relaxing it changes nothing.
-/

namespace Classfile

open Reader

namespace Body

/-- The layout of a body is computed, every branch reaches its target, and its tables can be
written. -/
structure Finished (pool : Pool) (body : Body) : Prop where
  listed : body.Listed
  wellFormed : body.WellFormed
  encodable : body.Encodable pool
  reached : body.oversized = []
  short : body.codeLength ≤ maxCodeLength
  laidOut : ∃ before : Body, Synced before body

/-- A body in its form, with zeros in all spare bytes. -/
def Exact (pool : Pool) (body : Body) : Prop :=
  ∃ slots code ranges attributes, body.Form pool slots code ranges attributes ∧
    Bytes.clear (spareCode slots) code = code ∧
    (body.payload code ranges attributes).length < 4294967296

/-- Nothing is larger than what it is part of. -/
theorem byteSize_le_totalSize {A : Type} (size : A → Nat) {items : List A} {item : A}
    (present : item ∈ items) : size item ≤ Bytes.totalSize size items := by
  induction items with
  | nil => cases present
  | cons first rest inductionHypothesis =>
    change size item ≤ size first + Bytes.totalSize size rest
    rcases List.mem_cons.mp present with rfl | later
    · exact Nat.le_add_right _ _
    · exact Nat.le_trans (inductionHypothesis later) (Nat.le_add_left _ _)

/-- The tables of a small body are small. -/
theorem tableSize_lt {body : Body} (small : body.byteSize < 2 ^ 31) :
    ∀ entry ∈ body.attributes, entry.table.byteSize < 2 ^ 32 := by
  intro entry present
  have bound := byteSize_le_totalSize CodeAttribute.byteSize present
  rw [CodeAttribute.byteSize] at bound
  rw [Body.byteSize, payloadSize] at small
  omega

/-- A finished body is written as the renumbered one, which is in its form. -/
theorem Finished.renumbered {pool : Pool} {body : Body} (finished : body.Finished pool)
    (small : body.byteSize < 2 ^ 31) :
    body.renumbered.Exact pool ∧ body.renumbered.toBytes = body.toBytes := by
  obtain ⟨before, synced⟩ := finished.laidOut
  obtain ⟨code, ranges, attributes, formed, cleared, sized, written⟩ :=
    form_renumbered synced finished.listed finished.wellFormed finished.encodable finished.reached
      finished.short (tableSize_lt small)
  refine ⟨⟨body.renumberedSlots, code, ranges, attributes, formed, cleared, ?_⟩, ?_⟩
  · rw [byteSize] at small
    omega
  · rw [formed.toBytes, cleared, written]
    rfl

end Body

theorem mapM_congr {A : Type} {first second : A → Except Error Bytes} {items : List A}
    (same : ∀ item ∈ items, first item = second item) : items.mapM first = items.mapM second := by
  have mapped (write : A → Except Error Bytes) : items.mapM write = (items.map write).mapM id := by
    rw [List.mapM_map]
    rfl
  rw [mapped, mapped, List.map_congr_left same]

namespace MethodAttribute

/-- The code of a method is renumbered, and other attributes stay. -/
def renumbered : MethodAttribute → MethodAttribute
  | .code body => .code body.renumbered
  | .other raw => .other raw

/-- A legible attribute is legible once it is renumbered. -/
theorem legible_renumbered {pool : Pool} {context : MethodContext} {entry : MethodAttribute}
    (legible : entry.Legible pool context) : entry.renumbered.Legible pool context := by
  cases entry with
  | code body => exact legible
  | other raw => exact legible

/-- The bytes of exact code are accepted. -/
theorem accepts_code {pool : Pool} {context : MethodContext} {body : Body}
    (legible : (code body).Legible pool context) (exactly : body.Exact pool) :
    ∃ bytes, body.toBytes = .ok bytes ∧
      (MethodAttribute.read pool context).Accepts bytes (.code body) := by
  obtain ⟨named, owned⟩ := legible
  obtain ⟨slots, code, ranges, attributes, formed, cleared, small⟩ := exactly
  refine ⟨_, formed.toBytes, ?_⟩
  rw [cleared]
  have exactLength : (UInt32.ofNat (body.payload code ranges attributes).length).toNat =
      (body.payload code ranges attributes).length :=
    UInt32.toNat_ofNat_of_lt' small
  have parsed : Reader.onPayload (body.payload code ranges attributes)
      (Body.read body.nameIndex pool (some context)) =
        .ok (body, (body.payload code ranges attributes).length) := by
    rw [onPayload, Body.read_eq_ok_iff.mpr ⟨rfl, owned, slots, code, ranges, attributes, formed,
      (List.append_nil _).symm⟩]
    rfl
  refine (Task.accepts_ofReader (accepts_u16 _)).bind ?_
  refine (Task.accepts_ofExcept named).andThen ?_
  rw [if_pos rfl]
  refine (Task.accepts_ofReader (accepts_u32 _)).bind ?_
  have contents := Task.accepts_ofReader (accepts_bytes (body.payload code ranges attributes))
  rw [← exactLength] at contents
  refine contents.last ?_
  refine (Task.accepts_ofExcept parsed).andThen ?_
  refine (Task.accepts_report _).andThen ?_
  refine (@Task.accepts_ofExcept _ _ () ?_).andThen (Task.accepts_pure _)
  rw [checkAttributeLength, exactLength, if_pos rfl]

/-- A legible attribute is accepted from the bytes it is written as, where code is in its form. -/
theorem accepts_read {pool : Pool} {context : MethodContext} {entry : MethodAttribute}
    (legible : entry.Legible pool context)
    (exactly : ∀ body, entry = .code body → body.Exact pool) :
    ∃ bytes, entry.toBytes = .ok bytes ∧ (MethodAttribute.read pool context).Accepts bytes entry := by
  cases entry with
  | code body => exact accepts_code legible (exactly body rfl)
  | other raw =>
    obtain ⟨⟨⟨name, named, known⟩, small⟩, notCode⟩ := legible
    refine ⟨raw.toBytes, rfl, ?_⟩
    rw [Attribute.toBytes, List.append_assoc]
    refine (Task.accepts_ofReader (accepts_u16 _)).bind ((Task.accepts_ofExcept named).andThen ?_)
    rw [if_neg (by rintro rfl; exact notCode named)]
    have info : (Attribute.readInfo raw.nameIndex name).Accepts
        (Bytes.ofLength raw.info.length ++ raw.info) raw := by
      intro rest
      exact Attribute.readInfo_eq_ok_iff.mpr ⟨rfl, known, small, List.append_assoc _ _ _⟩
    exact (Task.accepts_ofReader info).last (Task.accepts_pure _)

end MethodAttribute

namespace Method

/-- The code among the attributes is renumbered. -/
def renumbered (method : Method) : Method :=
  { method with attributes := method.attributes.map MethodAttribute.renumbered }

/-- A legible method is legible once it is renumbered. -/
theorem legible_renumbered {pool : Pool} {classIndex : ConstantIndex} {method : Method}
    (legible : method.Legible pool classIndex) : method.renumbered.Legible pool classIndex := by
  obtain ⟨context, known, entries⟩ := legible.attributes
  refine ⟨⟨context, known, ?_⟩, ?_⟩
  · intro entry present
    obtain ⟨old, member, rfl⟩ := List.mem_map.mp present
    exact MethodAttribute.legible_renumbered (entries old member)
  · rw [renumbered, List.length_map]
    exact legible.count

/-- The code of a method is among its attributes. -/
theorem mem_of_code? {method : Method} {body : Body} (known : method.code? = some body) :
    .code body ∈ method.attributes := by
  obtain ⟨entry, present, same⟩ := List.exists_of_findSome?_eq_some known
  cases entry with
  | code other =>
    cases same
    exact present
  | other raw => cases same

/-- A method is written as the renumbered one if its code is. -/
theorem toBytes_renumbered {method : Method}
    (same : ∀ body, .code body ∈ method.attributes → body.renumbered.toBytes = body.toBytes) :
    method.renumbered.toBytes = method.toBytes := by
  have attributes : method.renumbered.attributes.mapM MethodAttribute.toBytes =
      method.attributes.mapM MethodAttribute.toBytes := by
    rw [renumbered, List.mapM_map]
    refine mapM_congr fun entry present => ?_
    cases entry with
    | code body => exact same body present
    | other raw => rfl
  simp only [Method.toBytes, attributes]
  simp only [renumbered, List.length_map]

/-- Values that are accepted from the bytes they are written as are so one after the other. -/
theorem exists_sequence {A : Type} {item : Task Bytes A} {write : A → Except Error Bytes}
    {values : List A}
    (each : ∀ value ∈ values, ∃ bytes, write value = .ok bytes ∧ item.Accepts bytes value) :
    ∃ parts, values.mapM write = .ok parts ∧
      (Task.many item values.length).Accepts parts.flatten values := by
  obtain ⟨bytes, formed⟩ := sequence_of_forall each
  obtain ⟨parts, written, rfl⟩ :=
    (sequence_iff_mapM write values bytes).mp (formed.imp fun _ _ _ holds => holds.1)
  exact ⟨parts, written, Task.accepts_many (formed.imp fun _ _ _ holds => holds.2)⟩

/-- A legible method is accepted from the bytes it is written as, where its code is in its form. -/
theorem accepts_read {pool : Pool} {classIndex : ConstantIndex} {method : Method}
    (legible : method.Legible pool classIndex)
    (exactly : ∀ body, .code body ∈ method.attributes → body.Exact pool) :
    ∃ bytes, method.toBytes = .ok bytes ∧ (Method.read pool classIndex).Accepts bytes method := by
  obtain ⟨context, known, entries⟩ := legible.attributes
  obtain ⟨parts, written, accepts⟩ := exists_sequence fun entry present =>
    MethodAttribute.accepts_read (entries entry present) fun body same => exactly body (same ▸ present)
  have exactCount : (UInt16.ofNat method.attributes.length).toNat = method.attributes.length :=
    UInt16.toNat_ofNat_of_lt' legible.count
  simp only [Method.context, Method.descriptor, Method.name, exceptBind_eq_ok_iff,
    exceptPure_eq_ok_iff] at known
  obtain ⟨descriptor, described, name, named, rfl⟩ := known
  refine ⟨method.flags.toBytes ++ (Bytes.ofU16 method.nameIndex ++ (Bytes.ofU16 method.descriptorIndex ++
    (Bytes.ofCount method.attributes.length ++ parts.flatten))), ?_, ?_⟩
  · rw [Method.toBytes, written]
    simp only [bind, Except.bind, pure, Except.pure, List.append_assoc]
  · refine (Task.accepts_ofReader (AccessFlags.read_reads.reads_back rfl)).bind ?_
    refine (Task.accepts_ofReader (accepts_u16 _)).bind ?_
    refine (Task.accepts_ofReader (accepts_u16 _)).bind ?_
    refine (Task.accepts_ofExcept described).andThen ((Task.accepts_ofExcept named).andThen ?_)
    refine (Task.accepts_ofReader (accepts_u16 _)).bind ?_
    rw [exactCount]
    exact accepts.last (Task.accepts_pure _)

end Method

namespace Class

/-- The methods are renumbered. -/
def renumbered (classFile : Class) : Class :=
  { classFile with methods := classFile.methods.map Method.renumbered }

/-- A legible class is legible once it is renumbered. -/
theorem legible_renumbered {classFile : Class} (legible : classFile.Legible) :
    classFile.renumbered.Legible := by
  refine ⟨legible.built, legible.superClass, legible.interfaceCount, legible.fieldCount, legible.fields,
    ?_, ?_, legible.attributeCount, legible.attributes⟩
  · rw [renumbered, Array.size_map]
    exact legible.methodCount
  · intro method present
    rw [renumbered, Array.toList_map] at present
    obtain ⟨old, member, rfl⟩ := List.mem_map.mp present
    exact Method.legible_renumbered (legible.methods old member)

/-- A legible class is accepted from the bytes it is written as, where its code is in its form. -/
theorem accepts_read {classFile : Class} (legible : classFile.Legible)
    (exactly : ∀ method ∈ classFile.methods.toList, ∀ body, .code body ∈ method.attributes →
      body.Exact classFile.pool) :
    ∃ bytes, classFile.toBytes = .ok bytes ∧ Class.read.Accepts bytes classFile := by
  obtain ⟨parts, written, accepts⟩ := Method.exists_sequence fun method present =>
    Method.accepts_read (legible.methods method present) (exactly method present)
  have exactCount : (UInt16.ofNat classFile.methods.size).toNat = classFile.methods.toList.length :=
    UInt16.toNat_ofNat_of_lt' legible.methodCount
  have superForm : (if classFile.superClass.getD 0 = 0 then none
      else some (classFile.superClass.getD 0)) = classFile.superClass := by
    have nonzero := legible.superClass
    cases known : classFile.superClass with
    | none => rfl
    | some index =>
      rw [known] at nonzero
      exact if_neg fun zero => nonzero (congrArg some zero)
  have fields := (table_reads (Field.read_reads classFile.pool)).reads_back
    ⟨rfl, legible.fieldCount, legible.fields⟩
  have attributes := (table_reads (Attribute.read_reads classFile.pool)).reads_back
    ⟨rfl, legible.attributeCount, legible.attributes⟩
  refine ⟨Bytes.ofU32 magic ++ (classFile.version.toBytes ++ (classFile.pool.toBytes ++
    (classFile.memberBytes ++ (parts.flatten ++
      Bytes.ofTable Attribute.toBytes classFile.attributes)))), ?_, ?_⟩
  · rw [Class.toBytes, written]
    simp only [bind, Except.bind, pure, Except.pure, memberBytes, List.append_assoc]
  · simp only [memberBytes, List.append_assoc]
    refine (Task.accepts_ofReader (accepts_u32 _)).bind ?_
    rw [if_neg (by simp)]
    refine (Task.accepts_ofReader (Version.read_reads.reads_back rfl)).bind ?_
    refine (Task.accepts_ofReader legible.built.accepts_read).bind ?_
    refine (Task.accepts_ofReader (AccessFlags.read_reads.reads_back rfl)).bind ?_
    refine (Task.accepts_ofReader (accepts_u16 _)).bind ?_
    refine (Task.accepts_ofReader (accepts_u16 _)).bind ?_
    refine (Task.accepts_ofReader (indices_reads.reads_back ⟨rfl, legible.interfaceCount⟩)).bind ?_
    refine (Task.accepts_ofReader fields).bind ?_
    refine (Task.accepts_ofReader (accepts_u16 _)).bind ?_
    rw [exactCount]
    refine accepts.bind ?_
    refine (Task.accepts_ofReader attributes).last ?_
    rw [superForm, Array.toArray_toList]
    exact (Task.accepts_report _).andThen (Task.accepts_pure classFile)

/-- The bodies of a class have their layout computed, and they are small enough to be written. -/
def Finished (classFile : Class) : Prop :=
  ∀ method ∈ classFile.methods.toList, ∀ body, .code body ∈ method.attributes →
    body.Finished classFile.pool ∧ body.byteSize < 2 ^ 31

/-- A renumbered class is written as the same bytes. -/
theorem toBytes_renumbered {classFile : Class} (finished : classFile.Finished) :
    classFile.renumbered.toBytes = classFile.toBytes := by
  have methods : classFile.renumbered.methods.toList.mapM Method.toBytes =
      classFile.methods.toList.mapM Method.toBytes := by
    rw [renumbered, Array.toList_map, List.mapM_map]
    refine mapM_congr fun method present => Method.toBytes_renumbered fun body member => ?_
    obtain ⟨done, small⟩ := finished method present body member
    exact (done.renumbered small).2
  simp only [Class.toBytes, methods]
  simp only [renumbered, Array.size_map]

/-- The code of the renumbered class is the renumbered code of the class. -/
theorem Finished.renumbered {classFile : Class} (finished : classFile.Finished) {method : Method}
    (present : method ∈ classFile.renumbered.methods.toList) {body : Body}
    (member : .code body ∈ method.attributes) :
    body.Exact classFile.pool ∧ body.codeLength ≤ maxCodeLength := by
  rw [Class.renumbered, Array.toList_map] at present
  obtain ⟨old, presentOld, rfl⟩ := List.mem_map.mp present
  obtain ⟨entry, memberOld, same⟩ := List.mem_map.mp member
  cases entry with
  | code original =>
    cases same
    obtain ⟨done, small⟩ := finished old presentOld original memberOld
    exact ⟨(done.renumbered small).1, done.short⟩
  | other raw => cases same

/-- A finished class is written, and reading its bytes gives the renumbered class, which is written
as the same bytes. -/
theorem Finished.accepts_read {classFile : Class} (finished : classFile.Finished)
    (legible : classFile.Legible) :
    ∃ bytes, classFile.toBytes = .ok bytes ∧ classFile.renumbered.toBytes = .ok bytes ∧
      Class.read.Accepts bytes classFile.renumbered := by
  obtain ⟨bytes, written, accepts⟩ := Class.accepts_read (legible_renumbered legible)
    fun _ present _ member => (finished.renumbered present member).1
  exact ⟨bytes, toBytes_renumbered finished ▸ written, written, accepts⟩

/-- There is nothing to relax in the renumbered class. -/
theorem Finished.relaxAll_renumbered {classFile : Class} (finished : classFile.Finished)
    (events : Array Event) :
    relaxAll ⟨classFile.renumbered, events⟩ = .ok () ⟨classFile.renumbered, events⟩ := by
  -- The class is fresh without being read: the renumbered bodies are in the form reading gives.
  have fresh : classFile.renumbered.Fresh := by
    intro index body known
    obtain ⟨method, located, code⟩ := Option.bind_eq_some_iff.mp known
    have present := Array.mem_toList_iff.mpr (Array.mem_of_getElem? located)
    obtain ⟨slots, code, ranges, attributes, formed, -⟩ :=
      (finished.renumbered present (Method.mem_of_code? code)).1
    exact ⟨slots, code, ranges, attributes, formed⟩
  have short : classFile.renumbered.methods.toList.findSome? Method.overlong? = none := by
    refine List.findSome?_eq_none_iff.mpr fun method present => ?_
    rw [Method.overlong?, Option.bind_eq_none_iff]
    intro body code
    exact if_neg (Nat.not_lt.mpr (finished.renumbered present (Method.mem_of_code? code)).2)
  rw [relaxAll_of_fresh fresh, short]

end Class

end Classfile
