import Classfile.Proofs.Decoding
import Classfile.Proofs.FrameTags

/-!
The byte forms of the tables that accompany code.

Rows refer to code by handle, and writing takes the positions of handles from a body while reading
finds handles in decoded code. Where the two agree, a row is read exactly from the bytes it is
written as, provided that the positions it refers to have 16-bit forms.
-/

namespace Classfile

namespace Positions

/-- Positions are those at which the instructions of decoded code start. -/
def Match (positions : Positions) (code : DecodedCode) : Prop :=
  ∀ handle bci, positions handle = .ok bci ↔ code.offset? handle.index = some bci

/-- The position of a handle has a 16-bit form. -/
def Fits (positions : Positions) (handle : Handle) : Prop :=
  ∀ bci, positions handle = .ok bci → bci < 65536

/-- The position of an exclusive end has a 16-bit form. -/
def FitsStop (positions : Positions) (codeLength : Nat) (stop : Option Handle) : Prop :=
  ∀ bci, positions.ofStop codeLength stop = .ok bci → bci < 65536

variable {positions : Positions} {code : DecodedCode}

/-- The handle at a position is the one with that position. -/
theorem Match.handleAt_iff (agree : positions.Match code) (increasing : code.Increasing)
    (bci : Nat) (handle : Handle) :
    code.handleAt bci = .ok handle ↔ positions handle = .ok bci := by
  rw [DecodedCode.handleAt_eq_ok_iff increasing, agree handle bci]

theorem Match.stopAt_iff (agree : positions.Match code) (increasing : code.Increasing)
    (bci : Nat) (stop : Option Handle) :
    code.stopAt bci = .ok stop ↔ positions.ofStop code.extent stop = .ok bci := by
  rw [DecodedCode.stopAt_eq_ok_iff increasing]
  cases stop with
  | none => simp [Positions.ofStop, eq_comm]
  | some handle => simp [Positions.ofStop, agree handle bci]

end Positions

/-- A 16-bit count has the form of the number it stands for. -/
theorem ofCount_toNat (bits : UInt16) : Bytes.ofCount bits.toNat = Bytes.ofU16 bits := by
  simp [Bytes.ofCount]

open Reader

section Rows

variable {positions : Positions} {code : DecodedCode}

/-- Every position an exception range mentions has a 16-bit form, and no catch type is zero. -/
structure ExceptionRange.Writable (positions : Positions) (codeLength : Nat)
    (range : ExceptionRange) : Prop where
  start : positions.Fits range.start
  stop : positions.FitsStop codeLength range.stop
  handler : positions.Fits range.handler
  catchType : range.catchType ≠ some 0

/-- Reading a range inverts writing it. -/
theorem ExceptionRange.read_reads (agree : positions.Match code) (increasing : code.Increasing) :
    (ExceptionRange.read code).Reads fun range bytes =>
      range.toBytes positions code.extent = .ok bytes ∧ range.Writable positions code.extent := by
  intro input range rest
  simp only [ExceptionRange.read, bind_eq_ok_iff, u16_eq_ok_iff, ofExcept_eq_ok_iff,
    pure_eq_ok_iff, agree.handleAt_iff increasing, agree.stopAt_iff increasing,
    ExceptionRange.toBytes, exceptBind_eq_ok_iff, exceptPure_eq_ok_iff]
  constructor
  · rintro ⟨start, _, rfl, stop, _, rfl, handler, _, rfl, catchType, _, rfl, first, _,
      ⟨startAt, rfl⟩, second, _, ⟨stopAt, rfl⟩, third, _, ⟨handlerAt, rfl⟩, rfl, rfl⟩
    refine ⟨_, ⟨⟨_, startAt, _, stopAt, _, handlerAt, rfl⟩, ?_, ?_, ?_, ?_⟩, ?_⟩
    · intro bci found
      rw [startAt, Except.ok.injEq] at found
      exact found ▸ start.toNat_lt
    · intro bci found
      rw [stopAt, Except.ok.injEq] at found
      exact found ▸ stop.toNat_lt
    · intro bci found
      rw [handlerAt, Except.ok.injEq] at found
      exact found ▸ handler.toNat_lt
    · dsimp only
      split <;> simp_all
    · have kept : (if catchType = 0 then none else some catchType).getD 0 = catchType := by
        split <;> simp_all
      simp [ofCount_toNat, kept]
  · rintro ⟨_, ⟨⟨start, startAt, stop, stopAt, handler, handlerAt, rfl⟩, fits⟩, rfl⟩
    have startFits := fits.start _ startAt
    have stopFits := fits.stop _ stopAt
    have handlerFits := fits.handler _ handlerAt
    refine ⟨UInt16.ofNat start, _, by simp only [List.append_assoc]; rfl, UInt16.ofNat stop, _, rfl,
      UInt16.ofNat handler, _, rfl, range.catchType.getD 0, _, rfl, range.start, rest,
      ⟨by rw [UInt16.toNat_ofNat_of_lt' startFits, startAt], rfl⟩, range.stop, rest,
      ⟨by rw [UInt16.toNat_ofNat_of_lt' stopFits, stopAt], rfl⟩, range.handler, rest,
      ⟨by rw [UInt16.toNat_ofNat_of_lt' handlerFits, handlerAt], rfl⟩, ?_, rfl⟩
    have nonzero := fits.catchType
    obtain ⟨first, second, third, catchType⟩ := range
    cases catchType with
    | none => rfl
    | some index =>
      have different : index ≠ 0 := by simpa using nonzero
      simp [different]

theorem LineNumber.read_reads (agree : positions.Match code) (increasing : code.Increasing) :
    (LineNumber.read code).Reads fun entry bytes =>
      entry.toBytes positions = .ok bytes ∧ positions.Fits entry.start := by
  intro input entry rest
  simp only [LineNumber.read, bind_eq_ok_iff, u16_eq_ok_iff, ofExcept_eq_ok_iff, pure_eq_ok_iff,
    agree.handleAt_iff increasing, LineNumber.toBytes, exceptBind_eq_ok_iff, exceptPure_eq_ok_iff]
  constructor
  · rintro ⟨start, _, rfl, line, _, rfl, handle, _, ⟨startAt, rfl⟩, rfl, rfl⟩
    refine ⟨_, ⟨⟨_, startAt, rfl⟩, ?_⟩, by simp [ofCount_toNat]⟩
    intro bci found
    rw [startAt, Except.ok.injEq] at found
    exact found ▸ start.toNat_lt
  · rintro ⟨_, ⟨⟨start, startAt, rfl⟩, fits⟩, rfl⟩
    exact ⟨UInt16.ofNat start, _, by simp only [List.append_assoc]; rfl, entry.line, _, rfl,
      entry.start, rest, ⟨by rw [UInt16.toNat_ofNat_of_lt' (fits _ startAt), startAt], rfl⟩, rfl, rfl⟩

/-- A variable starts at a 16-bit position, and its range is not inverted and has a 16-bit length. -/
structure LocalVariable.Writable (positions : Positions) (codeLength : Nat)
    (entry : LocalVariable) : Prop where
  start : positions.Fits entry.start
  length : ∀ start stop, positions entry.start = .ok start →
    positions.ofStop codeLength entry.stop = .ok stop → start ≤ stop ∧ stop - start < 65536

theorem LocalVariable.read_reads (agree : positions.Match code) (increasing : code.Increasing) :
    (LocalVariable.read code).Reads fun entry bytes =>
      entry.toBytes positions code.extent = .ok bytes ∧ entry.Writable positions code.extent := by
  intro input entry rest
  simp only [LocalVariable.read, bind_eq_ok_iff, u16_eq_ok_iff, ofExcept_eq_ok_iff,
    pure_eq_ok_iff, ← Int.natCast_add, agree.handleAt_iff increasing, agree.stopAt_iff increasing,
    LocalVariable.toBytes, exceptBind_eq_ok_iff, exceptPure_eq_ok_iff]
  constructor
  · rintro ⟨start, _, rfl, length, _, rfl, first, _, ⟨startAt, rfl⟩, stop, _, ⟨stopAt, rfl⟩,
      name, _, rfl, descriptor, _, rfl, index, _, rfl, rfl, rfl⟩
    refine ⟨_, ⟨⟨_, startAt, _, stopAt, rfl⟩, ?_, ?_⟩, by simp [ofCount_toNat]⟩
    · intro bci found
      rw [startAt, Except.ok.injEq] at found
      exact found ▸ start.toNat_lt
    · intro lower upper foundStart foundStop
      rw [startAt, Except.ok.injEq] at foundStart
      rw [stopAt, Except.ok.injEq] at foundStop
      have := length.toNat_lt
      omega
  · rintro ⟨_, ⟨⟨start, startAt, stop, stopAt, rfl⟩, fits⟩, rfl⟩
    have startFits := fits.start _ startAt
    obtain ⟨ordered, lengthFits⟩ := fits.length _ _ startAt stopAt
    refine ⟨UInt16.ofNat start, _, by simp only [List.append_assoc]; rfl,
      UInt16.ofNat (stop - start), _, rfl, entry.start, _,
      ⟨by rw [UInt16.toNat_ofNat_of_lt' startFits, startAt], rfl⟩, entry.stop, _, ⟨?_, rfl⟩,
      entry.name, _, rfl, entry.descriptor, _, rfl, entry.index, _, rfl, rfl, rfl⟩
    rw [UInt16.toNat_ofNat_of_lt' startFits, UInt16.toNat_ofNat_of_lt' lengthFits, stopAt]
    congr 1
    omega

/-- The creator of an uninitialized object has a 16-bit position. -/
def VerificationType.Writable (positions : Positions) (type : VerificationType) : Prop :=
  ∀ creator, type.creator? = some creator → positions.Fits creator

/-- A type without a creator can be read back. -/
theorem VerificationType.writable_of_creator? {type : VerificationType}
    (none : type.creator? = none) : type.Writable positions := by
  intro creator found
  rw [none] at found
  cases found

theorem VerificationType.read_reads (agree : positions.Match code) (increasing : code.Increasing) :
    (VerificationType.read code).Reads fun type bytes =>
      type.toBytes positions = .ok bytes ∧ type.Writable positions := by
  intro input type rest
  constructor
  · intro accepted
    rw [VerificationType.read, bind_eq_ok_iff] at accepted
    obtain ⟨tag, middle, first, accepted⟩ := accepted
    rw [u8_eq_ok_iff] at first
    subst first
    have plain (tag : UInt8) (type : VerificationType)
        (written : type.toBytes positions = .ok [tag]) (none : type.creator? = none) :
        ∃ bytes, (type.toBytes positions = .ok bytes ∧ type.Writable positions) ∧
          tag :: rest = bytes ++ rest :=
      ⟨[tag], ⟨written, writable_of_creator? none⟩, rfl⟩
    split at accepted
    iterate 7
      obtain ⟨rfl, rfl⟩ := pure_eq_ok_iff.mp accepted
      exact plain _ _ rfl rfl
    · simp only [bind_eq_ok_iff, u16_eq_ok_iff, pure_eq_ok_iff] at accepted
      obtain ⟨index, _, rfl, rfl, rfl⟩ := accepted
      exact ⟨_, ⟨rfl, writable_of_creator? rfl⟩, rfl⟩
    · simp only [bind_eq_ok_iff, u16_eq_ok_iff, ofExcept_eq_ok_iff, pure_eq_ok_iff,
        agree.handleAt_iff increasing] at accepted
      obtain ⟨bits, _, rfl, creator, _, ⟨found, rfl⟩, rfl, rfl⟩ := accepted
      refine ⟨8 :: Bytes.ofU16 bits, ⟨?_, ?_⟩, rfl⟩
      · simp only [VerificationType.toBytes, found, ← ofCount_toNat]
        rfl
      · rintro _ ⟨⟩ bci same
        rw [found, Except.ok.injEq] at same
        exact same ▸ bits.toNat_lt
    · simp [fail_eq_ok_iff] at accepted
  · rintro ⟨bytes, ⟨written, fits⟩, rfl⟩
    cases type with
    | object classIndex =>
      cases written
      rw [List.cons_append, VerificationType.read, bind_of_eq_ok (u8_eq_ok_iff.mpr rfl)]
      change (do return VerificationType.object (← Reader.u16)) (Bytes.ofU16 classIndex ++ rest) = _
      rw [bind_of_eq_ok (u16_eq_ok_iff.mpr rfl)]
      rfl
    | uninitialized creator =>
      simp only [VerificationType.toBytes, exceptBind_eq_ok_iff, exceptPure_eq_ok_iff] at written
      obtain ⟨bci, found, rfl⟩ := written
      have small := fits creator rfl bci found
      have located := (agree.handleAt_iff increasing _ _).mpr found
      rw [List.cons_append, VerificationType.read, bind_of_eq_ok (u8_eq_ok_iff.mpr rfl)]
      change (do
        let creator ← Reader.u16
        return VerificationType.uninitialized
          (← Reader.ofExcept (code.handleAt creator.toNat))) (Bytes.ofCount bci ++ rest) = _
      rw [Bytes.ofCount, bind_of_eq_ok (u16_eq_ok_iff.mpr rfl), UInt16.toNat_ofNat_of_lt' small,
        bind_of_eq_ok (ofExcept_eq_ok_iff.mpr ⟨located, rfl⟩)]
      rfl
    | _ =>
      cases written
      rfl

/-- The types of a frame have 16-bit positions, and so do the counts of a full frame. -/
structure FrameKind.Writable (positions : Positions) (kind : FrameKind) : Prop where
  types : ∀ type ∈ kind.types, type.Writable positions
  counts : ∀ locals stack, kind = .full locals stack → locals.length < 65536 ∧ stack.length < 65536

/-- Types are written as their encodings one after the other. -/
theorem VerificationType.listToBytes_eq_ok_iff (types : List VerificationType) (bytes : Bytes) :
    VerificationType.listToBytes positions types = .ok bytes ↔
      Sequence (fun type part => type.toBytes positions = .ok part) types bytes := by
  rw [sequence_iff_mapM, VerificationType.listToBytes, exceptBind_eq_ok_iff]
  simp only [exceptPure_eq_ok_iff]
  exact exists_congr fun parts => and_congr_right' eq_comm

/-- A sequence of types that can be read back consists of such types. -/
theorem VerificationType.sequence_iff (types : List VerificationType) (bytes : Bytes) :
    Sequence (fun type part => type.toBytes positions = .ok part ∧ type.Writable positions) types
        bytes ↔
      VerificationType.listToBytes positions types = .ok bytes ∧
        ∀ type ∈ types, type.Writable positions := by
  rw [sequence_and_iff, VerificationType.listToBytes_eq_ok_iff]

/-- The operands of a frame contain its types. -/
theorem FrameKind.exists_typeBytes {delta : UInt16} {kind : FrameKind} {operands : Bytes}
    (written : kind.operandBytes positions delta = .ok operands) {type : VerificationType}
    (present : type ∈ kind.types) : ∃ part, type.toBytes positions = .ok part := by
  have listed {types : List VerificationType} {contents : Bytes} (member : type ∈ types)
      (typesWritten : VerificationType.listToBytes positions types = .ok contents) :
      ∃ part, type.toBytes positions = .ok part :=
    ((VerificationType.listToBytes_eq_ok_iff types contents).mp typesWritten).exists_form member
  cases kind with
  | same | chop | sameExtended => cases present
  | oneItem item =>
    rw [List.mem_singleton.mp present]
    exact ⟨operands, written⟩
  | oneItemExtended item =>
    obtain ⟨part, itemWritten, _⟩ := exceptBind_eq_ok_iff.mp written
    rw [List.mem_singleton.mp present]
    exact ⟨part, itemWritten⟩
  | append added =>
    obtain ⟨part, addedWritten, _⟩ := exceptBind_eq_ok_iff.mp written
    exact listed present addedWritten
  | full locals stack =>
    simp only [operandBytes, exceptBind_eq_ok_iff] at written
    obtain ⟨_, localsWritten, _, stackWritten, _⟩ := written
    rcases List.mem_append.mp present with inLocals | inStack
    · exact listed inLocals localsWritten
    · exact listed inStack stackWritten

/-- Bytes are a form of the delta and encoding of a frame, wherever the frame is. -/
def FrameKind.Form (positions : Positions) (delta : UInt16) (kind : FrameKind) (bytes : Bytes) :
    Prop :=
  (∀ target, Frame.toBytes positions ⟨target, delta, kind⟩ = .ok bytes) ∧ kind.Writable positions

/-- An encoding that is not full can be read back if its types can. -/
theorem FrameKind.Writable.of_types {kind : FrameKind}
    (types : ∀ type ∈ kind.types, type.Writable positions)
    (partial' : ∀ locals stack, kind ≠ .full locals stack) : kind.Writable positions :=
  ⟨types, fun locals stack same => (partial' locals stack same).elim⟩

/-- The form of an encoding is its tag, followed by its operands. -/
theorem FrameKind.form_iff {delta : UInt16} {kind : FrameKind} {bytes : Bytes} :
    kind.Form positions delta bytes ↔ ∃ tag operands, tag.Valid ∧ (kind.tag delta = tag ∧
      kind.operandBytes positions delta = .ok operands ∧ kind.Writable positions) ∧
      bytes = tag.byte :: operands := by
  constructor
  · rintro ⟨written, writable⟩
    obtain ⟨valid, operands, operandsWritten, rfl⟩ := Frame.toBytes_eq_ok_iff.mp (written ⟨0⟩)
    exact ⟨_, operands, valid, ⟨rfl, operandsWritten, writable⟩, rfl⟩
  · rintro ⟨_, operands, valid, ⟨rfl, operandsWritten, writable⟩, rfl⟩
    exact ⟨fun _ => Frame.toBytes_eq_ok_iff.mpr ⟨valid, operands, operandsWritten, rfl⟩, writable⟩

/-- What is read after a tag is a frame with this tag and its operands. -/
theorem FrameTag.operands_of_read (agree : positions.Match code) (increasing : code.Increasing)
    {tag : FrameTag} {input rest : Bytes} {delta : UInt16} {kind : FrameKind}
    (accepted : tag.read code input = .ok ((delta, kind), rest)) :
    ∃ operands, (kind.tag delta = tag ∧ kind.operandBytes positions delta = .ok operands ∧
      kind.Writable positions) ∧ input = operands ++ rest := by
  have types := VerificationType.read_reads agree increasing
  cases tag with
  | same =>
    simp only [FrameTag.read, pure_eq_ok_iff, Prod.mk.injEq] at accepted
    obtain ⟨⟨rfl, rfl⟩, rfl⟩ := accepted
    exact ⟨[], ⟨rfl, rfl, .of_types (by simp [FrameKind.types]) (by simp)⟩, rfl⟩
  | chop | sameExtended =>
    simp only [FrameTag.read, bind_eq_ok_iff, u16_eq_ok_iff, pure_eq_ok_iff, Prod.mk.injEq]
      at accepted
    obtain ⟨bits, _, rfl, ⟨rfl, rfl⟩, rfl⟩ := accepted
    exact ⟨Bytes.ofU16 bits, ⟨rfl, rfl, .of_types (by simp [FrameKind.types]) (by simp)⟩, rfl⟩
  | oneItem room =>
    simp only [FrameTag.read, bind_eq_ok_iff, pure_eq_ok_iff, Prod.mk.injEq] at accepted
    obtain ⟨item, _, readItem, ⟨rfl, rfl⟩, rfl⟩ := accepted
    obtain ⟨operands, ⟨written, writable⟩, rfl⟩ := (types _ _ _).mp readItem
    exact ⟨operands, ⟨rfl, written, .of_types (by simpa [FrameKind.types] using writable)
      (by simp)⟩, rfl⟩
  | oneItemExtended =>
    simp only [FrameTag.read, bind_eq_ok_iff, u16_eq_ok_iff, pure_eq_ok_iff, Prod.mk.injEq]
      at accepted
    obtain ⟨bits, _, rfl, item, _, readItem, ⟨rfl, rfl⟩, rfl⟩ := accepted
    obtain ⟨itemBytes, ⟨written, writable⟩, rfl⟩ := (types _ _ _).mp readItem
    refine ⟨Bytes.ofU16 bits ++ itemBytes, ⟨rfl, ?_, .of_types
      (by simpa [FrameKind.types] using writable) (by simp)⟩, by simp⟩
    simp only [FrameKind.operandBytes, written]
    rfl
  | append count =>
    simp only [FrameTag.read, bind_eq_ok_iff, u16_eq_ok_iff, pure_eq_ok_iff, Prod.mk.injEq]
      at accepted
    obtain ⟨bits, _, rfl, added, _, readAdded, ⟨rfl, rfl⟩, rfl⟩ := accepted
    obtain ⟨addedBytes, ⟨rfl, formed⟩, rfl⟩ := (types.many _ _ _ _).mp readAdded
    obtain ⟨written, writable⟩ := (VerificationType.sequence_iff _ _).mp formed
    refine ⟨Bytes.ofU16 bits ++ addedBytes, ⟨rfl, ?_, .of_types
      (by simpa [FrameKind.types] using writable) (by simp)⟩, by simp⟩
    simp only [FrameKind.operandBytes, written]
    rfl
  | full =>
    simp only [FrameTag.read, bind_eq_ok_iff, u16_eq_ok_iff, pure_eq_ok_iff, Prod.mk.injEq]
      at accepted
    obtain ⟨bits, _, rfl, locals, _, readLocals, stack, _, readStack, ⟨rfl, rfl⟩, rfl⟩ := accepted
    obtain ⟨_, ⟨localsSmall, localBytes, localsFormed, rfl⟩, rfl⟩ :=
      (types.table _ _ _).mp readLocals
    obtain ⟨_, ⟨stackSmall, stackBytes, stackFormed, rfl⟩, rfl⟩ := (types.table _ _ _).mp readStack
    obtain ⟨localsWritten, localsWritable⟩ := (VerificationType.sequence_iff _ _).mp localsFormed
    obtain ⟨stackWritten, stackWritable⟩ := (VerificationType.sequence_iff _ _).mp stackFormed
    refine ⟨Bytes.ofU16 bits ++ Bytes.ofCount locals.length ++ localBytes
      ++ Bytes.ofCount stack.length ++ stackBytes, ⟨rfl, ?_, ?_, ?_⟩, by simp⟩
    · simp only [FrameKind.operandBytes, localsWritten, stackWritten]
      rfl
    · intro type present
      rcases List.mem_append.mp present with inLocals | inStack
      · exact localsWritable type inLocals
      · exact stackWritable type inStack
    · rintro _ _ ⟨⟩
      exact ⟨localsSmall, stackSmall⟩

/-- The operands of a frame are read back after its tag. -/
theorem FrameTag.read_operands (agree : positions.Match code) (increasing : code.Increasing)
    {delta : UInt16} {kind : FrameKind} {operands : Bytes}
    (written : kind.operandBytes positions delta = .ok operands) (writable : kind.Writable positions)
    (rest : Bytes) : (kind.tag delta).read code (operands ++ rest) = .ok ((delta, kind), rest) := by
  have types := VerificationType.read_reads agree increasing
  have single {item : VerificationType} {part : Bytes} (present : item ∈ kind.types)
      (itemWritten : item.toBytes positions = .ok part) :
      VerificationType.read code (part ++ rest) = .ok (item, rest) :=
    types.reads_back ⟨itemWritten, writable.types item present⟩ rest
  have table {items : List VerificationType} {part : Bytes} (present : items ⊆ kind.types)
      (small : items.length < 65536)
      (listed : VerificationType.listToBytes positions items = .ok part) (rest : Bytes) :
      Reader.table (VerificationType.read code) (Bytes.ofCount items.length ++ part ++ rest) =
        .ok (items, rest) :=
    types.table.reads_back ⟨small, part, (VerificationType.sequence_iff items part).mpr
      ⟨listed, fun type member => writable.types type (present member)⟩, rfl⟩ rest
  cases kind with
  | same =>
    cases written
    rfl
  | chop | sameExtended =>
    cases written
    exact bind_of_eq_ok (u16_eq_ok_iff.mpr rfl)
  | oneItem item => exact bind_of_eq_ok (single (by simp [FrameKind.types]) written)
  | oneItemExtended item =>
    simp only [FrameKind.operandBytes, exceptBind_eq_ok_iff, exceptPure_eq_ok_iff] at written
    obtain ⟨part, itemWritten, rfl⟩ := written
    rw [FrameKind.tag, FrameTag.read, List.append_assoc, bind_of_eq_ok (u16_eq_ok_iff.mpr rfl)]
    exact bind_of_eq_ok (single (by simp [FrameKind.types]) itemWritten)
  | append added =>
    simp only [FrameKind.operandBytes, exceptBind_eq_ok_iff, exceptPure_eq_ok_iff] at written
    obtain ⟨part, listed, rfl⟩ := written
    have formed := (VerificationType.sequence_iff added part).mpr ⟨listed, writable.types⟩
    rw [FrameKind.tag, FrameTag.read, List.append_assoc, bind_of_eq_ok (u16_eq_ok_iff.mpr rfl)]
    exact bind_of_eq_ok ((types.many added.length).reads_back ⟨rfl, formed⟩ rest)
  | full locals stack =>
    simp only [FrameKind.operandBytes, exceptBind_eq_ok_iff, exceptPure_eq_ok_iff] at written
    obtain ⟨localPart, localsListed, stackPart, stackListed, rfl⟩ := written
    obtain ⟨localsSmall, stackSmall⟩ := writable.counts locals stack rfl
    have readLocals := table (List.subset_append_left locals stack) localsSmall localsListed
      (Bytes.ofCount stack.length ++ stackPart ++ rest)
    have readStack := table (List.subset_append_right locals stack) stackSmall stackListed rest
    simp only [List.append_assoc] at readLocals readStack ⊢
    rw [FrameKind.tag, FrameTag.read, bind_of_eq_ok (u16_eq_ok_iff.mpr rfl),
      bind_of_eq_ok readLocals]
    exact bind_of_eq_ok readStack

/-- Reading an encoding inverts writing it. -/
theorem Frame.readKind_reads (agree : positions.Match code) (increasing : code.Increasing) :
    (Frame.readKind code).Reads fun pair bytes => pair.2.Form positions pair.1 bytes := by
  have reads (tag : FrameTag) : (tag.read code).Reads fun pair operands => pair.2.tag pair.1 = tag ∧
      pair.2.operandBytes positions pair.1 = .ok operands ∧ pair.2.Writable positions := by
    rintro input ⟨delta, kind⟩ rest
    constructor
    · exact FrameTag.operands_of_read agree increasing
    · rintro ⟨operands, ⟨rfl, written, writable⟩, rfl⟩
      exact FrameTag.read_operands agree increasing written writable rest
  rw [Frame.readKind_eq]
  exact (FrameTag.dispatch_reads reads).congr fun _ _ => FrameKind.form_iff.symm

/-- The deltas of frames lead from each frame to the position of the next. -/
def Frame.Chained (positions : Positions) : Option Nat → List Frame → Prop
  | _, [] => True
  | previous, frame :: frames =>
    positions frame.target = .ok (Frame.position previous frame.delta) ∧
      Chained positions (some (Frame.position previous frame.delta)) frames

/-- Reading one more frame reads the frame at its delta and then the others. -/
theorem Frame.readOnto_succ_eq_ok_iff {count : Nat} {previous : Option Nat} {done : List Frame}
    {input : Bytes} {result : List Frame × Bytes} :
    Frame.readOnto code (count + 1) previous done input = .ok result ↔
      ∃ delta kind middle target, Frame.readKind code input = .ok ((delta, kind), middle) ∧
        code.handleAt (Frame.position previous delta) = .ok target ∧
        Frame.readOnto code count (some (Frame.position previous delta))
          (⟨target, delta, kind⟩ :: done) middle = .ok result := by
  rw [Frame.readOnto]
  cases Frame.readKind code input with
  | error error => simp
  | ok read =>
    obtain ⟨⟨delta, kind⟩, middle⟩ := read
    cases located : code.handleAt (Frame.position previous delta) with
    | error error => simp [located]
    | ok target => simp [located]

/-- Reading a number of frames reads a chain of that length. -/
theorem Frame.readOnto_eq_ok_iff (agree : positions.Match code) (increasing : code.Increasing)
    (count : Nat) (previous : Option Nat) (done frames : List Frame) (input rest : Bytes) :
    Frame.readOnto code count previous done input = .ok (frames, rest) ↔
      ∃ more bytes, frames = done.reverse ++ more ∧ more.length = count ∧
        Frame.Chained positions previous more ∧
        Sequence (fun frame part => frame.kind.Form positions frame.delta part) more bytes ∧
        input = bytes ++ rest := by
  have kinds := Frame.readKind_reads agree increasing
  induction count generalizing previous done input with
  | zero =>
    simp only [Frame.readOnto, Except.ok.injEq, Prod.mk.injEq, List.length_eq_zero_iff]
    constructor
    · rintro ⟨rfl, rfl⟩
      exact ⟨[], [], by simp, rfl, trivial, rfl, rfl⟩
    · rintro ⟨more, bytes, rfl, rfl, _, rfl, rfl⟩
      simp
  | succ count inductionHypothesis =>
    rw [Frame.readOnto_succ_eq_ok_iff]
    constructor
    · rintro ⟨delta, kind, middle, target, first, located, read⟩
      obtain ⟨more, bytes, rfl, rfl, chained, formed, rfl⟩ := (inductionHypothesis _ _ _).mp read
      obtain ⟨front, frontFormed, rfl⟩ := (kinds _ _ _).mp first
      exact ⟨⟨target, delta, kind⟩ :: more, front ++ bytes, by simp, rfl,
        ⟨(agree.handleAt_iff increasing _ _).mp located, chained⟩,
        ⟨front, bytes, frontFormed, formed, rfl⟩, by simp⟩
    · rintro ⟨more, bytes, rfl, counted, chained, formed, rfl⟩
      cases more with
      | nil => simp at counted
      | cons frame more =>
        obtain ⟨front, back, frontFormed, backFormed, rfl⟩ := formed
        obtain ⟨target, delta, kind⟩ := frame
        have first := (kinds _ (delta, kind) (back ++ rest)).mpr ⟨front, frontFormed, rfl⟩
        have located := (agree.handleAt_iff increasing _ _).mpr chained.1
        rw [List.append_assoc]
        refine ⟨delta, kind, back ++ rest, target, first, located, ?_⟩
        exact (inductionHypothesis _ _ _).mpr
          ⟨more, back, by simp, by simpa using counted, chained.2, backFormed, rfl⟩

/-- Reading a table of frames reads their count and then the chain. -/
theorem Frame.readTable_reads (agree : positions.Match code) (increasing : code.Increasing) :
    (Frame.readTable code).Reads fun frames bytes =>
      (frames.length < 65536 ∧ Frame.Chained positions none frames) ∧
        ∃ contents,
          Sequence (fun frame part => frame.kind.Form positions frame.delta part) frames contents ∧
          bytes = Bytes.ofCount frames.length ++ contents := by
  intro input frames rest
  simp only [Frame.readTable, bind_eq_ok_iff, u16_eq_ok_iff,
    Frame.readOnto_eq_ok_iff agree increasing]
  constructor
  · rintro ⟨count, _, rfl, more, contents, rfl, counted, chained, formed, rfl⟩
    obtain ⟨small, same⟩ := (ofCount_eq_ofU16_iff _ count).mpr counted.symm
    exact ⟨_, ⟨⟨small, chained⟩, contents, formed, rfl⟩, by simp [same]⟩
  · rintro ⟨_, ⟨⟨small, chained⟩, contents, formed, rfl⟩, rfl⟩
    exact ⟨UInt16.ofNat frames.length, contents ++ rest, by simp [Bytes.ofCount], frames, contents,
      by simp, (UInt16.toNat_ofNat_of_lt' small).symm, chained, formed, rfl⟩

/-- The rows of a table are written one after the other. -/
theorem CodeTable.rowsToBytes_eq_ok_iff {A : Type} (row : A → Except Error Bytes) (rows : List A)
    (bytes : Bytes) :
    CodeTable.rowsToBytes row rows = .ok bytes ↔
      ∃ contents, Sequence (fun value part => row value = .ok part) rows contents ∧
        bytes = Bytes.ofCount rows.length ++ contents := by
  simp only [CodeTable.rowsToBytes, exceptBind_eq_ok_iff, exceptPure_eq_ok_iff, sequence_iff_mapM]
  constructor
  · rintro ⟨parts, written, rfl⟩
    exact ⟨_, ⟨parts, written, rfl⟩, rfl⟩
  · rintro ⟨_, ⟨parts, written, rfl⟩, rfl⟩
    exact ⟨parts, written, rfl⟩

/-- Reading a table inverts writing it if reading a row does. -/
theorem rows_reads {A : Type} {row : Reader A} {write : A → Except Error Bytes} {valid : A → Prop}
    (reads : row.Reads fun value bytes => write value = .ok bytes ∧ valid value) :
    (Reader.table row).Reads fun rows bytes =>
      CodeTable.rowsToBytes write rows = .ok bytes ∧
        rows.length < 65536 ∧ ∀ value ∈ rows, valid value := by
  apply reads.table.congr
  intro rows bytes
  simp only [CodeTable.rowsToBytes_eq_ok_iff, sequence_and_iff]
  constructor
  · rintro ⟨small, contents, ⟨formed, holds⟩, rfl⟩
    exact ⟨⟨contents, formed, rfl⟩, small, holds⟩
  · rintro ⟨⟨contents, formed, rfl⟩, small, holds⟩
    exact ⟨small, contents, ⟨formed, holds⟩, rfl⟩

/-- The name of the attribute that holds a table. -/
def CodeTable.name : CodeTable → String
  | .frames _ => "StackMapTable"
  | .lines _ => "LineNumberTable"
  | .variables _ => "LocalVariableTable"
  | .variableTypes _ => "LocalVariableTypeTable"

/-- All that a table mentions has a form in the file. -/
def CodeTable.Writable (positions : Positions) (codeLength : Nat) : CodeTable → Prop
  | .frames entries => (entries.length < 65536 ∧ Frame.Chained positions none entries) ∧
      ∀ frame ∈ entries, frame.kind.Writable positions
  | .lines entries => entries.length < 65536 ∧ ∀ entry ∈ entries, positions.Fits entry.start
  | .variables entries | .variableTypes entries =>
    entries.length < 65536 ∧ ∀ entry ∈ entries, entry.Writable positions codeLength

/-- Reading a table of frames inverts writing it. -/
theorem Frame.frames_reads (agree : positions.Match code) (increasing : code.Increasing) :
    (Frame.readTable code).Reads fun frames bytes =>
      CodeTable.rowsToBytes (Frame.toBytes positions) frames = .ok bytes ∧
        (CodeTable.frames frames).Writable positions code.extent := by
  apply (Frame.readTable_reads agree increasing).congr
  intro frames bytes
  have forms (frame : Frame) (part : Bytes) : frame.kind.Form positions frame.delta part ↔
      frame.toBytes positions = .ok part ∧ frame.kind.Writable positions :=
    ⟨fun formed => ⟨formed.1 frame.target, formed.2⟩, fun holds => ⟨fun _ => holds.1, holds.2⟩⟩
  simp only [CodeTable.rowsToBytes_eq_ok_iff, CodeTable.Writable, forms, sequence_and_iff]
  constructor
  · rintro ⟨whole, contents, ⟨formed, holds⟩, rfl⟩
    exact ⟨⟨contents, formed, rfl⟩, whole, holds⟩
  · rintro ⟨⟨contents, formed, rfl⟩, whole, holds⟩
    exact ⟨whole, contents, ⟨formed, holds⟩, rfl⟩

/-- A type is written as many bytes as its size says. -/
theorem VerificationType.length_toBytes {type : VerificationType} {bytes : Bytes}
    (written : type.toBytes positions = .ok bytes) : bytes.length = type.byteSize := by
  cases type with
  | uninitialized creator =>
    simp only [VerificationType.toBytes, exceptBind_eq_ok_iff, exceptPure_eq_ok_iff] at written
    obtain ⟨bci, _, rfl⟩ := written
    rfl
  | _ =>
    cases written
    rfl

theorem VerificationType.length_listToBytes {types : List VerificationType} {bytes : Bytes}
    (written : VerificationType.listToBytes positions types = .ok bytes) :
    bytes.length = Bytes.totalSize VerificationType.byteSize types :=
  ((VerificationType.listToBytes_eq_ok_iff types bytes).mp written).length_eq
    fun _ _ => VerificationType.length_toBytes

theorem Frame.length_toBytes {frame : Frame} {bytes : Bytes}
    (written : frame.toBytes positions = .ok bytes) : bytes.length = frame.byteSize := by
  obtain ⟨_, operands, operandsWritten, rfl⟩ := Frame.toBytes_eq_ok_iff.mp written
  obtain ⟨target, delta, kind⟩ := frame
  cases kind with
  | same | chop | sameExtended =>
    cases operandsWritten
    rfl
  | oneItem item =>
    have sized := VerificationType.length_toBytes operandsWritten
    simp [Frame.byteSize, FrameKind.byteSize, FrameKind.types, Bytes.totalSize, sized]
    omega
  | oneItemExtended item =>
    simp only [FrameKind.operandBytes, exceptBind_eq_ok_iff, exceptPure_eq_ok_iff]
      at operandsWritten
    obtain ⟨part, itemWritten, rfl⟩ := operandsWritten
    have sized := VerificationType.length_toBytes itemWritten
    simp [Frame.byteSize, FrameKind.byteSize, FrameKind.types, Bytes.totalSize, sized]
    omega
  | append added =>
    simp only [FrameKind.operandBytes, exceptBind_eq_ok_iff, exceptPure_eq_ok_iff]
      at operandsWritten
    obtain ⟨part, listed, rfl⟩ := operandsWritten
    have sized := VerificationType.length_listToBytes listed
    simp [Frame.byteSize, FrameKind.byteSize, FrameKind.types, sized]
    omega
  | full locals stack =>
    simp only [FrameKind.operandBytes, exceptBind_eq_ok_iff, exceptPure_eq_ok_iff]
      at operandsWritten
    obtain ⟨localPart, localsListed, stackPart, stackListed, rfl⟩ := operandsWritten
    have localsSized := VerificationType.length_listToBytes localsListed
    have stackSized := VerificationType.length_listToBytes stackListed
    simp [Frame.byteSize, FrameKind.byteSize, FrameKind.types, totalSize_append, localsSized,
      stackSized]
    omega

theorem LineNumber.length_toBytes {entry : LineNumber} {bytes : Bytes}
    (written : entry.toBytes positions = .ok bytes) : bytes.length = 4 := by
  simp only [LineNumber.toBytes, exceptBind_eq_ok_iff, exceptPure_eq_ok_iff] at written
  obtain ⟨start, _, rfl⟩ := written
  rfl

theorem LocalVariable.length_toBytes {codeLength : Nat} {entry : LocalVariable} {bytes : Bytes}
    (written : entry.toBytes positions codeLength = .ok bytes) : bytes.length = 10 := by
  simp only [LocalVariable.toBytes, exceptBind_eq_ok_iff, exceptPure_eq_ok_iff] at written
  obtain ⟨start, _, stop, _, rfl⟩ := written
  rfl

/-- Rows are written as two bytes for their number and as many as their sizes say. -/
theorem CodeTable.length_rowsToBytes {A : Type} {row : A → Except Error Bytes} {size : A → Nat}
    {rows : List A} {bytes : Bytes} (written : CodeTable.rowsToBytes row rows = .ok bytes)
    (sized : ∀ value part, row value = .ok part → part.length = size value) :
    bytes.length = 2 + Bytes.totalSize size rows := by
  obtain ⟨contents, formed, rfl⟩ := (CodeTable.rowsToBytes_eq_ok_iff row rows bytes).mp written
  rw [List.length_append, Bytes.length_ofCount, formed.length_eq sized]

/-- A table is written in as many bytes as its size says. -/
theorem CodeTable.length_toBytes {codeLength : Nat} {table : CodeTable} {bytes : Bytes}
    (written : table.toBytes positions codeLength = .ok bytes) : bytes.length = table.byteSize := by
  cases table with
  | frames entries => exact CodeTable.length_rowsToBytes written fun _ _ => Frame.length_toBytes
  | lines entries =>
    rw [CodeTable.length_rowsToBytes written fun _ _ => LineNumber.length_toBytes, totalSize_const]
    rfl
  | _ entries =>
    rw [CodeTable.length_rowsToBytes written fun _ _ => LocalVariable.length_toBytes,
      totalSize_const]
    rfl

/-- A table of one name is read if its rows are. -/
theorem CodeTable.reads_of_rows {A : Type} {rows : Reader A} {form : CodeTable → Bytes → Prop}
    {wrap : A → CodeTable} {name : String}
    (reads : rows.Reads fun entries bytes => form (wrap entries) bytes)
    (named : ∀ table : CodeTable, table.name = name ↔ ∃ entries, table = wrap entries) :
    Reads (do return wrap (← rows)) fun table bytes => table.name = name ∧ form table bytes := by
  refine (reads.map wrap).congr fun table bytes => ⟨?_, ?_⟩
  · rintro ⟨entries, rfl, formed⟩
    exact ⟨(named _).mpr ⟨entries, rfl⟩, formed⟩
  · rintro ⟨same, formed⟩
    obtain ⟨entries, rfl⟩ := (named table).mp same
    exact ⟨entries, rfl, formed⟩

/-- The contents of a table are read exactly from the bytes they are written as. -/
theorem CodeTable.reader?_reads (agree : positions.Match code) (increasing : code.Increasing)
    {name : String} {reader : Reader CodeTable} (known : CodeTable.reader? code name = some reader) :
    reader.Reads fun table bytes => table.name = name ∧
      table.toBytes positions code.extent = .ok bytes ∧ table.Writable positions code.extent := by
  have variableRows := rows_reads (LocalVariable.read_reads agree increasing)
  unfold CodeTable.reader? at known
  split at known
  · cases known
    exact CodeTable.reads_of_rows (Frame.frames_reads agree increasing)
      fun table => by cases table <;> simp [CodeTable.name]
  · cases known
    exact CodeTable.reads_of_rows (rows_reads (LineNumber.read_reads agree increasing))
      fun table => by cases table <;> simp [CodeTable.name]
  · cases known
    exact CodeTable.reads_of_rows variableRows fun table => by cases table <;> simp [CodeTable.name]
  · cases known
    exact CodeTable.reads_of_rows variableRows fun table => by cases table <;> simp [CodeTable.name]
  · cases known

/-- Every kind of table has a reader under its name. -/
theorem CodeTable.reader?_name (code : DecodedCode) (table : CodeTable) :
    (CodeTable.reader? code table.name).isSome := by
  cases table <;> rfl

/-- The name of an attribute is the one its table asks for, and its length has 32 bits. -/
structure CodeAttribute.Writable (pool : Pool) (positions : Positions) (codeLength : Nat)
    (entry : CodeAttribute) : Prop where
  named : pool.text entry.nameIndex = .ok entry.table.name
  sized : entry.table.byteSize < 4294967296
  table : entry.table.Writable positions codeLength

/-- An attribute of the code is read exactly from the bytes it is written as. -/
theorem CodeAttribute.read_reads (pool : Pool) (agree : positions.Match code)
    (increasing : code.Increasing) :
    (CodeAttribute.read pool code).Reads fun entry bytes =>
      entry.toBytes positions code.extent = .ok bytes ∧
        entry.Writable pool positions code.extent := by
  intro input entry rest
  simp only [CodeAttribute.read, bind_eq_ok_iff, u16_eq_ok_iff, ofExcept_eq_ok_iff,
    CodeAttribute.toBytes, exceptBind_eq_ok_iff, exceptPure_eq_ok_iff]
  constructor
  · rintro ⟨nameIndex, _, rfl, name, _, ⟨named, rfl⟩, accepted⟩
    cases known : CodeTable.reader? code name with
    | none => simp [known, bind_eq_ok_iff, fail_eq_ok_iff] at accepted
    | some reader =>
      have contents := (CodeTable.reader?_reads agree increasing known).payload name
      simp only [known, bind_eq_ok_iff, contents _ _ _, pure_eq_ok_iff] at accepted
      obtain ⟨table, _, ⟨_, ⟨inner, ⟨rfl, written, writable⟩, small, rfl⟩, rfl⟩, rfl, rfl⟩ :=
        accepted
      rw [CodeTable.length_toBytes written] at small ⊢
      exact ⟨_, ⟨⟨inner, written, rfl⟩, ⟨named, small, writable⟩⟩, by simp⟩
  · rintro ⟨_, ⟨⟨inner, written, rfl⟩, writable⟩, rfl⟩
    obtain ⟨reader, known⟩ := Option.isSome_iff_exists.mp (CodeTable.reader?_name code entry.table)
    have contents := (CodeTable.reader?_reads agree increasing known).payload entry.table.name
    have small := writable.sized
    rw [← CodeTable.length_toBytes written] at small
    refine ⟨entry.nameIndex, _, by simp only [List.append_assoc]; rfl, entry.table.name, _,
      ⟨writable.named, rfl⟩, ?_⟩
    have accepted := contents.reads_back ⟨inner, ⟨rfl, written, writable.table⟩, small, rfl⟩ rest
    rw [CodeTable.length_toBytes written, List.append_assoc] at accepted
    simp only [known]
    rw [bind_of_eq_ok accepted]
    rfl

end Rows

end Classfile
