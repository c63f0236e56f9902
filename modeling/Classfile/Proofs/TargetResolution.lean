import Classfile.Proofs.EncodedPositions

/-!
Reading a body resolves positions exactly.

`EncodedCode.read` goes over the contents of the attribute `Code` and keeps all positions and jump
offsets as they are. A body read from the same bytes points at the instructions that start there, and
reading fails exactly when one of the positions has no instruction to point at.
-/

namespace Classfile

open Reader

/-- The instructions of a body with relative jumps, and the positions that its tables encode. -/
structure EncodedCode where
  code : DecodedCode
  ranges : List EncodedRange
  tables : List EncodedTable

namespace EncodedCode

/-- The contents of the attribute, after its name and length. -/
def read (pool : Pool) : Reader EncodedCode := do
  let _ ← Reader.u16
  let _ ← Reader.u16
  let codeLength ← Reader.u32
  let bytes ← Reader.bytes codeLength.toNat
  let code ← Reader.ofExcept (DecodedCode.decode bytes)
  let ranges ← Reader.table EncodedRange.read
  let tables ← Reader.table (EncodedTable.read pool)
  return ⟨code, ranges, tables⟩

/-- Every position leads to an instruction, or to the end of the code where a range may end there. -/
structure Grounded (encoded : EncodedCode) : Prop where
  jumps : ∀ entry ∈ encoded.code.entries.toList, ∀ offset ∈ entry.2.labels,
    encoded.code.StartsAt (entry.1 + offset.toInt)
  ranges : ∀ range ∈ encoded.ranges, range.Grounded encoded.code
  tables : ∀ table ∈ encoded.tables, table.Grounded encoded.code

/-- A jump from a position has an offset and leads to the instruction at that distance. -/
structure Leads (body : Body) (bci : Nat) (offset : Int32) (jump : Jump) : Prop where
  distance : jump.offset = offset.toInt
  target : ∃ target : Nat, body.bci jump.target = .ok target ∧ (target : Int) = bci + offset.toInt

/-- A slot holds a decoded instruction at its position, and its jumps lead where it says. -/
structure Holds (body : Body) (entry : Nat × Instruction Int32) (slot : Slot) : Prop where
  bci : slot.bci = entry.1
  instruction : slot.encoded = entry.2
  labels : List.Forall₂ (Leads body entry.1) entry.2.labels slot.instruction.labels

/-- A body whose instructions are numbered as they are decoded and that points at the positions which
are encoded. -/
structure Describes (encoded : EncodedCode) (body : Body) : Prop where
  instructions : List.Forall₂ (fun entry slot? => ∃ slot, slot? = some slot ∧ Holds body entry slot)
    encoded.code.entries.toList body.slots.toList
  order : body.order.toList = (List.range body.slots.size).map Handle.mk
  codeLength : body.codeLength = encoded.code.extent
  ranges : List.Forall₂ (EncodedRange.Points body.bci body.codeLength) encoded.ranges body.ranges
  tables : List.Forall₂
    (fun table entry => EncodedTable.Points body.bci body.codeLength table entry.table)
    encoded.tables body.attributes

end EncodedCode

namespace Body

/-- Slots that follow each other are decoded at their positions. -/
theorem placed_encoded (bci : Nat) (slots : List Slot) (consecutive : Slot.Consecutive bci slots) :
    OffsetTable.placed bci (slots.map Slot.encoded) =
      slots.map fun slot => (slot.bci, slot.encoded) := by
  induction slots generalizing bci with
  | nil => rfl
  | cons slot slots inductionHypothesis =>
    have width : HasWidth.width slot.encoded = slot.instruction.width := Slot.width_encoded slot
    rw [List.map_cons, OffsetTable.placed, width, inductionHypothesis _ consecutive.2,
      List.map_cons, consecutive.1]

/-- A resolved slot holds the instruction that was decoded there. -/
theorem holds_of_resolved {body : Body} {code : DecodedCode} (agree : Positions.Match body.bci code)
    {slot : Slot} (resolved : slot.Resolved code) :
    EncodedCode.Holds body (slot.bci, slot.encoded) slot := by
  refine ⟨rfl, rfl, ?_⟩
  show List.Forall₂ _ slot.encoded.labels slot.instruction.labels
  rw [Slot.encoded, Instruction.labels_mapLabels, List.forall₂_map_left_iff, List.forall₂_same]
  intro jump present
  obtain ⟨exactly, start, found, distance⟩ := resolved jump present
  constructor
  · exact exactly.symm
  · refine ⟨start, (agree jump.target start).mpr found, ?_⟩
    rw [exactly, distance]

/-- The jumps of a resolved slot are grounded. -/
theorem startsAt_of_resolved {code : DecodedCode} (increasing : code.Increasing) {slot : Slot}
    (resolved : slot.Resolved code) :
    ∀ offset ∈ slot.encoded.labels, code.StartsAt (slot.bci + offset.toInt) := by
  intro offset present
  rw [Slot.encoded, Instruction.labels_mapLabels, List.mem_map] at present
  obtain ⟨jump, member, rfl⟩ := present
  obtain ⟨exactly, start, found, distance⟩ := resolved jump member
  rw [code.startsAt_iff increasing, exactly, distance]
  exact ⟨jump.target, (DecodedCode.handleAt_int_eq_ok_iff increasing _ _).mpr ⟨start, found, rfl⟩⟩

/-- Jumps that all have an instruction to lead to are resolved. -/
theorem exists_resolve {code : DecodedCode} (increasing : code.Increasing) (bci : Nat)
    {instruction : Instruction Int32}
    (grounded : ∀ offset ∈ instruction.labels, code.StartsAt (bci + offset.toInt)) :
    resolve code bci instruction = .ok (instruction.mapLabels (jumpAlong code bci)) := by
  apply Instruction.mapLabelsM_of_labels
  intro offset present
  obtain ⟨handle, found⟩ := (code.startsAt_iff increasing _).mp (grounded offset present)
  rw [jumpAlong, found]
  rfl

/-- A body that is read is described by the positions its bytes encode, which are all grounded. -/
theorem describes_of_read {nameIndex : ConstantIndex} {pool : Pool} {context : Option MethodContext}
    {input rest : Bytes} {body : Body}
    (read : Body.read nameIndex pool context input = .ok (body, rest)) :
    ∃ encoded, EncodedCode.read pool input = .ok (encoded, rest) ∧ encoded.Grounded ∧
      encoded.Describes body := by
  simp only [Body.read, bind_eq_ok_iff, ofExcept_eq_ok_iff, pure_eq_ok_iff,
    arrayMapM_eq_ok_iff] at read
  obtain ⟨maxStack, _, readStack, maxLocals, _, readLocals, codeLength, _, readLength, bytes, _,
    readBytes, code, _, ⟨decoded, rfl⟩, entries, _, ⟨resolved, rfl⟩, ranges, _, readRanges, tables, _,
    readTables, made, rfl⟩ := read
  have sized : bytes.length = codeLength.toNat := (bytes_eq_ok_iff.mp readBytes).1
  have small : bytes.length < 4294967296 := sized ▸ codeLength.toNat_lt
  obtain ⟨instructions, formed, rfl⟩ := (DecodedCode.decode_eq_ok_iff (.inl small)).mp decoded
  have increasing := DecodedCode.increasing_ofList instructions
  rw [DecodedCode.entries_ofList] at resolved
  obtain ⟨slots, filled, rfl, consecutive, holds⟩ :=
    (mapM_resolve_eq_ok_iff increasing 0 instructions _).mp resolved
  have filledBody : body.slots.toList = slots.map some := by
    rw [← made]
    exact filled
  have extent : (DecodedCode.ofList (slots.map Slot.encoded)).extent = body.codeLength := by
    rw [DecodedCode.extent_ofList, ← made, ← sized]
    exact formed.length.symm
  have listed : (DecodedCode.ofList (slots.map Slot.encoded)).entries.toList =
      slots.map fun slot => (slot.bci, slot.encoded) := by
    rw [DecodedCode.entries_ofList, placed_encoded 0 slots consecutive]
  have agree := match_of_slots filledBody consecutive
  obtain ⟨rows, foundRanges, groundRanges, pointRanges⟩ :=
    (ExceptionRange.resolves agree increasing).table.sound readRanges
  obtain ⟨attributes, foundTables, groundTables, pointTables⟩ :=
    (CodeAttribute.resolves agree increasing pool).table.sound readTables
  rw [extent] at pointRanges pointTables
  refine ⟨⟨DecodedCode.ofList (slots.map Slot.encoded), rows, attributes⟩, ?_, ⟨?_, groundRanges,
    groundTables⟩, ⟨?_, ?_, extent.symm, ?_, ?_⟩⟩
  · simp only [EncodedCode.read, bind_eq_ok_iff, ofExcept_eq_ok_iff, pure_eq_ok_iff]
    exact ⟨maxStack, _, readStack, maxLocals, _, readLocals, codeLength, _, readLength, bytes, _,
      readBytes, _, _, ⟨decoded, rfl⟩, rows, _, foundRanges, attributes, _, foundTables, rfl, rfl⟩
  · intro entry present
    rw [listed] at present
    obtain ⟨slot, member, rfl⟩ := List.mem_map.mp present
    exact startsAt_of_resolved increasing (holds slot member)
  · rw [listed, filledBody, List.forall₂_map_left_iff, List.forall₂_map_right_iff, List.forall₂_same]
    intro slot present
    exact ⟨slot, rfl, holds_of_resolved agree (holds slot present)⟩
  · rw [← made]
    exact order_ofFn entries.size
  · rw [← made] at pointRanges ⊢
    exact pointRanges
  · rw [← made] at pointTables ⊢
    exact pointTables

/-- Bytes whose positions are all grounded are read. -/
theorem exists_read_of_grounded (nameIndex : ConstantIndex) {pool : Pool}
    (context : Option MethodContext) {input rest : Bytes} {encoded : EncodedCode}
    (read : EncodedCode.read pool input = .ok (encoded, rest)) (grounded : encoded.Grounded) :
    ∃ body, Body.read nameIndex pool context input = .ok (body, rest) := by
  simp only [EncodedCode.read, bind_eq_ok_iff, ofExcept_eq_ok_iff, pure_eq_ok_iff] at read
  obtain ⟨maxStack, _, readStack, maxLocals, _, readLocals, codeLength, _, readLength, bytes, _,
    readBytes, code, _, ⟨decoded, rfl⟩, rows, _, readRanges, attributes, _, readTables, rfl, rfl⟩ :=
    read
  have sized : bytes.length = codeLength.toNat := (bytes_eq_ok_iff.mp readBytes).1
  have small : bytes.length < 4294967296 := sized ▸ codeLength.toNat_lt
  have increasing : code.Increasing := by
    obtain ⟨instructions, _, rfl⟩ := (DecodedCode.decode_eq_ok_iff (.inl small)).mp decoded
    exact DecodedCode.increasing_ofList instructions
  have agree := code.match_positions
  have resolved : (code.entries.toList.mapM fun entry => do
      return some (Slot.mk (← resolve code entry.1 entry.2) entry.1)) =
        Except.ok (code.entries.toList.map fun entry =>
          some ⟨entry.2.mapLabels (jumpAlong code entry.1), entry.1⟩) := by
    apply Instruction.mapM_eq_ok_map
    intro entry present
    rw [exists_resolve increasing entry.1 (grounded.jumps entry present)]
    rfl
  obtain ⟨ranges, foundRanges⟩ :=
    (ExceptionRange.resolves agree increasing).table.complete readRanges grounded.ranges
  obtain ⟨tables, foundTables⟩ :=
    (CodeAttribute.resolves agree increasing pool).table.complete readTables grounded.tables
  simp only [Body.read, bind_eq_ok_iff, ofExcept_eq_ok_iff, pure_eq_ok_iff, arrayMapM_eq_ok_iff]
  exact ⟨_, maxStack, _, readStack, maxLocals, _, readLocals, codeLength, _, readLength, bytes, _,
    readBytes, code, _, ⟨decoded, rfl⟩, List.toArray _, _, ⟨resolved, rfl⟩, ranges, _, foundRanges,
    tables, _, foundTables, rfl, rfl⟩

/-- A body that is read points exactly at the positions that its bytes encode and needs no layout,
and bytes that can be divided up are refused exactly when one of their positions leads nowhere. -/
theorem read_resolves (nameIndex : ConstantIndex) (pool : Pool) (context : Option MethodContext)
    (input : Bytes) :
    (∀ body rest, Body.read nameIndex pool context input = .ok (body, rest) →
      (∃ encoded, EncodedCode.read pool input = .ok (encoded, rest) ∧ encoded.Describes body) ∧
        ∀ events, Body.sync ⟨body, events⟩ = .ok () ⟨body, events⟩) ∧
    (∀ encoded rest, EncodedCode.read pool input = .ok (encoded, rest) →
      ((∃ error, Body.read nameIndex pool context input = .error error) ↔ ¬encoded.Grounded)) := by
  constructor
  · intro body rest read
    obtain ⟨encoded, found, _, describes⟩ := describes_of_read read
    obtain ⟨_, _, slots, code, ranges, attributes, formed, _⟩ := read_eq_ok_iff.mp read
    exact ⟨⟨encoded, found, describes⟩, formed.sync⟩
  · intro encoded rest found
    constructor
    · intro refused grounded
      obtain ⟨error, failed⟩ := refused
      obtain ⟨body, read⟩ := exists_read_of_grounded nameIndex context found grounded
      rw [failed] at read
      cases read
    · intro ungrounded
      cases read : Body.read nameIndex pool context input with
      | error error => exact ⟨error, rfl⟩
      | ok pair =>
        obtain ⟨body, left⟩ := pair
        obtain ⟨other, again, grounded, _⟩ := describes_of_read read
        rw [found, Except.ok.injEq, Prod.mk.injEq] at again
        rw [again.1] at ungrounded
        exact absurd grounded ungrounded

/-- The contents of an attribute `Code`, where a branch passes over one instruction to a frame, in an
exception range that ends between the two, with a line and a variable. -/
def framedBranch : Bytes :=
  [0, 1, 0, 1, 0, 0, 0, 5, 0x99, 0, 4, 0, 0xB1,
    0, 1, 0, 0, 0, 3, 0, 4, 0, 0,
    0, 3, 0, 2, 0, 0, 0, 3, 0, 1, 4,
    0, 3, 0, 0, 0, 6, 0, 1, 0, 3, 0, 7,
    0, 4, 0, 0, 0, 12, 0, 1, 0, 3, 0, 2, 0, 5, 0, 6, 0, 0]

/-- The contents of an attribute `Code`, where a branch leads into its own operand. -/
def strayBranch : Bytes := [0, 1, 0, 1, 0, 0, 0, 4, 0x99, 0, 2, 0xB1, 0, 0, 0, 0]

set_option maxRecDepth 8000 in
theorem read_resolves_framedBranch :
    (∃ body encoded, Body.read 1 Pool.tableNames none framedBranch = .ok (body, []) ∧
      body.slots.toList = [some ⟨.branch .ifeq ⟨⟨2⟩, 4⟩, 0⟩, some ⟨.simple .nop, 3⟩,
        some ⟨.simple .returnVoid, 4⟩] ∧
      body.ranges = [⟨⟨0⟩, some ⟨1⟩, ⟨2⟩, none⟩] ∧
      body.attributes = [⟨2, .frames [⟨⟨2⟩, 4, .same⟩]⟩, ⟨3, .lines [⟨⟨1⟩, 7⟩]⟩,
        ⟨4, .variables [⟨⟨1⟩, none, 5, 6, 0⟩]⟩] ∧
      EncodedCode.read Pool.tableNames framedBranch = .ok (encoded, []) ∧ encoded.Describes body ∧
      Body.sync ⟨body, #[]⟩ = .ok () ⟨body, #[]⟩) ∧
    ∃ encoded, EncodedCode.read Pool.tableNames strayBranch = .ok (encoded, []) ∧
      ¬encoded.Grounded ∧ ∃ error, Body.read 1 Pool.tableNames none strayBranch = .error error := by
  constructor
  · obtain ⟨body, read, slots, ranges, tables⟩ : ∃ body,
        Body.read 1 Pool.tableNames none framedBranch = .ok (body, []) ∧
        body.slots.toList = [some ⟨.branch .ifeq ⟨⟨2⟩, 4⟩, 0⟩, some ⟨.simple .nop, 3⟩,
          some ⟨.simple .returnVoid, 4⟩] ∧
        body.ranges = [⟨⟨0⟩, some ⟨1⟩, ⟨2⟩, none⟩] ∧
        body.attributes = [⟨2, .frames [⟨⟨2⟩, 4, .same⟩]⟩, ⟨3, .lines [⟨⟨1⟩, 7⟩]⟩,
          ⟨4, .variables [⟨⟨1⟩, none, 5, 6, 0⟩]⟩] := by
      simp only [Body.read, Array.mapM_eq_mapM_toList]
      exact ⟨_, rfl, rfl, rfl, rfl⟩
    obtain ⟨⟨encoded, found, describes⟩, unchanged⟩ :=
      (read_resolves 1 Pool.tableNames none framedBranch).1 body [] read
    exact ⟨body, encoded, read, slots, ranges, tables, found, describes, unchanged #[]⟩
  · obtain ⟨encoded, found⟩ : ∃ encoded,
        EncodedCode.read Pool.tableNames strayBranch = .ok (encoded, []) := ⟨_, rfl⟩
    obtain ⟨error, refused⟩ : ∃ error, Body.read 1 Pool.tableNames none strayBranch = .error error := by
      simp only [Body.read, Array.mapM_eq_mapM_toList]
      exact ⟨_, rfl⟩
    have ungrounded := ((read_resolves 1 Pool.tableNames none strayBranch).2 encoded [] found).mp
      ⟨error, refused⟩
    exact ⟨encoded, found, ungrounded, error, refused⟩

end Body

end Classfile
