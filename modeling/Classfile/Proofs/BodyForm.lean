import Classfile.Code.Body.Codec
import Classfile.Proofs.Settling

/-!
The byte form of a whole body.

Reading numbers the instructions in layout order. `Body.Compact` describes the bodies that come out
of it, and `Body.read_eq_ok_iff` says that reading accepts exactly the forms of such bodies.
-/

namespace Classfile

open Reader

namespace DecodedCode

/-- Exactly the instructions that start at a position are found there, and none before the code. -/
theorem handleAt_int_eq_ok_iff {code : DecodedCode} (increasing : code.Increasing) (bci : Int)
    (handle : Handle) :
    code.handleAt bci = .ok handle ↔
      ∃ start : Nat, code.offset? handle.index = some start ∧ bci = start := by
  by_cases negative : bci < 0
  · have missing : code.handleAt bci = .error (.noInstructionAt bci) := by
      rw [handleAt, if_pos negative]
    rw [missing]
    constructor
    · intro same
      cases same
    · rintro ⟨start, _, rfl⟩
      omega
  · obtain ⟨start, rfl⟩ := Int.eq_ofNat_of_zero_le (Int.not_lt.mp negative)
    rw [handleAt_eq_ok_iff increasing]
    constructor
    · intro found
      exact ⟨start, found, rfl⟩
    · rintro ⟨other, found, same⟩
      rw [found, Int.ofNat_inj.mp same]

end DecodedCode

namespace Slot

/-- The instruction as it is written, with relative jumps. -/
def encoded (slot : Slot) : Instruction Int32 := slot.instruction.mapLabels Jump.encoded

/-- Each slot starts where the one before it ends. -/
def Consecutive : Nat → List Slot → Prop
  | _, [] => True
  | bci, slot :: rest => slot.bci = bci ∧ Consecutive (bci + slot.instruction.width) rest

/-- The jumps of a slot have 32-bit offsets that lead to their targets. -/
def Resolved (code : DecodedCode) (slot : Slot) : Prop :=
  ∀ jump ∈ slot.instruction.labels, jump.encoded.toInt = jump.offset ∧
    ∃ start : Nat, code.offset? jump.target.index = some start ∧
      (slot.bci : Int) + jump.offset = start

/-- An encoded slot is as wide as its instruction. -/
theorem width_encoded (slot : Slot) : slot.encoded.width = slot.instruction.width :=
  Instruction.width_mapLabels _ _

theorem spareBytes_encoded (slot : Slot) :
    slot.encoded.spareBytes = slot.instruction.spareBytes :=
  Instruction.spareBytes_mapLabels _ _

end Slot

namespace Body

/-- A label is resolved to the jump whose target starts at that distance. -/
theorem resolveLabel_eq_ok_iff {code : DecodedCode} (increasing : code.Increasing) (bci : Nat)
    (offset : Int32) (jump : Jump) :
    (do return ⟨← code.handleAt (bci + offset.toInt), offset.toInt⟩) = Except.ok jump ↔
      jump.offset = offset.toInt ∧
        ∃ start : Nat, code.offset? jump.target.index = some start ∧
          (bci : Int) + jump.offset = start := by
  simp only [exceptBind_eq_ok_iff, exceptPure_eq_ok_iff,
    DecodedCode.handleAt_int_eq_ok_iff increasing]
  constructor
  · rintro ⟨handle, ⟨start, found, same⟩, rfl⟩
    exact ⟨rfl, start, found, same⟩
  · rintro ⟨distance, start, found, same⟩
    rw [distance] at same
    exact ⟨jump.target, ⟨start, found, same⟩, by rw [← distance]⟩

/-- The jump by an offset, to the instruction there if there is one. -/
def jumpAlong (code : DecodedCode) (bci : Nat) (offset : Int32) : Jump :=
  ⟨(code.handleAt (bci + offset.toInt)).toOption.getD default, offset.toInt⟩

/-- Jumps are resolved to instructions whose offsets are written as the ones read. -/
theorem resolve_eq_ok_iff {code : DecodedCode} (increasing : code.Increasing) (bci : Nat)
    (instruction : Instruction Int32) (result : Instruction Jump) :
    resolve code bci instruction = .ok result ↔
      instruction = (Slot.mk result bci).encoded ∧ (Slot.mk result bci).Resolved code := by
  have labels := resolveLabel_eq_ok_iff increasing bci
  constructor
  · intro succeeded
    obtain ⟨paired, rfl, rfl, holds⟩ := Instruction.exists_pairs_of_mapLabelsM succeeded
    constructor
    · rw [Slot.encoded, Instruction.mapLabels_mapLabels]
      apply Instruction.mapLabels_congr
      intro pair present
      rw [Jump.encoded, ((labels _ _).mp (holds pair present)).1, Int32.ofInt_toInt]
    · intro jump present
      rw [Instruction.labels_mapLabels, List.mem_map] at present
      obtain ⟨pair, member, rfl⟩ := present
      obtain ⟨distance, located⟩ := (labels _ _).mp (holds pair member)
      refine ⟨?_, located⟩
      rw [Jump.encoded, distance, Int32.ofInt_toInt]
  · rintro ⟨rfl, resolved⟩
    have each : ∀ jump ∈ result.labels,
        (do return ⟨← code.handleAt (bci + jump.encoded.toInt), jump.encoded.toInt⟩) =
          Except.ok jump := by
      intro jump present
      obtain ⟨exact32, located⟩ := resolved jump present
      exact (labels _ _).mpr ⟨exact32.symm, located⟩
    have same : ∀ jump ∈ result.labels, jumpAlong code bci jump.encoded = jump := by
      intro jump present
      have found := each jump present
      simp only [exceptBind_eq_ok_iff, exceptPure_eq_ok_iff] at found
      obtain ⟨handle, located, same⟩ := found
      simp only [jumpAlong, located, Except.toOption, Option.getD_some, same]
    have resolvedAll : resolve code bci (Slot.mk result bci).encoded =
        .ok ((Slot.mk result bci).encoded.mapLabels (jumpAlong code bci)) := by
      apply Instruction.mapLabelsM_of_labels
      intro offset present
      rw [Slot.encoded, Instruction.labels_mapLabels, List.mem_map] at present
      obtain ⟨jump, member, rfl⟩ := present
      rw [same jump member]
      exact each jump member
    rw [resolvedAll, Slot.encoded, Instruction.mapLabels_mapLabels,
      Instruction.mapLabels_eq_self same]

/-- The slots that jumps of decoded code are resolved to. -/
theorem mapM_resolve_eq_ok_iff {code : DecodedCode} (increasing : code.Increasing) (bci : Nat)
    (instructions : List (Instruction Int32)) (entries : List (Option Slot)) :
    ((OffsetTable.placed bci instructions).mapM fun pair => do
        return some (Slot.mk (← resolve code pair.1 pair.2) pair.1)) = .ok entries ↔
      ∃ slots : List Slot, entries = slots.map some ∧ instructions = slots.map Slot.encoded ∧
        Slot.Consecutive bci slots ∧ ∀ slot ∈ slots, slot.Resolved code := by
  rw [mapM_eq_ok_iff]
  induction instructions generalizing bci entries with
  | nil =>
    constructor
    · intro related
      cases related
      exact ⟨[], rfl, rfl, trivial, by simp⟩
    · rintro ⟨slots, rfl, none, _, _⟩
      obtain rfl : slots = [] := by simpa using none.symm
      exact .nil
  | cons instruction instructions inductionHypothesis =>
    constructor
    · intro related
      cases related with
      | cons first others =>
        simp only [exceptBind_eq_ok_iff, exceptPure_eq_ok_iff] at first
        obtain ⟨result, resolved, rfl⟩ := first
        obtain ⟨rfl, leads⟩ := (resolve_eq_ok_iff increasing bci instruction result).mp resolved
        obtain ⟨slots, rfl, rfl, consecutive, holds⟩ := (inductionHypothesis _ _).mp others
        rw [show HasWidth.width (Slot.mk result bci).encoded = result.width from
          Slot.width_encoded _] at consecutive
        refine ⟨⟨result, bci⟩ :: slots, rfl, rfl, ⟨rfl, consecutive⟩, ?_⟩
        intro slot present
        rcases List.mem_cons.mp present with rfl | later
        · exact leads
        · exact holds slot later
    · rintro ⟨slots, rfl, written, consecutive, holds⟩
      cases slots with
      | nil => simp at written
      | cons slot slots =>
        obtain ⟨rfl, rfl⟩ := List.cons.inj written
        obtain ⟨starts, continued⟩ := consecutive
        obtain ⟨result, start⟩ := slot
        obtain rfl : start = bci := starts
        refine .cons ?_ ((inductionHypothesis _ _).mpr ⟨slots, rfl, rfl, ?_, fun slot present =>
          holds slot (by simp [present])⟩)
        · simp only [exceptBind_eq_ok_iff, exceptPure_eq_ok_iff]
          exact ⟨result, (resolve_eq_ok_iff increasing start _ result).mpr
            ⟨rfl, holds _ (by simp)⟩, rfl⟩
        · rw [show HasWidth.width (Slot.mk result start).encoded = result.width from
            Slot.width_encoded _]
          exact continued

/-- A body as reading leaves it: handles number the instructions in layout order. -/
structure Compact (body : Body) (slots : List Slot) : Prop where
  filled : body.slots.toList = slots.map some
  order : body.order.toList = (List.range slots.length).map Handle.mk
  consecutive : Slot.Consecutive 0 slots
  resolved : ∀ slot ∈ slots, slot.Resolved (DecodedCode.ofList (slots.map Slot.encoded))
  codeLength : body.codeLength = Bytes.totalSize (fun slot => slot.instruction.width) slots

/-- Instructions that follow each other are placed where their slots start. -/
theorem offset?_placed (bci index : Nat) (slots : List Slot) (consecutive : Slot.Consecutive bci slots) :
    ((OffsetTable.placed bci (slots.map Slot.encoded))[index]?).map Prod.fst =
      slots[index]?.map Slot.bci := by
  induction slots generalizing bci index with
  | nil => simp [OffsetTable.placed]
  | cons slot slots inductionHypothesis =>
    obtain ⟨starts, continued⟩ := consecutive
    rw [List.map_cons, OffsetTable.placed]
    cases index with
    | zero => simp [starts]
    | succ index =>
      rw [List.getElem?_cons_succ, List.getElem?_cons_succ]
      apply inductionHypothesis
      rw [show HasWidth.width slot.encoded = slot.instruction.width from Slot.width_encoded _]
      exact continued

section Compact

variable {body : Body} {slots : List Slot}

/-- A handle stands for the slot at its index. -/
theorem slot?_of_slots (listed : body.slots.toList = slots.map some) (handle : Handle) :
    body.slot? handle = slots[handle.index]? := by
  rw [Body.slot?, ← Array.getElem?_toList, listed, List.getElem?_map]
  cases slots[handle.index]? <;> rfl

/-- The positions of the slots are those of the decoded code. -/
theorem match_of_slots (listed : body.slots.toList = slots.map some)
    (consecutive : Slot.Consecutive 0 slots) :
    Positions.Match body.bci (DecodedCode.ofList (slots.map Slot.encoded)) := by
  intro handle bci
  have starts := offset?_placed 0 handle.index slots consecutive
  rw [bci_eq_ok_iff, slot?_of_slots listed, OffsetTable.offset?, ← Array.getElem?_toList,
    DecodedCode.entries_ofList, starts, Option.map_eq_some_iff]

/-- The extent of the decoded code is the total width of the slots. -/
theorem extent_encoded (slots : List Slot) :
    (DecodedCode.ofList (slots.map Slot.encoded)).extent =
      Bytes.totalSize (fun slot => slot.instruction.width) slots := by
  rw [DecodedCode.extent_ofList]
  induction slots with
  | nil => rfl
  | cons slot slots inductionHypothesis =>
    change slot.encoded.width + Bytes.totalSize _ (slots.map Slot.encoded) = _
    rw [inductionHypothesis, Slot.width_encoded]
    rfl

/-- A range is written and all that it mentions has a 16-bit form. -/
def RangeForm (body : Body) (range : ExceptionRange) (bytes : Bytes) : Prop :=
  range.toBytes body.bci body.codeLength = .ok bytes ∧ range.Writable body.bci body.codeLength

/-- An attribute is written, its name fits its contents, and all that it mentions has a form. -/
def AttributeForm (pool : Pool) (body : Body) (entry : CodeAttribute) (bytes : Bytes) : Prop :=
  entry.toBytes body.bci body.codeLength = .ok bytes ∧
    entry.Writable pool body.bci body.codeLength

/-- The bytes of a compact body after its name and length. -/
structure Form (pool : Pool) (body : Body) (slots : List Slot) (code ranges attributes : Bytes) :
    Prop where
  compact : body.Compact slots
  codeForm : DecodedCode.Form 0 (slots.map Slot.encoded) code
  codeSize : code.length < 4294967296
  rangeForms : Sequence body.RangeForm body.ranges ranges
  rangeCount : body.ranges.length < 65536
  attributeForms : Sequence (body.AttributeForm pool) body.attributes attributes
  attributeCount : body.attributes.length < 65536

/-- The contents of the attribute `Code`, from its parts. -/
def payload (body : Body) (code ranges attributes : Bytes) : Bytes :=
  Bytes.ofU16 body.maxStack ++ (Bytes.ofU16 body.maxLocals ++ (Bytes.ofLength code.length ++ (code ++
    (Bytes.ofCount body.ranges.length ++ (ranges ++
      (Bytes.ofCount body.attributes.length ++ attributes))))))

/-- A body that is read lists its instructions by number. -/
theorem order_ofFn (count : Nat) :
    (Array.ofFn fun index : Fin count => Handle.mk index).toList =
      (List.range count).map Handle.mk := by
  rw [Array.toList_ofFn, List.ofFn_eq_map, ← List.map_coe_finRange_eq_range, List.map_map]
  rfl

/-- What is read is a compact body in its form. -/
theorem form_of_read {nameIndex : ConstantIndex} {pool : Pool} {context : Option MethodContext}
    {input rest : Bytes} (accepted : Body.read nameIndex pool context input = .ok (body, rest)) :
    body.nameIndex = nameIndex ∧ body.context = context ∧
      ∃ slots code ranges attributes, body.Form pool slots code ranges attributes ∧
        input = body.payload code ranges attributes ++ rest := by
  simp only [Body.read, bind_eq_ok_iff, u16_eq_ok_iff, u32_eq_ok_iff, bytes_eq_ok_iff,
    ofExcept_eq_ok_iff, pure_eq_ok_iff, arrayMapM_eq_ok_iff] at accepted
  obtain ⟨maxStack, _, rfl, maxLocals, _, rfl, codeLength, _, rfl, code, _, ⟨sized, rfl⟩, decoded, _,
    ⟨decodes, rfl⟩, entries, _, ⟨resolved, rfl⟩, rows, _, readRanges, tables, _, readAttributes,
    made, rfl⟩ := accepted
  have codeSize : code.length < 4294967296 := sized ▸ codeLength.toNat_lt
  obtain ⟨instructions, codeForm, rfl⟩ := (DecodedCode.decode_eq_ok_iff (.inl codeSize)).mp decodes
  have increasing := DecodedCode.increasing_ofList instructions
  rw [DecodedCode.entries_ofList] at resolved
  obtain ⟨slots, filled, rfl, consecutive, holds⟩ :=
    (mapM_resolve_eq_ok_iff increasing 0 instructions _).mp resolved
  have count : entries.size = slots.length := by
    rw [← Array.length_toList, filled, List.length_map]
  have filledBody : body.slots.toList = slots.map some := by
    rw [← made]
    exact filled
  have agree := match_of_slots filledBody consecutive
  have length : codeLength.toNat = Bytes.totalSize (fun slot => slot.instruction.width) slots := by
    rw [← sized, codeForm.length, ← extent_encoded, DecodedCode.extent_ofList]
  have extent : (DecodedCode.ofList (slots.map Slot.encoded)).extent = body.codeLength := by
    rw [extent_encoded, ← length, ← made]
  obtain ⟨_, ⟨rangeCount, ranges, rangeForms, rfl⟩, rfl⟩ :=
    ((ExceptionRange.read_reads agree increasing).table _ _ _).mp readRanges
  obtain ⟨_, ⟨attributeCount, attributes, attributeForms, rfl⟩, rfl⟩ :=
    ((CodeAttribute.read_reads pool agree increasing).table _ _ _).mp readAttributes
  rw [extent] at rangeForms attributeForms
  have lengthForm : Bytes.ofU32 codeLength = Bytes.ofLength code.length :=
    ((ofLength_eq_ofU32_iff code.length codeLength).mpr sized.symm).2.symm
  have rangesBody : body.ranges = rows := by rw [← made]
  have attributesBody : body.attributes = tables := by rw [← made]
  refine ⟨by rw [← made], by rw [← made], slots, code, ranges, attributes,
    ⟨⟨filledBody, ?_, consecutive, holds, ?_⟩, codeForm, codeSize, ?_, ?_, ?_, ?_⟩, ?_⟩
  · rw [← made]
    dsimp only
    rw [order_ofFn, count]
  · rw [← made]
    exact length
  · rw [rangesBody]
    exact rangeForms
  · rw [rangesBody]
    exact rangeCount
  · rw [attributesBody]
    exact attributeForms
  · rw [attributesBody]
    exact attributeCount
  · rw [payload, rangesBody, attributesBody, ← made, lengthForm]
    simp only [List.append_assoc]

/-- A compact body is read back from its form. -/
theorem Form.read {pool : Pool} {slots : List Slot} {code ranges attributes : Bytes}
    (formed : body.Form pool slots code ranges attributes) (rest : Bytes) :
    Body.read body.nameIndex pool body.context (body.payload code ranges attributes ++ rest) =
      .ok (body, rest) := by
  simp only [Body.read, bind_eq_ok_iff, u16_eq_ok_iff, u32_eq_ok_iff, bytes_eq_ok_iff,
    ofExcept_eq_ok_iff, pure_eq_ok_iff, arrayMapM_eq_ok_iff]
  obtain ⟨⟨filled, order, consecutive, resolved, codeLength⟩, codeForm, codeSize, rangeForms,
    rangeCount, attributeForms, attributeCount⟩ := formed
  have increasing := DecodedCode.increasing_ofList (slots.map Slot.encoded)
  have agree := match_of_slots filled consecutive
  have extent : (DecodedCode.ofList (slots.map Slot.encoded)).extent = body.codeLength := by
    rw [extent_encoded, codeLength]
  have exactLength : (UInt32.ofNat code.length).toNat = code.length :=
    UInt32.toNat_ofNat_of_lt' codeSize
  have sized : code.length = body.codeLength := by
    rw [codeForm.length, codeLength, ← extent_encoded, DecodedCode.extent_ofList]
  have rangeReader := ExceptionRange.read_reads agree increasing
  have attributeReader := CodeAttribute.read_reads pool agree increasing
  rw [extent] at rangeReader attributeReader
  have readRanges := rangeReader.table.reads_back ⟨rangeCount, ranges, rangeForms, rfl⟩
    (Bytes.ofCount body.attributes.length ++ attributes ++ rest)
  have readAttributes := attributeReader.table.reads_back
    ⟨attributeCount, attributes, attributeForms, rfl⟩ rest
  simp only [List.append_assoc] at readRanges readAttributes
  refine ⟨body.maxStack, _, by simp only [payload, List.append_assoc]; rfl, body.maxLocals, _, rfl,
    UInt32.ofNat code.length, _, rfl, code, _, ⟨exactLength.symm, rfl⟩,
    DecodedCode.ofList (slots.map Slot.encoded), _,
    ⟨(DecodedCode.decode_eq_ok_iff (.inl codeSize)).mpr ⟨_, codeForm, rfl⟩, rfl⟩, body.slots, _,
    ⟨?_, rfl⟩, body.ranges, _, readRanges, body.attributes, _, readAttributes, ?_, rfl⟩
  · rw [DecodedCode.entries_ofList]
    exact (mapM_resolve_eq_ok_iff increasing 0 _ _).mpr ⟨slots, filled, rfl, consecutive, resolved⟩
  · have count : body.slots.size = slots.length := by
      rw [← Array.length_toList, filled, List.length_map]
    have ordered : (Array.ofFn fun index : Fin body.slots.size => Handle.mk index) = body.order := by
      rw [← Array.toList_inj, order_ofFn, count, order]
    rw [ordered, exactLength, sized]

/-- Reading accepts exactly the forms of compact bodies. -/
theorem read_eq_ok_iff {nameIndex : ConstantIndex} {pool : Pool} {context : Option MethodContext}
    {input rest : Bytes} :
    Body.read nameIndex pool context input = .ok (body, rest) ↔
      body.nameIndex = nameIndex ∧ body.context = context ∧
        ∃ slots code ranges attributes, body.Form pool slots code ranges attributes ∧
          input = body.payload code ranges attributes ++ rest := by
  constructor
  · exact form_of_read
  · rintro ⟨rfl, rfl, slots, code, ranges, attributes, formed, rfl⟩
    exact formed.read rest

theorem filterMap_range_getElem? {A : Type} (items : List A) :
    (List.range items.length).filterMap (items[·]?) = items := by
  induction items with
  | nil => rfl
  | cons item items inductionHypothesis =>
    rw [List.length_cons, List.range_succ_eq_map, List.filterMap_cons, List.filterMap_map]
    simpa using inductionHypothesis

/-- The layout consists of the slots in their order. -/
theorem map_snd_laidOut (body : Body) :
    body.laidOut.map Prod.snd = body.order.toList.filterMap body.slot? := by
  rw [Body.laidOut, List.map_filterMap]
  congr 1
  funext handle
  cases body.slot? handle <;> rfl

/-- The layout of a compact body consists of its slots. -/
theorem Compact.laidOut (compact : body.Compact slots) : body.laidOut.map Prod.snd = slots := by
  rw [map_snd_laidOut, compact.order, List.filterMap_map]
  have lookup : body.slot? ∘ Handle.mk = (slots[·]?) := by
    funext index
    exact slot?_of_slots compact.filled ⟨index⟩
  rw [lookup, filterMap_range_getElem?]

theorem totalSize_map {A B : Type} (size : B → Nat) (change : A → B) (items : List A) :
    Bytes.totalSize size (items.map change) = Bytes.totalSize (fun item => size (change item)) items := by
  rw [Bytes.totalSize, Bytes.totalSize, List.foldr_map]

/-- The length of the code is the one the body keeps. -/
theorem Compact.encodedLength (compact : body.Compact slots) :
    body.encodedLength = body.codeLength := by
  rw [Body.encodedLength, compact.codeLength, ← compact.laidOut, totalSize_map]

/-- The code consists of the bytes of the slots in layout order. -/
theorem codeBytes_eq (body : Body) :
    body.codeBytes = do
      return (← (body.laidOut.map Prod.snd).mapM fun slot => slot.encoded.toBytes).flatten := by
  rw [Body.codeBytes, List.mapM_map]
  rfl

/-- The bytes of the code that carry no information. -/
def spareCode (slots : List Slot) : List Bool :=
  slots.flatMap fun slot => slot.instruction.spareBytes

/-- The spare bytes of the decoded code are those of the slots. -/
theorem flatMap_spareBytes_encoded (slots : List Slot) :
    (slots.map Slot.encoded).flatMap Instruction.spareBytes = spareCode slots := by
  rw [List.flatMap_map]
  congr 1
  funext slot
  exact slot.spareBytes_encoded

/-- Every byte of the code is either spare or not. -/
theorem length_spareCode (slots : List Slot) :
    (spareCode slots).length = Bytes.totalSize (fun slot => slot.instruction.width) slots := by
  induction slots with
  | nil => rfl
  | cons slot slots inductionHypothesis =>
    change (slot.instruction.spareBytes ++ spareCode slots).length = _
    rw [List.length_append, inductionHypothesis, Instruction.length_spareBytes]
    rfl

variable {pool : Pool} {code ranges attributes : Bytes}

/-- The bytes of a form are as many as the length of the code says. -/
theorem Form.codeLength (formed : body.Form pool slots code ranges attributes) :
    code.length = body.codeLength := by
  rw [formed.codeForm.length, formed.compact.codeLength, ← extent_encoded, DecodedCode.extent_ofList]

/-- The code of a form is written with zeros in its spare bytes. -/
theorem Form.codeBytes (formed : body.Form pool slots code ranges attributes) :
    body.codeBytes = .ok (Bytes.clear (spareCode slots) code) := by
  obtain ⟨parts, written, flat⟩ := formed.codeForm.written
  rw [codeBytes_eq, formed.compact.laidOut]
  rw [List.mapM_map] at written
  change (do return (← slots.mapM (Instruction.toBytes ∘ Slot.encoded)).flatten) = _
  rw [written, ← flatMap_spareBytes_encoded, ← flat]
  rfl

/-- Rows that have forms one after the other are written as them. -/
theorem mapM_of_sequence {A : Type} {write : A → Except Error Bytes} {valid : A → Prop}
    {rows : List A} {bytes : Bytes}
    (formed : Sequence (fun row part => write row = .ok part ∧ valid row) rows bytes) :
    ∃ parts, rows.mapM write = .ok parts ∧ parts.flatten = bytes := by
  obtain ⟨parts, written, same⟩ := (sequence_iff_mapM write rows bytes).mp
    ((sequence_and_iff _ valid rows bytes).mp formed).1
  exact ⟨parts, written, same.symm⟩

/-- A range is written as eight bytes. -/
theorem length_rangeBytes {codeLength : Nat} {positions : Positions} {range : ExceptionRange}
    {bytes : Bytes} (written : range.toBytes positions codeLength = .ok bytes) :
    bytes.length = ExceptionRange.byteSize := by
  simp only [ExceptionRange.toBytes, exceptBind_eq_ok_iff, exceptPure_eq_ok_iff] at written
  obtain ⟨_, _, _, _, _, _, rfl⟩ := written
  rfl

theorem length_attributeBytes {codeLength : Nat} {positions : Positions} {entry : CodeAttribute}
    {bytes : Bytes} (written : entry.toBytes positions codeLength = .ok bytes) :
    bytes.length = entry.byteSize := by
  simp only [CodeAttribute.toBytes, exceptBind_eq_ok_iff, exceptPure_eq_ok_iff] at written
  obtain ⟨contents, inner, rfl⟩ := written
  have sized := CodeTable.length_toBytes inner
  simp only [List.length_append, Bytes.length_ofU16, Bytes.length_ofLength, sized,
    CodeAttribute.byteSize]

/-- The payload of a form has the size that the body declares. -/
theorem Form.payloadSize (formed : body.Form pool slots code ranges attributes) :
    body.payloadSize = (body.payload code ranges attributes).length := by
  have rangeSize := formed.rangeForms.length_eq fun _ _ holds => length_rangeBytes holds.1
  have attributeSize : attributes.length = Bytes.totalSize CodeAttribute.byteSize body.attributes :=
    formed.attributeForms.length_eq fun _ _ holds => length_attributeBytes holds.1
  rw [totalSize_const] at rangeSize
  simp only [Body.payloadSize, formed.compact.encodedLength, payload, List.length_append,
    Bytes.length_ofU16, Bytes.length_ofLength, Bytes.length_ofCount, rangeSize, attributeSize,
    formed.codeLength]
  omega

/-- A compact body is written as its form with zeros in the spare bytes of the code. -/
theorem Form.toBytes (formed : body.Form pool slots code ranges attributes) :
    body.toBytes = .ok (Bytes.ofU16 body.nameIndex ++
      (Bytes.ofLength (body.payload code ranges attributes).length ++
        body.payload (Bytes.clear (spareCode slots) code) ranges attributes)) := by
  obtain ⟨rangeParts, rangesWritten, rfl⟩ := mapM_of_sequence formed.rangeForms
  obtain ⟨attributeParts, attributesWritten, rfl⟩ := mapM_of_sequence formed.attributeForms
  have cleared : (Bytes.clear (spareCode slots) code).length = code.length := by
    rw [Bytes.clear, List.length_zipWith, length_spareCode, ← formed.compact.codeLength,
      formed.codeLength, Nat.min_self]
  rw [Body.toBytes, formed.codeBytes, rangesWritten, attributesWritten, formed.payloadSize,
    formed.compact.encodedLength, ← formed.codeLength]
  simp only [bind, Except.bind, pure, Except.pure, payload, cleared, List.append_assoc]

/-- The order of a compact body lists exactly its instructions. -/
theorem Compact.listed (compact : body.Compact slots) : body.Listed := by
  refine ⟨?_, fun handle => ?_⟩
  · rw [compact.order]
    apply List.Nodup.map _ List.nodup_range
    intro first second same
    exact Handle.mk.inj same
  · rw [compact.order, Body.contains, slot?_of_slots compact.filled, List.mem_map]
    constructor
    · rintro ⟨index, inside, rfl⟩
      rw [List.mem_range] at inside
      simp [inside]
    · intro present
      rw [Option.isSome_iff_exists] at present
      obtain ⟨slot, found⟩ := present
      refine ⟨handle.index, ?_, rfl⟩
      rw [List.mem_range]
      exact (List.getElem?_eq_some_iff.mp found).1

/-- Slots that follow each other and are aligned are laid out. -/
theorem laid_of_consecutive {lookup : Handle → Option Slot} (bci first : Nat) (slots : List Slot)
    (consecutive : Slot.Consecutive bci slots)
    (found : ∀ index slot, slots[index]? = some slot → lookup ⟨first + index⟩ = some slot)
    (aligned : ∀ slot ∈ slots, slot.instruction.alignedAt slot.bci = slot.instruction) :
    Laid lookup bci ((List.range' first slots.length).map Handle.mk)
      (bci + Bytes.totalSize (fun slot => slot.instruction.width) slots) := by
  induction slots generalizing bci first with
  | nil => rfl
  | cons slot slots inductionHypothesis =>
    obtain ⟨starts, continued⟩ := consecutive
    rw [List.length_cons, List.range'_succ, List.map_cons]
    refine ⟨slot, found 0 slot rfl, starts, ?_, ?_⟩
    · rw [← starts]
      exact aligned slot (by simp)
    · have total : bci + Bytes.totalSize (fun slot => slot.instruction.width) (slot :: slots) =
          bci + slot.instruction.width +
            Bytes.totalSize (fun slot => slot.instruction.width) slots := by
        rw [Nat.add_assoc]
        rfl
      rw [total]
      apply inductionHypothesis _ _ continued
      · intro index other located
        have shifted := found (index + 1) other (by simpa using located)
        rwa [Nat.add_comm index 1, ← Nat.add_assoc] at shifted
      · intro other present
        exact aligned other (by simp [present])

/-- Instructions in their forms are padded as their positions ask. -/
theorem aligned_of_form (bci : Nat) (slots : List Slot) {code : Bytes}
    (consecutive : Slot.Consecutive bci slots)
    (formed : DecodedCode.Form bci (slots.map Slot.encoded) code) :
    ∀ slot ∈ slots, slot.encoded.alignedAt slot.bci = slot.encoded ∧
      ∃ bytes, slot.encoded.Form slot.bci bytes := by
  induction slots generalizing bci code with
  | nil => simp
  | cons first slots inductionHypothesis =>
    obtain ⟨starts, continued⟩ := consecutive
    obtain ⟨front, back, frontFormed, backFormed, rfl⟩ := formed
    rw [Slot.width_encoded] at backFormed
    intro slot present
    rcases List.mem_cons.mp present with rfl | later
    · rw [starts]
      exact ⟨frontFormed.aligned, front, frontFormed⟩
    · exact inductionHypothesis _ continued backFormed slot later

/-- A body in its form is laid out. -/
theorem Form.laid (formed : body.Form pool slots code ranges attributes) :
    Laid body.slot? 0 body.order.toList body.codeLength := by
  have aligned := aligned_of_form 0 slots formed.compact.consecutive formed.codeForm
  rw [formed.compact.order, formed.compact.codeLength, List.range_eq_range']
  have laid := @laid_of_consecutive body.slot? 0 0 slots formed.compact.consecutive
    (fun index slot found => by rw [slot?_of_slots formed.compact.filled, Nat.zero_add, found])
    (fun slot present => Instruction.alignedAt_of_mapLabels (aligned slot present).1)
  rwa [Nat.zero_add] at laid

/-- The jumps of a compact body have the distances to their targets. -/
theorem Compact.measured (compact : body.Compact slots) : body.JumpsMeasured := by
  intro handle slot found jump present
  rw [slot?_of_slots compact.filled] at found
  obtain ⟨_, start, located, distance⟩ :=
    compact.resolved slot (List.mem_of_getElem? found) jump present
  have agree := match_of_slots compact.filled compact.consecutive
  obtain ⟨target, foundTarget, starts⟩ := bci_eq_ok_iff.mp ((agree jump.target start).mpr located)
  refine ⟨target, foundTarget, ?_⟩
  rw [jumpOffset, starts]
  omega

/-- A 16-bit branch in its form reaches its target. -/
theorem Form.oversized (formed : body.Form pool slots code ranges attributes) :
    body.oversized = [] := by
  rw [List.eq_nil_iff_forall_not_mem]
  rintro ⟨branch, opcode, jump⟩ member
  obtain ⟨_, far, slot, found, same⟩ := mem_oversized_iff.mp member
  rw [slot?_of_slots formed.compact.filled] at found
  have present := List.mem_of_getElem? found
  obtain ⟨_, bytes, written⟩ := aligned_of_form 0 slots formed.compact.consecutive formed.codeForm
    slot present
  have writes := written.written
  have exact32 := (formed.compact.resolved slot present jump
    (by rw [same]; simp [Instruction.labels])).1
  simp only [Slot.encoded, same, Instruction.mapLabels_branch, Instruction.toBytes,
    Instruction.operandBytes, exact32] at writes
  have near : isNear jump.offset = true := by
    by_contra outside
    have beyond : ¬(-0x8000 ≤ jump.offset ∧ jump.offset < 0x8000) := by
      simpa [isNear] using outside
    rw [if_neg beyond] at writes
    cases writes
  rw [near] at far
  cases far

/-- A frame that is written holds its delta. -/
theorem fits_of_toBytes {positions : Positions} {frame : Frame} {bytes : Bytes}
    (written : frame.toBytes positions = .ok bytes) : frame.kind.fits frame.delta = true := by
  by_contra outside
  rw [Frame.toBytes, if_pos outside] at written
  cases written

/-- The frames of a body in its form lead from position to position with deltas that fit. -/
theorem Form.framed (formed : body.Form pool slots code ranges attributes) {frames : List Frame}
    (known : body.frames? = some frames) :
    Frame.Chained body.bci none frames ∧ ∀ frame ∈ frames, frame.kind.fits frame.delta = true := by
  obtain ⟨entry, present, table⟩ := mem_attributes_of_frames? known
  obtain ⟨bytes, written, writable⟩ := formed.attributeForms.exists_form present
  have chained := writable.table
  rw [table] at chained
  refine ⟨chained.1.2, ?_⟩
  intro frame member
  simp only [CodeAttribute.toBytes, exceptBind_eq_ok_iff, table, CodeTable.toBytes] at written
  obtain ⟨contents, rows, _⟩ := written
  obtain ⟨parts, sequence, _⟩ := (CodeTable.rowsToBytes_eq_ok_iff _ _ _).mp rows
  obtain ⟨part, frameWritten⟩ := sequence.exists_form member
  exact fits_of_toBytes frameWritten

/-- A body in its form has its layout computed. -/
theorem Form.sync (formed : body.Form pool slots code ranges attributes) (events : Array Event) :
    Body.sync ⟨body, events⟩ = .ok () ⟨body, events⟩ :=
  sync_of_settled events formed.laid formed.compact.measured fun _ known => formed.framed known

end Compact

end Body

end Classfile
