import Classfile.Proofs.BodyForm
import Classfile.Proofs.Evaluation
import Classfile.Proofs.StreamCodec
import Classfile.Proofs.TableEncoding

/-!
A relaxed body is read back from the bytes it is written as.

Reading numbers the instructions in layout order. `Body.renumbered` does the same to a body, and the
theorem says that this is all that writing and reading change.
-/

namespace Classfile

open Reader

namespace Slot

/-- The jumps of a slot lead to renamed instructions. -/
def rename (change : Handle → Handle) (slot : Slot) : Slot :=
  { slot with instruction := slot.instruction.mapLabels fun jump =>
      { jump with target := change jump.target } }

/-- Renaming targets does not change what is encoded. -/
theorem encoded_rename (change : Handle → Handle) (slot : Slot) :
    (slot.rename change).encoded = slot.encoded := by
  rw [encoded, rename, Instruction.mapLabels_mapLabels]
  rfl

/-- Renaming targets keeps the width. -/
theorem width_rename (change : Handle → Handle) (slot : Slot) :
    (slot.rename change).instruction.width = slot.instruction.width :=
  Instruction.width_mapLabels _ _

/-- Renaming targets keeps an instruction aligned. -/
theorem aligned_rename (change : Handle → Handle) {slot : Slot} {bci : Nat}
    (aligned : slot.instruction.alignedAt bci = slot.instruction) :
    (slot.rename change).instruction.alignedAt bci = (slot.rename change).instruction := by
  rw [rename, Instruction.alignedAt_mapLabels, aligned]

/-- Slots that are laid out one after the other can be written as code if each can be written where
it starts. -/
theorem representable_encoded {bci : Nat} {slots : List Slot} (consecutive : Consecutive bci slots)
    (each : ∀ slot ∈ slots, slot.encoded.Representable slot.bci) :
    DecodedCode.Representable bci (slots.map encoded) := by
  induction slots generalizing bci with
  | nil => exact DecodedCode.representable_nil bci
  | cons slot slots inductionHypothesis =>
    obtain ⟨starts, continued⟩ := consecutive
    have first := each slot (by simp)
    rw [starts] at first
    rw [← width_encoded] at continued
    exact DecodedCode.representable_cons.mpr
      ⟨first, inductionHypothesis continued fun other present => each other (by simp [present])⟩

end Slot

/-- Code that is laid out consists of slots that follow each other. -/
theorem Laid.consecutive {slots : Handle → Option Slot} {bci stop : Nat} {order : List Handle}
    (laid : Laid slots bci order stop) :
    Slot.Consecutive bci (order.filterMap slots) ∧
      stop = bci + Bytes.totalSize (fun slot => slot.instruction.width) (order.filterMap slots) := by
  induction order generalizing bci with
  | nil => exact ⟨trivial, laid.symm⟩
  | cons handle rest inductionHypothesis =>
    obtain ⟨slot, found, starts, _, continued⟩ := laid
    obtain ⟨others, stops⟩ := inductionHypothesis continued
    rw [List.filterMap_cons_some found]
    refine ⟨⟨starts, others⟩, ?_⟩
    rw [stops, Nat.add_assoc]
    rfl

/-- Code that is laid out consists of aligned instructions. -/
theorem Laid.aligned {slots : Handle → Option Slot} {bci stop : Nat} {order : List Handle}
    (laid : Laid slots bci order stop) :
    ∀ slot ∈ order.filterMap slots, slot.instruction.alignedAt slot.bci = slot.instruction := by
  induction order generalizing bci with
  | nil => simp
  | cons handle rest inductionHypothesis =>
    obtain ⟨slot, found, starts, aligned, continued⟩ := laid
    rw [List.filterMap_cons_some found]
    intro other present
    rcases List.mem_cons.mp present with rfl | later
    · rw [starts]
      exact aligned
    · exact inductionHypothesis continued other later

/-- What is looked up for a handle is found at its index. -/
theorem getElem?_filterMap_idxOf {A : Type} {lookup : Handle → Option A} {order : List Handle}
    (known : ∀ handle ∈ order, ∃ value, lookup handle = some value) {handle : Handle}
    (present : handle ∈ order) : (order.filterMap lookup)[order.idxOf handle]? = lookup handle := by
  induction order with
  | nil => cases present
  | cons first rest inductionHypothesis =>
    obtain ⟨value, found⟩ := known first (by simp)
    rw [List.filterMap_cons_some found]
    by_cases same : first = handle
    · rw [List.idxOf_cons_eq _ same, List.getElem?_cons_zero, ← same, found]
    · have later := List.mem_of_ne_of_mem (Ne.symm same) present
      rw [List.idxOf_cons_ne _ same, List.getElem?_cons_succ]
      exact inductionHypothesis (fun other member => known other (by simp [member])) later

/-- As many values are looked up as there are known handles. -/
theorem length_filterMap_of_known {A : Type} {lookup : Handle → Option A} {order : List Handle}
    (known : ∀ handle ∈ order, ∃ value, lookup handle = some value) :
    (order.filterMap lookup).length = order.length := by
  induction order with
  | nil => rfl
  | cons first rest inductionHypothesis =>
    obtain ⟨value, found⟩ := known first (by simp)
    rw [List.filterMap_cons_some found, List.length_cons, List.length_cons,
      inductionHypothesis fun other member => known other (by simp [member])]

namespace Body

/-- Each handle becomes the index of its instruction in the layout. -/
def renumber (body : Body) (handle : Handle) : Handle := ⟨body.rank handle⟩

/-- The body with handles that number its instructions in layout order. -/
def renumbered (body : Body) : Body :=
  let renamed := body.mapHandle body.renumber
  { renamed with
    slots := (renamed.laidOut.map fun entry => some entry.2).toArray
    order := ((List.range body.size).map Handle.mk).toArray }

/-- Changing handles renames the slots of a body. -/
theorem slot?_mapHandle (body : Body) (change : Handle → Handle) (handle : Handle) :
    (body.mapHandle change).slot? handle = (body.slot? handle).map (Slot.rename change) := by
  simp only [Body.slot?, mapHandle, Array.getElem?_map]
  cases body.slots[handle.index]? with
  | none => rfl
  | some entry => rfl

/-- The slots of the renumbered body, in layout order. -/
def renumberedSlots (body : Body) : List Slot :=
  (body.order.toList.filterMap body.slot?).map (Slot.rename body.renumber)

/-- The renumbered body has no empty slots. -/
theorem slots_renumbered (body : Body) :
    body.renumbered.slots.toList = body.renumberedSlots.map some := by
  have slots := (body.mapHandle body.renumber).map_snd_laidOut
  have lookup : (body.mapHandle body.renumber).slot? =
      fun handle => (body.slot? handle).map (Slot.rename body.renumber) := by
    funext handle
    exact body.slot?_mapHandle body.renumber handle
  rw [lookup] at slots
  rw [renumberedSlots, List.map_filterMap]
  change ((body.mapHandle body.renumber).laidOut.map fun entry => some entry.2) = _
  rw [show (fun entry : Handle × Slot => some entry.2) = some ∘ Prod.snd from rfl, ← List.map_map,
    slots]
  rfl

section RoundTrip

variable {before body : Body} (synced : Synced before body) (listed : body.Listed)

include listed

/-- Every handle in the order has a slot. -/
theorem exists_slot_of_mem : ∀ handle ∈ body.order.toList, ∃ slot, body.slot? handle = some slot :=
  fun handle present => contains_iff.mp ((listed.live handle).mp present)

/-- An instruction is found under its new name. -/
theorem slot?_renumbered {handle : Handle} (present : body.contains handle = true) :
    body.renumbered.slot? (body.renumber handle) =
      (body.slot? handle).map (Slot.rename body.renumber) := by
  have located := getElem?_filterMap_idxOf (exists_slot_of_mem listed)
    ((listed.live handle).mpr present)
  rw [slot?_of_slots body.slots_renumbered, renumberedSlots, List.getElem?_map]
  exact congrArg (Option.map (Slot.rename body.renumber)) located

/-- An instruction has the same position under its new name. -/
theorem follows_renumbered :
    Positions.Follows body.bci body.renumbered.bci body.renumber := by
  intro handle bci found
  obtain ⟨slot, foundSlot, starts⟩ := bci_eq_ok_iff.mp found
  apply bci_eq_ok_iff.mpr
  refine ⟨slot.rename body.renumber, ?_, starts⟩
  rw [slot?_renumbered listed (contains_iff.mpr ⟨slot, foundSlot⟩), foundSlot]
  rfl

include synced

omit listed in
/-- The renumbered slots follow each other up to the length of the code, and are aligned. -/
theorem consecutive_renumbered : Slot.Consecutive 0 body.renumberedSlots ∧
    body.codeLength = Bytes.totalSize (fun slot => slot.instruction.width) body.renumberedSlots ∧
    ∀ slot ∈ body.renumberedSlots, slot.instruction.alignedAt slot.bci = slot.instruction := by
  have laid := synced.laid.map (Slot.rename body.renumber)
    (fun handle => body.slot?_mapHandle body.renumber handle) (fun _ => rfl)
    (Slot.width_rename body.renumber) (fun _ _ => Slot.aligned_rename body.renumber)
  have slots : body.order.toList.filterMap (body.mapHandle body.renumber).slot? =
      body.renumberedSlots := by
    rw [renumberedSlots, List.map_filterMap]
    congr 1
    funext handle
    exact body.slot?_mapHandle body.renumber handle
  have consecutive := laid.consecutive
  have aligned := laid.aligned
  rw [slots] at consecutive aligned
  rw [Nat.zero_add] at consecutive
  exact ⟨consecutive.1, consecutive.2, aligned⟩

/-- The renumbered body is compact. -/
theorem compact_renumbered (short : body.codeLength ≤ maxCodeLength) :
    body.renumbered.Compact body.renumberedSlots := by
  obtain ⟨consecutive, total, _⟩ := consecutive_renumbered synced
  have count : body.renumberedSlots.length = body.size := by
    rw [renumberedSlots, List.length_map, length_filterMap_of_known (exists_slot_of_mem listed)]
    rfl
  refine ⟨body.slots_renumbered, by rw [count]; rfl, consecutive, ?_, total⟩
  intro slot present jump labelled
  obtain ⟨old, member, rfl⟩ := List.mem_map.mp present
  obtain ⟨handle, _, found⟩ := List.mem_filterMap.mp member
  rw [Slot.rename, Instruction.labels_mapLabels] at labelled
  obtain ⟨target, labelledOld, rfl⟩ := List.mem_map.mp labelled
  obtain ⟨other, foundTarget, distance⟩ := synced.measured handle old found target labelledOld
  have startInside := synced.exists_bci listed (contains_iff.mpr ⟨old, found⟩)
  have stopInside := synced.exists_bci listed (contains_iff.mpr ⟨other, foundTarget⟩)
  obtain ⟨start, startAt, startBelow⟩ := startInside
  obtain ⟨stop, stopAt, stopBelow⟩ := stopInside
  rw [bci_eq_ok_iff.mpr ⟨old, found, rfl⟩, Except.ok.injEq] at startAt
  rw [bci_eq_ok_iff.mpr ⟨other, foundTarget, rfl⟩, Except.ok.injEq] at stopAt
  rw [maxCodeLength] at short
  rw [jumpOffset] at distance
  constructor
  · change (Int32.ofInt target.offset).toInt = target.offset
    apply Int32.toInt_ofInt_of_le
    · omega
    · omega
  · refine ⟨other.bci, ?_, ?_⟩
    · apply (match_of_slots body.slots_renumbered consecutive (body.renumber target.target) _).mp
      exact follows_renumbered listed _ _ (bci_eq_ok_iff.mpr ⟨other, foundTarget, rfl⟩)
    · change (old.bci : Int) + target.offset = other.bci
      omega

/-- All positions of the renumbered body fit in 16 bits. -/
theorem bounded_renumbered (short : body.codeLength ≤ maxCodeLength) (handle : Handle) (bci : Nat)
    (found : body.renumbered.bci handle = .ok bci) : bci < 65536 := by
  obtain ⟨slot, foundSlot, starts⟩ := bci_eq_ok_iff.mp found
  rw [slot?_of_slots body.slots_renumbered] at foundSlot
  obtain ⟨old, member, rfl⟩ := List.mem_map.mp (List.mem_of_getElem? foundSlot)
  obtain ⟨original, _, foundOld⟩ := List.mem_filterMap.mp member
  obtain ⟨start, startAt, below⟩ := synced.exists_bci listed (contains_iff.mpr ⟨old, foundOld⟩)
  rw [bci_eq_ok_iff.mpr ⟨old, foundOld, rfl⟩, Except.ok.injEq] at startAt
  change old.bci = bci at starts
  rw [maxCodeLength] at short
  omega

/-- The code of a body whose branches reach their targets is written. -/
theorem exists_code_renumbered (wellFormed : body.WellFormed) (reached : body.oversized = [])
    (short : body.codeLength ≤ maxCodeLength) :
    ∃ code, DecodedCode.Form 0 (body.renumberedSlots.map Slot.encoded) code ∧
      Bytes.clear (spareCode body.renumberedSlots) code = code := by
  have compact := compact_renumbered synced listed short
  obtain ⟨consecutive, _, aligned⟩ := consecutive_renumbered synced
  rw [← flatMap_spareBytes_encoded]
  apply DecodedCode.Representable.exists_form
  apply Slot.representable_encoded consecutive
  intro slot present
  have resolved := compact.resolved slot present
  have padded := aligned slot present
  obtain ⟨old, member, rfl⟩ := List.mem_map.mp present
  obtain ⟨handle, listedHandle, found⟩ := List.mem_filterMap.mp member
  constructor
  · rw [Slot.encoded_rename, Slot.encoded, Instruction.isWellFormed_mapLabels]
    exact wellFormed handle old found
  · intro opcode offset same
    rw [Slot.encoded_rename, Slot.encoded] at same
    cases kind : old.instruction with
    | branch actual jump =>
      rw [kind, Instruction.mapLabels_branch, Instruction.branch.injEq] at same
      have near : isNear jump.offset = true := by
        by_contra far
        have oversized : (handle, actual, jump) ∈ body.oversized := by
          apply mem_oversized_iff.mpr
          exact ⟨listedHandle, Bool.eq_false_of_not_eq_true far, old, found, kind⟩
        rw [reached] at oversized
        cases oversized
      have exactly := (resolved { jump with target := body.renumber jump.target } (by
        rw [Slot.rename, kind, Instruction.mapLabels_branch]
        simp [Instruction.labels])).1
      change jump.encoded.toInt = jump.offset at exactly
      rw [← same.2, exactly]
      simpa [isNear] using near
    | _ =>
      rw [kind] at same
      cases same
  · apply (Instruction.alignedAt_eq_self_iff _ _).mp
    rw [Slot.encoded, Instruction.alignedAt_mapLabels, padded]

/-- The ranges of the renumbered body are written as those of the body. -/
theorem exists_ranges_renumbered (sound : ∀ range ∈ body.ranges, range.Sound body)
    (short : body.codeLength ≤ maxCodeLength) :
    ∃ bytes, Sequence (fun range part => range.toBytes body.bci body.codeLength = .ok part)
        body.ranges bytes ∧
      Sequence body.renumbered.RangeForm body.renumbered.ranges bytes := by
  obtain ⟨bytes, formed⟩ := sequence_of_forall fun range present =>
    exists_rangeBytes synced listed (sound range present)
  refine ⟨bytes, formed, ?_⟩
  apply formed.map (ExceptionRange.mapHandle body.renumber)
  intro range present part written
  exact ⟨ExceptionRange.toBytes_mapHandle (follows_renumbered listed) written,
    writable_range short (bounded_renumbered synced listed short) (sound range present).catchType⟩

/-- The attributes of the renumbered body are written as those of the body. -/
theorem exists_attributes_renumbered {pool : Pool} (encodable : body.Encodable pool)
    (short : body.codeLength ≤ maxCodeLength)
    (sized : ∀ entry ∈ body.attributes, entry.table.byteSize < 2 ^ 32) :
    ∃ bytes, Sequence (fun entry part => entry.toBytes body.bci body.codeLength = .ok part)
        body.attributes bytes ∧
      Sequence (body.renumbered.AttributeForm pool) body.renumbered.attributes bytes := by
  have follows := follows_renumbered listed
  have bounded := bounded_renumbered synced listed short
  have chained {entry : CodeAttribute} (present : entry ∈ body.attributes) (frames : List Frame)
      (same : entry.table = .frames frames) :=
    synced.frames_chained listed short (frames?_of_mem encodable.frameTables present same)
  have tables (entry : CodeAttribute) (present : entry ∈ body.attributes) :
      ∃ bytes, entry.table.toBytes body.bci body.codeLength = .ok bytes :=
    exists_tableBytes synced listed (encodable.tables entry present)
      fun frames same => (chained present frames same).2.2
  have written (entry : CodeAttribute) (present : entry ∈ body.attributes) :
      ∃ bytes, entry.toBytes body.bci body.codeLength = .ok bytes := by
    obtain ⟨contents, inner⟩ := tables entry present
    simp only [CodeAttribute.toBytes, exceptBind_eq_ok_iff, exceptPure_eq_ok_iff]
    exact ⟨_, contents, inner, rfl⟩
  obtain ⟨bytes, formed⟩ := sequence_of_forall written
  refine ⟨bytes, formed, ?_⟩
  refine @Sequence.map _ _ _ (body.renumbered.AttributeForm pool) _ _ formed
    (fun entry => { entry with table := entry.table.mapHandle body.renumber }) ?_
  intro entry present part entryWritten
  refine ⟨CodeAttribute.toBytes_mapHandle follows entryWritten, ?_, ?_, ?_⟩
  · rw [CodeTable.name_mapHandle]
    exact encodable.names entry present
  · obtain ⟨contents, inner⟩ := tables entry present
    rw [CodeTable.byteSize_mapHandle follows inner]
    exact sized entry present
  · apply writable_table synced listed short follows bounded (encodable.tables entry present)
    exact fun frames same => ⟨(chained present frames same).1, (chained present frames same).2.1⟩

/-- A body with a computed layout is written as the form of the renumbered body. -/
theorem form_renumbered {pool : Pool} (wellFormed : body.WellFormed) (encodable : body.Encodable pool)
    (reached : body.oversized = []) (short : body.codeLength ≤ maxCodeLength)
    (sized : ∀ entry ∈ body.attributes, entry.table.byteSize < 2 ^ 32) :
    ∃ code ranges attributes,
      body.renumbered.Form pool body.renumberedSlots code ranges attributes ∧
      Bytes.clear (spareCode body.renumberedSlots) code = code ∧
      body.payloadSize = (body.renumbered.payload code ranges attributes).length ∧
      body.toBytes = .ok (Bytes.ofU16 body.nameIndex ++
        (Bytes.ofLength (body.renumbered.payload code ranges attributes).length ++
          body.renumbered.payload code ranges attributes)) := by
  have compact := compact_renumbered synced listed short
  obtain ⟨code, codeForm, cleared⟩ :=
    exists_code_renumbered synced listed wellFormed reached short
  obtain ⟨ranges, rangesWritten, rangeForms⟩ :=
    exists_ranges_renumbered synced listed encodable.ranges short
  obtain ⟨attributes, attributesWritten, attributeForms⟩ :=
    exists_attributes_renumbered synced listed encodable short sized
  have total : code.length = body.codeLength := by
    rw [codeForm.length, ← DecodedCode.extent_ofList, extent_encoded]
    exact compact.codeLength.symm
  have rangeCount : body.renumbered.ranges.length = body.ranges.length := List.length_map _
  have attributeCount : body.renumbered.attributes.length = body.attributes.length :=
    List.length_map _
  have formed : body.renumbered.Form pool body.renumberedSlots code ranges attributes := by
    refine ⟨compact, codeForm, ?_, rangeForms, ?_, attributeForms, ?_⟩
    · rw [total]
      rw [maxCodeLength] at short
      omega
    · rw [rangeCount]
      exact encodable.rangeCount
    · rw [attributeCount]
      exact encodable.attributeCount
  -- Renumbering changes no distance, so the code is written as that of the renumbered body.
  have slots : (body.laidOut.map Prod.snd).map (Slot.rename body.renumber) = body.renumberedSlots := by
    rw [map_snd_laidOut, renumberedSlots]
  have codeWritten : body.codeBytes = .ok code := by
    have renumberedCode := formed.codeBytes
    rw [cleared, codeBytes_eq, compact.laidOut, ← slots, List.mapM_map] at renumberedCode
    rw [codeBytes_eq]
    simp only [Function.comp_def, Slot.encoded_rename] at renumberedCode
    exact renumberedCode
  have encoded : body.encodedLength = code.length := by
    rw [total, show body.codeLength = body.renumbered.codeLength from rfl, compact.codeLength, ← slots,
      totalSize_map, totalSize_map]
    simp only [Slot.width_rename]
    rfl
  have sized : body.payloadSize = (body.renumbered.payload code ranges attributes).length := by
    have rangeSize := rangesWritten.length_eq fun _ _ written => length_rangeBytes written
    have attributeSize : attributes.length = Bytes.totalSize CodeAttribute.byteSize body.attributes :=
      attributesWritten.length_eq fun _ _ written => length_attributeBytes written
    rw [totalSize_const] at rangeSize
    simp only [payloadSize, payload, encoded, rangeCount, attributeCount, List.length_append,
      Bytes.length_ofU16, Bytes.length_ofLength, Bytes.length_ofCount, rangeSize, attributeSize]
    omega
  refine ⟨code, ranges, attributes, formed, cleared, sized, ?_⟩
  obtain ⟨rangeParts, rangesMapped, rfl⟩ := (sequence_iff_mapM _ _ _).mp rangesWritten
  obtain ⟨attributeParts, attributesMapped, rfl⟩ := (sequence_iff_mapM _ _ _).mp attributesWritten
  rw [← sized, Body.toBytes, codeWritten, rangesMapped, attributesMapped, encoded]
  simp only [bind, Except.bind, pure, Except.pure, payload, rangeCount, attributeCount,
    List.append_assoc]
  rfl

/-- A body with a computed layout is written, and reading its bytes gives the renumbered body. -/
theorem reads_back {pool : Pool} (wellFormed : body.WellFormed) (encodable : body.Encodable pool)
    (reached : body.oversized = []) (short : body.codeLength ≤ maxCodeLength)
    (sized : ∀ entry ∈ body.attributes, entry.table.byteSize < 2 ^ 32) :
    ∃ bytes, body.toBytes = .ok bytes ∧
      Body.read body.nameIndex pool body.context (bytes.drop 6) = .ok (body.renumbered, []) := by
  obtain ⟨code, ranges, attributes, formed, -, -, written⟩ :=
    form_renumbered synced listed wellFormed encodable reached short sized
  refine ⟨_, written, read_eq_ok_iff.mpr ⟨rfl, rfl, body.renumberedSlots, _, _, _, formed, ?_⟩⟩
  rw [List.append_nil]
  rfl

end RoundTrip

end Body

/-- A relaxed body is written, and reading its bytes gives the same body, with handles that number
its instructions in layout order. The length of a table is declared in 32 bits. Frames with long lists
of types can outgrow that, so the sizes of the tables are bounded. -/
theorem Edit.reads_back_of_relax {body : Body} {pool : Pool} {events : Array Event}
    {relaxed : Logged Edit} (listed : body.Listed) (wellFormed : body.WellFormed)
    (built : pool.Built) (encodable : body.Encodable pool) (states : body.StatesFit pool)
    (ran : Edit.relax ⟨⟨body, pool⟩, events⟩ = .ok () relaxed)
    (sized : ∀ entry ∈ relaxed.state.body.attributes, entry.table.byteSize < 2 ^ 32) :
    ∃ bytes, relaxed.state.body.toBytes = .ok bytes ∧
      Body.read relaxed.state.body.nameIndex relaxed.state.pool relaxed.state.body.context
        (bytes.drop 6) = .ok (relaxed.state.body.renumbered, []) := by
  have resting : Resting pool ⟨body, pool⟩ :=
    ⟨⟨listed, wellFormed, built, encodable, .inl rfl⟩, states⟩
  obtain ⟨kept, reached, short, last, synced⟩ := resting.relaxed ran
  exact Body.reads_back synced kept.listed kept.wellFormed kept.encodable reached short sized

/-- A conditional branch that needs an island, since the instruction after it has no frame, in code
with an exception range, line numbers and a variable. -/
def Body.farFramedBranch : Body where
  nameIndex := 1
  maxStack := 1
  maxLocals := 1
  slots := #[some ⟨.branch .ifeq (.to ⟨3⟩), 0⟩, some ⟨.branch .goto (.to ⟨2⟩), 0⟩,
    some ⟨.tableSwitch 0 (.to ⟨3⟩) 0 (List.replicate 8190 (.to ⟨3⟩)), 0⟩, some ⟨.simple .returnVoid, 0⟩]
  order := #[⟨0⟩, ⟨1⟩, ⟨2⟩, ⟨3⟩]
  codeLength := 0
  ranges := [⟨⟨0⟩, some ⟨1⟩, ⟨3⟩, none⟩]
  attributes := [⟨2, .frames [.new ⟨2⟩ .same, .new ⟨3⟩ .same]⟩,
    ⟨3, .lines [⟨⟨0⟩, 7⟩, ⟨⟨3⟩, 8⟩]⟩, ⟨4, .variables [⟨⟨1⟩, none, 5, 6, 0⟩]⟩]
  context := some ⟨1, "()V", true, false⟩

theorem Body.encodable_farFramedBranch : Body.farFramedBranch.Encodable Pool.tableNames := by
  refine ⟨?_, by decide, ?_, ?_, by decide, by decide⟩
  · intro range present
    rw [List.mem_singleton.mp present]
    refine ⟨by decide, ?_, by decide, by decide⟩
    intro handle stops
    rw [← Option.some.inj stops]
    decide
  · intro entry present
    simp only [farFramedBranch, List.mem_cons, List.not_mem_nil, or_false] at present
    rcases present with rfl | rfl | rfl
    · intro frame member
      have same : frame.kind = .same := by
        rcases List.mem_cons.mp member with rfl | later
        · rfl
        · rw [List.mem_singleton.mp later]
          rfl
      rw [same]
      exact ⟨by simp [FrameKind.types], by simp, by simp, by simp⟩
    · exact ⟨by decide, by decide⟩
    · refine ⟨by decide, fun entry present => ?_⟩
      rw [List.mem_singleton.mp present]
      exact ⟨by decide, fun handle stops => by cases stops⟩
  · intro entry present
    simp only [farFramedBranch, List.mem_cons, List.not_mem_nil, or_false] at present
    rcases present with rfl | rfl | rfl <;> rfl

theorem Body.statesFit_farFramedBranch : Body.farFramedBranch.StatesFit Pool.tableNames := by
  intro frames arranged known permuted ordered
  obtain rfl : frames = [.new ⟨2⟩ .same, .new ⟨3⟩ .same] := (Option.some.inj known).symm
  have inOrder : Body.farFramedBranch.FramesOrdered [.new ⟨2⟩ .same, .new ⟨3⟩ .same] := by
    rw [framesOrdered_iff]
    decide
  rw [inOrder.unique ordered permuted]
  intro context entry grown knownContext entered
  obtain rfl : context = ⟨1, "()V", true, false⟩ := (Option.some.inj knownContext).symm
  obtain ⟨-, ⟨descriptor, parsed, count⟩, -, -⟩ := MethodContext.spec_of_entryFrame entered
  have parameters : (MethodDescriptor.parse "()V").toOption.map (·.parameters.length) = some 0 := by
    decide +kernel
  rw [parsed] at parameters
  have unparameterized : descriptor.parameters.length = 0 := Option.some.inj parameters
  have none : entry.locals.length = 0 := by
    rw [count, unparameterized]
    rfl
  intro state present
  simp only [FrameState.expand, Frame.new, FrameState.apply, List.mem_cons, List.not_mem_nil,
    or_false, or_self] at present
  rw [present]
  exact ⟨by rw [none]; decide, Nat.zero_lt_succ _⟩

set_option maxRecDepth 20000 in
theorem Edit.reads_back_of_relax_farFramedBranch :
    ∃ relaxed bytes,
      Edit.relax ⟨⟨Body.farFramedBranch, Pool.tableNames⟩, #[]⟩ = .ok () relaxed ∧
        relaxed.state.body.size = 5 ∧ relaxed.state.body.ranges.length = 1 ∧
        (relaxed.state.body.attributes.map fun entry => entry.table.name) =
          ["StackMapTable", "LineNumberTable", "LocalVariableTable"] ∧
        (∀ entry ∈ relaxed.state.body.attributes, entry.table.byteSize < 2 ^ 32) ∧
        relaxed.state.body.toBytes = .ok bytes ∧
        Body.read relaxed.state.body.nameIndex relaxed.state.pool relaxed.state.body.context
          (bytes.drop 6) = .ok (relaxed.state.body.renumbered, []) := by
  have runs : relaxesWithin 2 (fun edit => edit.body.size = 5 ∧ edit.body.ranges.length = 1 ∧
      (edit.body.attributes.map fun entry => entry.table.name) =
        ["StackMapTable", "LineNumberTable", "LocalVariableTable"] ∧
      ∀ entry ∈ edit.body.attributes, entry.table.byteSize < 2 ^ 32)
      ⟨⟨Body.farFramedBranch, Pool.tableNames⟩, #[]⟩ = true := by
    decide +kernel
  obtain ⟨relaxed, ran, size, ranges, tables, sized⟩ := exists_relax (by decide) runs
  obtain ⟨bytes, written, read⟩ := reads_back_of_relax (by decide) (by decide +kernel)
    Pool.built_tableNames Body.encodable_farFramedBranch Body.statesFit_farFramedBranch ran sized
  exact ⟨relaxed, bytes, ran, size, ranges, tables, sized, written, read⟩

end Classfile
