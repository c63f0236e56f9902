import Classfile.Proofs.Encodability

/-!
The tables of an encodable body are written, and renaming the instructions changes no byte of them.
-/

namespace Classfile

open Reader

/-- Renamed handles have the positions of the handles they come from. -/
def Positions.Follows (positions renamed : Positions) (change : Handle → Handle) : Prop :=
  ∀ handle bci, positions handle = .ok bci → renamed (change handle) = .ok bci

section Renaming

variable {positions renamed : Positions} {change : Handle → Handle} {codeLength : Nat}

/-- An end with another handle has the same position. -/
theorem Positions.Follows.stop (follows : positions.Follows renamed change) {stop : Option Handle}
    {bci : Nat} (found : positions.ofStop codeLength stop = .ok bci) :
    renamed.ofStop codeLength (stop.map change) = .ok bci := by
  cases stop with
  | none => exact found
  | some handle => exact follows handle bci found

/-- A range with renamed handles is written as the same bytes. -/
theorem ExceptionRange.toBytes_mapHandle (follows : positions.Follows renamed change)
    {range : ExceptionRange} {bytes : Bytes} (written : range.toBytes positions codeLength = .ok bytes) :
    (range.mapHandle change).toBytes renamed codeLength = .ok bytes := by
  simp only [ExceptionRange.toBytes, exceptBind_eq_ok_iff, exceptPure_eq_ok_iff] at written ⊢
  obtain ⟨start, startAt, stop, stopAt, handler, handlerAt, same⟩ := written
  exact ⟨start, follows _ _ startAt, stop, follows.stop stopAt, handler, follows _ _ handlerAt, same⟩

theorem LineNumber.toBytes_mapHandle (follows : positions.Follows renamed change)
    {entry : LineNumber} {bytes : Bytes} (written : entry.toBytes positions = .ok bytes) :
    LineNumber.toBytes renamed { entry with start := change entry.start } = .ok bytes := by
  simp only [LineNumber.toBytes, exceptBind_eq_ok_iff, exceptPure_eq_ok_iff] at written ⊢
  obtain ⟨start, startAt, same⟩ := written
  exact ⟨start, follows _ _ startAt, same⟩

theorem LocalVariable.toBytes_mapHandle (follows : positions.Follows renamed change)
    {entry : LocalVariable} {bytes : Bytes}
    (written : entry.toBytes positions codeLength = .ok bytes) :
    (entry.mapHandle change).toBytes renamed codeLength = .ok bytes := by
  simp only [LocalVariable.toBytes, exceptBind_eq_ok_iff, exceptPure_eq_ok_iff] at written ⊢
  obtain ⟨start, startAt, stop, stopAt, same⟩ := written
  exact ⟨start, follows _ _ startAt, stop, follows.stop stopAt, same⟩

theorem VerificationType.toBytes_mapHandle (follows : positions.Follows renamed change)
    {type : VerificationType} {bytes : Bytes} (written : type.toBytes positions = .ok bytes) :
    (type.mapHandle change).toBytes renamed = .ok bytes := by
  cases type with
  | uninitialized creator =>
    simp only [VerificationType.mapHandle, VerificationType.toBytes, exceptBind_eq_ok_iff,
      exceptPure_eq_ok_iff] at written ⊢
    obtain ⟨bci, found, same⟩ := written
    exact ⟨bci, follows _ _ found, same⟩
  | _ => exact written

theorem VerificationType.listToBytes_mapHandle (follows : positions.Follows renamed change)
    {types : List VerificationType} {bytes : Bytes}
    (written : listToBytes positions types = .ok bytes) :
    listToBytes renamed (types.map (·.mapHandle change)) = .ok bytes := by
  rw [VerificationType.listToBytes_eq_ok_iff] at written ⊢
  exact written.map _ fun type _ part => toBytes_mapHandle follows

/-- The tag of an encoding does not depend on its handles. -/
theorem FrameKind.tag_mapHandle (kind : FrameKind) (delta : UInt16) :
    (kind.mapHandle change).tag delta = kind.tag delta := by
  cases kind with
  | append added => exact congrArg FrameTag.append (List.length_map _)
  | _ => rfl

theorem FrameKind.operandBytes_mapHandle (follows : positions.Follows renamed change)
    {kind : FrameKind} {delta : UInt16} {operands : Bytes}
    (written : kind.operandBytes positions delta = .ok operands) :
    (kind.mapHandle change).operandBytes renamed delta = .ok operands := by
  cases kind with
  | same | sameExtended | chop count => exact written
  | oneItem item => exact VerificationType.toBytes_mapHandle follows written
  | oneItemExtended item =>
    simp only [FrameKind.mapHandle, FrameKind.operandBytes, exceptBind_eq_ok_iff] at written ⊢
    obtain ⟨part, itemWritten, same⟩ := written
    exact ⟨part, VerificationType.toBytes_mapHandle follows itemWritten, same⟩
  | append added =>
    simp only [FrameKind.mapHandle, FrameKind.operandBytes, exceptBind_eq_ok_iff] at written ⊢
    obtain ⟨part, addedWritten, same⟩ := written
    exact ⟨part, VerificationType.listToBytes_mapHandle follows addedWritten, same⟩
  | full locals stack =>
    simp only [FrameKind.mapHandle, FrameKind.operandBytes, List.length_map, exceptBind_eq_ok_iff]
      at written ⊢
    obtain ⟨first, localsWritten, second, stackWritten, same⟩ := written
    exact ⟨first, VerificationType.listToBytes_mapHandle follows localsWritten, second,
      VerificationType.listToBytes_mapHandle follows stackWritten, same⟩

theorem Frame.toBytes_mapHandle (follows : positions.Follows renamed change) {frame : Frame}
    {bytes : Bytes} (written : frame.toBytes positions = .ok bytes) :
    (frame.mapHandle change).toBytes renamed = .ok bytes := by
  rw [Frame.toBytes_eq_ok_iff] at written ⊢
  simp only [Frame.mapHandle, FrameKind.tag_mapHandle]
  obtain ⟨valid, operands, operandsWritten, rfl⟩ := written
  exact ⟨valid, operands, FrameKind.operandBytes_mapHandle follows operandsWritten, rfl⟩

/-- Rows that are written as before make a table that is written as before. -/
theorem CodeTable.rowsToBytes_map {A : Type} {row renamedRow : A → Except Error Bytes}
    {rows : List A} {bytes : Bytes} (rename : A → A)
    (kept : ∀ value part, row value = .ok part → renamedRow (rename value) = .ok part)
    (written : CodeTable.rowsToBytes row rows = .ok bytes) :
    CodeTable.rowsToBytes renamedRow (rows.map rename) = .ok bytes := by
  rw [CodeTable.rowsToBytes_eq_ok_iff] at written ⊢
  obtain ⟨contents, formed, same⟩ := written
  refine ⟨contents, formed.map rename fun value _ part => kept value part, ?_⟩
  rw [List.length_map]
  exact same

/-- A table with renamed handles is written as the same bytes. -/
theorem CodeTable.toBytes_mapHandle (follows : positions.Follows renamed change)
    {table : CodeTable} {bytes : Bytes}
    (written : table.toBytes positions codeLength = .ok bytes) :
    (table.mapHandle change).toBytes renamed codeLength = .ok bytes := by
  cases table with
  | frames entries =>
    exact CodeTable.rowsToBytes_map _ (fun _ _ => Frame.toBytes_mapHandle follows) written
  | lines entries =>
    exact CodeTable.rowsToBytes_map _ (fun _ _ => LineNumber.toBytes_mapHandle follows) written
  | _ entries =>
    exact CodeTable.rowsToBytes_map _ (fun _ _ => LocalVariable.toBytes_mapHandle follows) written

/-- The name of a table does not depend on its handles. -/
theorem CodeTable.name_mapHandle (table : CodeTable) :
    (table.mapHandle change).name = table.name := by
  cases table <;> rfl

/-- Renaming changes no size, since it changes no byte. -/
theorem CodeTable.byteSize_mapHandle (follows : positions.Follows renamed change)
    {table : CodeTable} {bytes : Bytes} (written : table.toBytes positions codeLength = .ok bytes) :
    (table.mapHandle change).byteSize = table.byteSize := by
  rw [← CodeTable.length_toBytes written,
    ← CodeTable.length_toBytes (CodeTable.toBytes_mapHandle follows written)]

theorem CodeAttribute.toBytes_mapHandle (follows : positions.Follows renamed change)
    {entry : CodeAttribute} {bytes : Bytes}
    (written : entry.toBytes positions codeLength = .ok bytes) :
    CodeAttribute.toBytes renamed codeLength { entry with table := entry.table.mapHandle change } =
      .ok bytes := by
  simp only [CodeAttribute.toBytes, exceptBind_eq_ok_iff] at written ⊢
  obtain ⟨contents, tableWritten, same⟩ := written
  refine ⟨contents, CodeTable.toBytes_mapHandle follows tableWritten, ?_⟩
  rw [CodeTable.byteSize_mapHandle follows tableWritten]
  exact same

/-- Frames with renamed handles are chained as before. -/
theorem Frame.chained_mapHandle (follows : positions.Follows renamed change)
    {previous : Option Nat} {frames : List Frame} (chained : Frame.Chained positions previous frames) :
    Frame.Chained renamed previous (frames.map (Frame.mapHandle change)) := by
  induction frames generalizing previous with
  | nil => trivial
  | cons frame rest inductionHypothesis =>
    obtain ⟨located, continued⟩ := chained
    exact ⟨follows _ _ located, inductionHypothesis continued⟩

end Renaming

/-- A sound encoding that holds its delta has a valid tag. -/
theorem FrameKind.Sound.valid_tag {live : Handle → Prop} {kind : FrameKind} {delta : UInt16}
    (sound : kind.Sound live) (fits : kind.fits delta = true) : (kind.tag delta).Valid := by
  cases kind with
  | same | oneItem => exact of_decide_eq_true fits
  | chop count => exact sound.chopped count rfl
  | append added => exact sound.appended added rfl
  | oneItemExtended | sameExtended | full => trivial

namespace Frame

/-- The delta from one position to a later one leads there. -/
theorem position_deltaFrom {previous : Option Nat} {bci : Nat}
    (after : ∀ start, previous = some start → start < bci) (small : bci < 65536) :
    position previous (deltaFrom previous bci) = bci := by
  apply position_deltaFrom_of_near after
  cases previous with
  | none => exact small
  | some start =>
    show bci - start - 1 < 65536
    omega

/-- The deltas of settled frames lead to their positions. -/
theorem chained_settled {positions : Positions} {previous : Option Nat}
    {arranged : List (Nat × Frame)} (ascending : Ascending previous arranged)
    (found : ∀ entry ∈ arranged, positions entry.2.target = .ok entry.1)
    (small : ∀ entry ∈ arranged, entry.1 < 65536) :
    Chained positions previous (settled previous arranged) := by
  induction arranged generalizing previous with
  | nil => trivial
  | cons placed rest inductionHypothesis =>
    obtain ⟨bci, frame⟩ := placed
    have exactly : position previous (deltaFrom previous bci) = bci := by
      apply position_deltaFrom _ (small (bci, frame) (by simp))
      intro start known
      exact ascending.2 start known (bci, frame) (by simp)
    rw [settled, Chained]
    simp only [exactly]
    refine ⟨found (bci, frame) (by simp), inductionHypothesis ascending.tail ?_ ?_⟩
    · exact fun entry present => found entry (by simp [present])
    · exact fun entry present => small entry (by simp [present])

/-- Settled frames hold their deltas. -/
theorem fits_settled {previous : Option Nat} {arranged : List (Nat × Frame)} :
    ∀ frame ∈ settled previous arranged, frame.kind.fits frame.delta = true := by
  induction arranged generalizing previous with
  | nil => simp [settled]
  | cons placed rest inductionHypothesis =>
    obtain ⟨bci, frame⟩ := placed
    intro other present
    rcases List.mem_cons.mp present with rfl | later
    · exact FrameKind.fits_promoted _ _
    · exact inductionHypothesis other later

theorem length_settled (previous : Option Nat) (arranged : List (Nat × Frame)) :
    (settled previous arranged).length = arranged.length := by
  induction arranged generalizing previous with
  | nil => rfl
  | cons placed rest inductionHypothesis => simp [settled, inductionHypothesis]

/-- There are no more frames than positions. -/
theorem Ascending.length_le {previous : Option Nat} {arranged : List (Nat × Frame)}
    (ascending : Ascending previous arranged) {bound : Nat}
    (below : ∀ entry ∈ arranged, entry.1 < bound) : arranged.length ≤ bound := by
  have distinct : (arranged.map Prod.fst).Nodup := by
    rw [List.Nodup, List.pairwise_map]
    exact ascending.1.imp Nat.ne_of_lt
  have contained : (arranged.map Prod.fst) ⊆ List.range bound := by
    intro bci present
    obtain ⟨entry, member, rfl⟩ := List.mem_map.mp present
    exact List.mem_range.mpr (below entry member)
  have counted := (List.subperm_of_subset distinct contained).length_le
  rwa [List.length_map, List.length_range] at counted

end Frame

namespace Body

section Writing

variable {before body : Body}

/-- Once the layout is computed, instructions in use have positions in the code. -/
theorem Synced.exists_bci (synced : Synced before body) (listed : body.Listed) {handle : Handle}
    (present : body.contains handle = true) :
    ∃ bci, body.bci handle = .ok bci ∧ bci < body.codeLength := by
  obtain ⟨slot, found⟩ := contains_iff.mp present
  have bounds := synced.laid.bounds ((listed.live handle).mpr present) found
  have positive := slot.instruction.width_pos
  exact ⟨slot.bci, bci_eq_ok_iff.mpr ⟨slot, found, rfl⟩, by omega⟩

/-- Once the layout is computed, ends have positions up to the length of the code. -/
theorem Synced.exists_stop (synced : Synced before body) (listed : body.Listed)
    {stop : Option Handle} (present : ∀ handle, stop = some handle → body.contains handle = true) :
    ∃ bci, body.stopBci stop = .ok bci ∧ bci ≤ body.codeLength := by
  cases stop with
  | none => exact ⟨body.codeLength, rfl, Nat.le_refl _⟩
  | some handle =>
    obtain ⟨bci, found, below⟩ := synced.exists_bci listed (present handle rfl)
    exact ⟨bci, found, Nat.le_of_lt below⟩

/-- The frames of a computed layout have deltas that lead to them, and there are not too many. -/
theorem Synced.frames_chained (synced : Synced before body) (listed : body.Listed)
    (short : body.codeLength ≤ maxCodeLength) {frames : List Frame}
    (known : body.frames? = some frames) :
    frames.length < 65536 ∧ Frame.Chained body.bci none frames ∧
      ∀ frame ∈ frames, frame.kind.fits frame.delta = true := by
  rcases synced.frames?_eq with ⟨_, unknown⟩ | ⟨old, new, _, knownNew, settled⟩
  · rw [unknown] at known
    cases known
  · rw [knownNew, Option.some.injEq] at known
    rw [← known]
    obtain ⟨arranged, _, found, ascending, rfl⟩ := settled
    have below : ∀ entry ∈ arranged, entry.1 < 65535 := by
      intro entry present
      obtain ⟨slot, foundSlot, starts⟩ := bci_eq_ok_iff.mp (found entry present)
      obtain ⟨bci, located, inside⟩ := synced.exists_bci listed (contains_iff.mpr ⟨slot, foundSlot⟩)
      rw [found entry present, Except.ok.injEq] at located
      rw [maxCodeLength] at short
      omega
    have count := ascending.length_le below
    refine ⟨?_, Frame.chained_settled ascending found ?_, Frame.fits_settled⟩
    · rw [Frame.length_settled]
      omega
    · intro entry present
      have inside := below entry present
      omega

variable (synced : Synced before body) (listed : body.Listed)
include synced listed

/-- A sound range is written. -/
theorem exists_rangeBytes {range : ExceptionRange} (sound : range.Sound body) :
    ∃ bytes, range.toBytes body.bci body.codeLength = .ok bytes := by
  obtain ⟨start, startAt, _⟩ := synced.exists_bci listed sound.start
  obtain ⟨stop, stopAt, _⟩ := synced.exists_stop listed sound.stop
  obtain ⟨handler, handlerAt, _⟩ := synced.exists_bci listed sound.handler
  simp only [ExceptionRange.toBytes, exceptBind_eq_ok_iff, exceptPure_eq_ok_iff]
  exact ⟨_, start, startAt, stop, stopAt, handler, handlerAt, rfl⟩

/-- A type whose creator is in use is written. -/
theorem exists_typeBytes {type : VerificationType}
    (live : ∀ creator, type.creator? = some creator → body.contains creator = true) :
    ∃ bytes, type.toBytes body.bci = .ok bytes := by
  cases type with
  | uninitialized creator =>
    obtain ⟨bci, found, _⟩ := synced.exists_bci listed (live creator rfl)
    simp only [VerificationType.toBytes, exceptBind_eq_ok_iff, exceptPure_eq_ok_iff]
    exact ⟨_, bci, found, rfl⟩
  | _ => exact ⟨_, rfl⟩

theorem exists_typesBytes {types : List VerificationType}
    (live : ∀ type ∈ types, ∀ creator, type.creator? = some creator → body.contains creator = true) :
    ∃ bytes, VerificationType.listToBytes body.bci types = .ok bytes := by
  simp only [VerificationType.listToBytes_eq_ok_iff]
  exact sequence_of_forall fun type present => exists_typeBytes synced listed (live type present)

/-- A sound frame that holds its delta is written. -/
theorem exists_frameBytes {frame : Frame}
    (sound : frame.kind.Sound fun handle => body.contains handle = true)
    (fits : frame.kind.fits frame.delta = true) : ∃ bytes, frame.toBytes body.bci = .ok bytes := by
  have creators := sound.creators
  suffices ∃ operands, frame.kind.operandBytes body.bci frame.delta = .ok operands by
    obtain ⟨operands, written⟩ := this
    exact ⟨_, Frame.toBytes_eq_ok_iff.mpr ⟨sound.valid_tag fits, operands, written, rfl⟩⟩
  obtain ⟨target, delta, kind⟩ := frame
  cases kind with
  | same | sameExtended | chop => exact ⟨_, rfl⟩
  | oneItem item => exact exists_typeBytes synced listed (creators item (by simp [FrameKind.types]))
  | oneItemExtended item =>
    obtain ⟨bytes, written⟩ := exists_typeBytes synced listed
      (creators item (by simp [FrameKind.types]))
    exact ⟨_, exceptBind_eq_ok_iff.mpr ⟨bytes, written, rfl⟩⟩
  | append added =>
    obtain ⟨bytes, written⟩ := exists_typesBytes synced listed creators
    exact ⟨_, exceptBind_eq_ok_iff.mpr ⟨bytes, written, rfl⟩⟩
  | full locals stack =>
    obtain ⟨first, localsWritten⟩ := @exists_typesBytes _ _ synced listed locals
      fun type present => creators type (List.mem_append_left _ present)
    obtain ⟨second, stackWritten⟩ := @exists_typesBytes _ _ synced listed stack
      fun type present => creators type (List.mem_append_right _ present)
    simp only [FrameKind.operandBytes, exceptBind_eq_ok_iff, exceptPure_eq_ok_iff]
    exact ⟨_, first, localsWritten, second, stackWritten, rfl⟩

theorem exists_variableBytes {entry : LocalVariable} (sound : entry.Sound body) :
    ∃ bytes, entry.toBytes body.bci body.codeLength = .ok bytes := by
  obtain ⟨start, startAt, _⟩ := synced.exists_bci listed sound.start
  obtain ⟨stop, stopAt, _⟩ := synced.exists_stop listed fun handle known => (sound.stop handle known).1
  simp only [LocalVariable.toBytes, exceptBind_eq_ok_iff, exceptPure_eq_ok_iff]
  exact ⟨_, start, startAt, stop, stopAt, rfl⟩

omit synced listed in
/-- A table is written if all of its rows are. -/
theorem exists_rowsBytes {A : Type} {row : A → Except Error Bytes} {rows : List A}
    (written : ∀ value ∈ rows, ∃ bytes, row value = .ok bytes) :
    ∃ bytes, CodeTable.rowsToBytes row rows = .ok bytes := by
  obtain ⟨contents, formed⟩ := sequence_of_forall written
  exact ⟨_, (CodeTable.rowsToBytes_eq_ok_iff row rows _).mpr ⟨contents, formed, rfl⟩⟩

/-- A sound table is written, if the deltas of its frames fit. -/
theorem exists_tableBytes {table : CodeTable} (sound : table.Sound body)
    (fits : ∀ frames, table = .frames frames →
      ∀ frame ∈ frames, frame.kind.fits frame.delta = true) :
    ∃ bytes, table.toBytes body.bci body.codeLength = .ok bytes := by
  cases table with
  | frames entries =>
    apply exists_rowsBytes
    intro frame present
    exact exists_frameBytes synced listed (sound frame present) (fits entries rfl frame present)
  | lines entries =>
    apply exists_rowsBytes
    intro entry present
    obtain ⟨start, startAt, _⟩ := synced.exists_bci listed (sound.2 entry present)
    simp only [LineNumber.toBytes, exceptBind_eq_ok_iff, exceptPure_eq_ok_iff]
    exact ⟨_, start, startAt, rfl⟩
  | _ entries =>
    apply exists_rowsBytes
    intro entry present
    exact exists_variableBytes synced listed (sound.2 entry present)

variable (short : body.codeLength ≤ maxCodeLength) {renamed : Positions} {change : Handle → Handle}
  (follows : Positions.Follows body.bci renamed change)
  (bounded : ∀ handle bci, renamed handle = .ok bci → bci < 65536)
include short follows bounded

omit synced listed follows in
/-- A range with renamed handles can be read back. -/
theorem writable_range {range : ExceptionRange} (catchType : range.catchType ≠ some 0) :
    (range.mapHandle change).Writable renamed body.codeLength := by
  refine ⟨bounded _, ?_, bounded _, catchType⟩
  intro bci found
  cases stop : range.stop with
  | none =>
    simp only [ExceptionRange.mapHandle, stop, Option.map_none, Positions.ofStop,
      Except.ok.injEq] at found
    rw [maxCodeLength] at short
    omega
  | some handle =>
    simp only [ExceptionRange.mapHandle, stop, Option.map_some, Positions.ofStop] at found
    exact bounded _ bci found

theorem writable_variable {entry : LocalVariable} (sound : entry.Sound body) :
    (entry.mapHandle change).Writable renamed body.codeLength := by
  obtain ⟨start, startAt, startInside⟩ := synced.exists_bci listed sound.start
  obtain ⟨stop, stopAt, stopInside⟩ :=
    synced.exists_stop listed fun handle known => (sound.stop handle known).1
  have ordered : start ≤ stop := by
    cases known : entry.stop with
    | none =>
      rw [known] at stopAt
      cases stopAt
      exact Nat.le_of_lt startInside
    | some handle =>
      rw [known] at stopAt
      obtain ⟨one, foundStart, rfl⟩ := bci_eq_ok_iff.mp startAt
      obtain ⟨two, foundStop, rfl⟩ := bci_eq_ok_iff.mp stopAt
      have ranked := (sound.stop handle known).2
      have positioned := synced.bci_lt_iff listed foundStop foundStart
      omega
  refine ⟨bounded _, ?_⟩
  intro first last firstAt lastAt
  rw [show (entry.mapHandle change).start = change entry.start from rfl, follows _ _ startAt,
    Except.ok.injEq] at firstAt
  rw [show (entry.mapHandle change).stop = entry.stop.map change from rfl, follows.stop stopAt,
    Except.ok.injEq] at lastAt
  rw [maxCodeLength] at short
  omega

omit synced listed short follows in
theorem writable_kind {kind : FrameKind} {live : Handle → Prop} (sound : kind.Sound live) :
    (kind.mapHandle change).Writable renamed := by
  constructor
  · intro type _ creator _
    exact bounded creator
  · intro locals stack same
    cases kind with
    | full first second =>
      simp only [FrameKind.mapHandle, FrameKind.full.injEq] at same
      rw [← same.1, ← same.2, List.length_map, List.length_map]
      exact sound.counted first second rfl
    | _ => cases same

/-- A table with renamed handles can be read back. -/
theorem writable_table {table : CodeTable} (sound : table.Sound body)
    (chained : ∀ frames, table = .frames frames →
      frames.length < 65536 ∧ Frame.Chained body.bci none frames) :
    (table.mapHandle change).Writable renamed body.codeLength := by
  cases table with
  | frames entries =>
    obtain ⟨count, leads⟩ := chained entries rfl
    refine ⟨⟨by simpa using count, Frame.chained_mapHandle follows leads⟩, ?_⟩
    intro frame present
    obtain ⟨old, member, rfl⟩ := List.mem_map.mp present
    exact writable_kind bounded (sound old member)
  | lines entries =>
    refine ⟨by simpa using sound.1, ?_⟩
    intro entry present
    exact bounded _
  | _ entries =>
    refine ⟨by simpa using sound.1, ?_⟩
    intro entry present
    obtain ⟨old, member, rfl⟩ := List.mem_map.mp present
    exact writable_variable synced listed short follows bounded (sound.2 old member)

end Writing

/-- The only table of frames is the one that the body knows. -/
theorem frames?_of_mem {body : Body}
    (single : body.attributes.countP (fun entry => entry.table.isFrames) ≤ 1)
    {entry : CodeAttribute} (present : entry ∈ body.attributes) {frames : List Frame}
    (same : entry.table = .frames frames) : body.frames? = some frames := by
  have framed : entry.table.isFrames = true := by rw [same]; rfl
  cases known : body.frames? with
  | none =>
    have missing := List.findSome?_eq_none_iff.mp known entry present
    rw [same] at missing
    cases missing
  | some other =>
    have replaced := replaceFrames_self body other body.attributes known
    rw [← replaced] at present
    rcases mem_replaceFrames present single with ⟨table, _⟩ | ⟨_, unframed⟩
    · rw [same, CodeTable.frames.injEq] at table
      rw [table]
    · rw [framed] at unframed
      cases unframed

end Body

end Classfile
