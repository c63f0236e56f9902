import Classfile.Proofs.BodyForm
import Classfile.Proofs.Encodability

/-!
What is read is sound: every range and every table of a body that was read refers to instructions of
the body, and frames stand in the order in which their instructions are laid out.
-/

namespace Classfile

/-- Chained frames have positions. -/
theorem Frame.Chained.exists_position {positions : Positions} {previous : Option Nat}
    {frames : List Frame} (chained : Frame.Chained positions previous frames) {frame : Frame}
    (present : frame ∈ frames) : ∃ bci, positions frame.target = .ok bci := by
  induction frames generalizing previous with
  | nil => cases present
  | cons first rest inductionHypothesis =>
    rcases List.mem_cons.mp present with rfl | later
    · exact ⟨_, chained.1⟩
    · exact inductionHypothesis chained.2 later

/-- The creator of a type that is written has a position. -/
theorem VerificationType.exists_position {positions : Positions} {type : VerificationType}
    {bytes : Bytes} (written : type.toBytes positions = .ok bytes) {creator : Handle}
    (named : type.creator? = some creator) : ∃ bci, positions creator = .ok bci := by
  cases type with
  | uninitialized other =>
    cases named
    obtain ⟨bci, found, _⟩ := exceptBind_eq_ok_iff.mp written
    exact ⟨bci, found⟩
  | _ => cases named

/-- A frame that is written refers to instructions that have positions. -/
theorem FrameKind.sound_of_toBytes {positions : Positions} {live : Handle → Prop}
    (located : ∀ handle bci, positions handle = .ok bci → live handle) {frame : Frame} {bytes : Bytes}
    (written : frame.toBytes positions = .ok bytes) (writable : frame.kind.Writable positions) :
    frame.kind.Sound live := by
  obtain ⟨valid, operands, operandsWritten, _⟩ := Frame.toBytes_eq_ok_iff.mp written
  obtain ⟨target, delta, kind⟩ := frame
  refine ⟨?_, ?_, ?_, writable.counts⟩
  · intro type present creator named
    obtain ⟨part, typeWritten⟩ := FrameKind.exists_typeBytes operandsWritten present
    obtain ⟨bci, found⟩ := VerificationType.exists_position typeWritten named
    exact located creator bci found
  · rintro count ⟨⟩
    exact valid
  · rintro added ⟨⟩
    exact valid

namespace Body

section Form

variable {body : Body} {pool : Pool} {slots : List Slot} {code ranges attributes : Bytes}

/-- A handle with a position is in use. -/
theorem contains_of_bci {body : Body} {handle : Handle} {bci : Nat}
    (found : body.bci handle = .ok bci) : body.contains handle = true := by
  obtain ⟨slot, foundSlot, _⟩ := bci_eq_ok_iff.mp found
  exact contains_iff.mpr ⟨slot, foundSlot⟩

/-- The layout of a body in its form is the one that is computed. -/
theorem Form.synced (formed : body.Form pool slots code ranges attributes) : Synced body body :=
  @Listed.synced_of_sync ⟨body, #[]⟩ _ formed.compact.listed (formed.sync #[])

/-- The ranges of a form are sound. -/
theorem Form.range_sound (formed : body.Form pool slots code ranges attributes)
    {range : ExceptionRange} (present : range ∈ body.ranges) : range.Sound body := by
  obtain ⟨bytes, written, writable⟩ := formed.rangeForms.exists_form present
  simp only [ExceptionRange.toBytes, exceptBind_eq_ok_iff] at written
  obtain ⟨start, startAt, stop, stopAt, handler, handlerAt, _⟩ := written
  refine ⟨contains_of_bci startAt, ?_, contains_of_bci handlerAt, writable.catchType⟩
  intro handle ends
  rw [ends] at stopAt
  exact contains_of_bci stopAt

theorem Form.variable_sound (formed : body.Form pool slots code ranges attributes)
    {entry : LocalVariable} {bytes : Bytes}
    (written : entry.toBytes body.bci body.codeLength = .ok bytes)
    (writable : entry.Writable body.bci body.codeLength) : entry.Sound body := by
  simp only [LocalVariable.toBytes, exceptBind_eq_ok_iff] at written
  obtain ⟨start, startAt, stop, stopAt, _⟩ := written
  refine ⟨contains_of_bci startAt, ?_⟩
  intro handle ends
  have ordered := (writable.length start stop startAt stopAt).1
  rw [ends] at stopAt
  refine ⟨contains_of_bci stopAt, ?_⟩
  obtain ⟨one, foundStart, rfl⟩ := bci_eq_ok_iff.mp startAt
  obtain ⟨two, foundStop, rfl⟩ := bci_eq_ok_iff.mp stopAt
  have ranked := formed.synced.bci_lt_iff formed.compact.listed foundStop foundStart
  omega

theorem Form.table_sound (formed : body.Form pool slots code ranges attributes)
    {entry : CodeAttribute} (present : entry ∈ body.attributes) : entry.table.Sound body := by
  obtain ⟨bytes, written, writable⟩ := formed.attributeForms.exists_form present
  obtain ⟨nameIndex, table⟩ := entry
  simp only [CodeAttribute.toBytes, exceptBind_eq_ok_iff] at written
  obtain ⟨contents, written, _⟩ := written
  have contained := writable.table
  cases table with
  | frames entries =>
    obtain ⟨_, sequence, _⟩ := (CodeTable.rowsToBytes_eq_ok_iff _ _ _).mp written
    intro frame member
    obtain ⟨part, frameWritten⟩ := sequence.exists_form member
    exact FrameKind.sound_of_toBytes (fun _ _ found => contains_of_bci found) frameWritten
      (contained.2 frame member)
  | lines entries =>
    obtain ⟨_, sequence, _⟩ := (CodeTable.rowsToBytes_eq_ok_iff _ _ _).mp written
    refine ⟨contained.1, fun entry member => ?_⟩
    obtain ⟨part, lineWritten⟩ := sequence.exists_form member
    simp only [LineNumber.toBytes, exceptBind_eq_ok_iff] at lineWritten
    obtain ⟨start, startAt, _⟩ := lineWritten
    exact contains_of_bci startAt
  | _ entries =>
    obtain ⟨_, sequence, _⟩ := (CodeTable.rowsToBytes_eq_ok_iff _ _ _).mp written
    refine ⟨contained.1, fun entry member => ?_⟩
    obtain ⟨part, variableWritten⟩ := sequence.exists_form member
    exact formed.variable_sound variableWritten (contained.2 entry member)

/-- The frames of a form are at instructions in use. -/
theorem Form.frame_live (formed : body.Form pool slots code ranges attributes)
    {entry : CodeAttribute} (present : entry ∈ body.attributes) {frames : List Frame}
    (framed : entry.table = .frames frames) {frame : Frame} (member : frame ∈ frames) :
    body.contains frame.target = true := by
  obtain ⟨bytes, _, writable⟩ := formed.attributeForms.exists_form present
  have contained := writable.table
  rw [framed] at contained
  obtain ⟨bci, found⟩ := contained.1.2.exists_position member
  exact contains_of_bci found

/-- The frames of a form are in layout order. -/
theorem Form.framesOrdered (formed : body.Form pool slots code ranges attributes)
    {frames : List Frame} (known : body.frames? = some frames) : body.FramesOrdered frames := by
  obtain ⟨chained, fits⟩ := formed.framed known
  obtain ⟨placed, rfl, found, ascending, _⟩ :=
    Frame.settleOnto_of_chained frames [] [] none chained fits
  exact formed.synced.framesOrdered formed.compact.listed found ascending

end Form

end Body

end Classfile
