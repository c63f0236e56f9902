import Classfile.Proofs.Reading
import Classfile.Proofs.Running

/-!
Tag bytes of stack map frames.

The byte a frame starts with says how the frame is encoded. In a compact encoding it also holds the
delta of the frame, and where locals are chopped or appended their number. `FrameTag` is what such a
byte says; the bytes from 128 to 246 are reserved and say nothing. A frame is written as the byte of
its tag followed by its operands, and reading a frame dispatches on the tag.
-/

namespace Classfile

/-- What the first byte of a frame says. -/
inductive FrameTag where
  | same (delta : UInt16)
  | oneItem (delta : UInt16)
  | oneItemExtended
  | chop (count : UInt8)
  | sameExtended
  | append (count : Nat)
  | full
  deriving DecidableEq

namespace FrameTag

/-- A compact tag holds a delta of at most 63, and one to three locals are chopped or appended. -/
def Valid : FrameTag → Prop
  | .same delta | .oneItem delta => delta ≤ 63
  | .chop count => 0 < count ∧ count < 4
  | .append count => 0 < count ∧ count < 4
  | .oneItemExtended | .sameExtended | .full => True

instance : DecidablePred Valid
  | .same _ | .oneItem _ => inferInstanceAs (Decidable (_ ≤ _))
  | .chop _ | .append _ => inferInstanceAs (Decidable (_ ∧ _))
  | .oneItemExtended | .sameExtended | .full => inferInstanceAs (Decidable True)

/-- The byte that a tag is written as. -/
def byte : FrameTag → UInt8
  | .same delta => delta.toUInt8
  | .oneItem delta => delta.toUInt8 + 64
  | .oneItemExtended => 247
  | .chop count => 251 - count
  | .sameExtended => 251
  | .append count => UInt8.ofNat (251 + count)
  | .full => 255

/-- The tag that a byte stands for. -/
def ofByte? (byte : UInt8) : Option FrameTag :=
  if byte < 64 then some (.same byte.toUInt16)
  else if byte < 128 then some (.oneItem (byte.toUInt16 - 64))
  else if byte < 247 then none
  else if byte = 247 then some .oneItemExtended
  else if byte < 251 then some (.chop (251 - byte))
  else if byte = 251 then some .sameExtended
  else if byte < 255 then some (.append (byte.toNat - 251))
  else some .full

/-- A byte says what the valid tag says that is written as it. -/
theorem ofByte?_sound {byte : UInt8} {tag : FrameTag} (known : ofByte? byte = some tag) :
    tag.Valid ∧ tag.byte = byte := by
  have every : ∀ number < 256, ∀ tag ∈ ofByte? (UInt8.ofNat number),
      tag.Valid ∧ tag.byte = UInt8.ofNat number := by decide +kernel
  have found := every byte.toNat byte.toNat_lt
  rw [UInt8.ofNat_toNat] at found
  exact found tag known

/-- The byte of a valid tag stands for it. -/
theorem ofByte?_byte {tag : FrameTag} (valid : tag.Valid) : ofByte? tag.byte = some tag := by
  have compact : ∀ number < 64,
      ofByte? (same (UInt16.ofNat number)).byte = some (same (UInt16.ofNat number)) ∧
      ofByte? (oneItem (UInt16.ofNat number)).byte = some (oneItem (UInt16.ofNat number)) := by
    decide +kernel
  have counts : ∀ count < 4, 0 < count →
      ofByte? (chop (UInt8.ofNat count)).byte = some (chop (UInt8.ofNat count)) ∧
      ofByte? (append count).byte = some (append count) := by
    decide +kernel
  cases tag with
  | same delta =>
    have small := (compact delta.toNat (Nat.lt_succ_of_le (UInt16.le_iff_toNat_le.mp valid))).1
    rwa [UInt16.ofNat_toNat] at small
  | oneItem delta =>
    have small := (compact delta.toNat (Nat.lt_succ_of_le (UInt16.le_iff_toNat_le.mp valid))).2
    rwa [UInt16.ofNat_toNat] at small
  | chop count =>
    have number := (counts count.toNat (UInt8.lt_iff_toNat_lt.mp valid.2)
      (UInt8.lt_iff_toNat_lt.mp valid.1)).1
    rwa [UInt8.ofNat_toNat] at number
  | append count => exact (counts count valid.2 valid.1).2
  | oneItemExtended | sameExtended | full => rfl

/-- What follows depends on the tag, and a reserved byte is an error. -/
def dispatch {A : Type} (follow : FrameTag → Reader A) : Reader A := do
  let byte ← Reader.u8
  match ofByte? byte with
  | some tag => follow tag
  | none => Reader.fail (.unknownFrameType byte)

/-- The rest of a frame after its tag. -/
def read (code : DecodedCode) : FrameTag → Reader (UInt16 × FrameKind)
  | .same delta => return (delta, .same)
  | .oneItem delta => do return (delta, .oneItem (← VerificationType.read code))
  | .oneItemExtended => do
    let delta ← Reader.u16
    return (delta, .oneItemExtended (← VerificationType.read code))
  | .chop count => do return (← Reader.u16, .chop count)
  | .sameExtended => do return (← Reader.u16, .sameExtended)
  | .append count => do
    let delta ← Reader.u16
    return (delta, .append (← Reader.many (VerificationType.read code) count))
  | .full => do
    let delta ← Reader.u16
    let locals ← Reader.table (VerificationType.read code)
    let stack ← Reader.table (VerificationType.read code)
    return (delta, .full locals stack)

/-- The bytes of a frame are the byte of a valid tag and what follows such a tag. -/
theorem dispatch_reads {A : Type} {follow : FrameTag → Reader A} {form : FrameTag → A → Bytes → Prop}
    (reads : ∀ tag, (follow tag).Reads (form tag)) :
    (dispatch follow).Reads fun value bytes =>
      ∃ tag operands, tag.Valid ∧ form tag value operands ∧ bytes = tag.byte :: operands := by
  intro input value rest
  simp only [dispatch, Reader.bind_eq_ok_iff, Reader.u8_eq_ok_iff]
  constructor
  · rintro ⟨byte, middle, rfl, accepted⟩
    cases known : ofByte? byte with
    | none => simp [known, Reader.fail_eq_ok_iff] at accepted
    | some tag =>
      rw [known] at accepted
      obtain ⟨valid, rfl⟩ := ofByte?_sound known
      obtain ⟨operands, formed, rfl⟩ := (reads tag _ _ _).mp accepted
      exact ⟨_, ⟨tag, operands, valid, formed, rfl⟩, rfl⟩
  · rintro ⟨_, ⟨tag, operands, valid, formed, rfl⟩, rfl⟩
    refine ⟨tag.byte, operands ++ rest, rfl, ?_⟩
    rw [ofByte?_byte valid]
    exact (reads tag).reads_back formed rest

end FrameTag

theorem Frame.readKind_eq (code : DecodedCode) :
    Frame.readKind code = FrameTag.dispatch (FrameTag.read code) := by
  unfold Frame.readKind FrameTag.dispatch
  congr 1
  funext byte
  unfold FrameTag.ofByte?
  split_ifs <;> rfl

namespace FrameKind

/-- The tag of a frame with a given delta. -/
def tag (delta : UInt16) : FrameKind → FrameTag
  | .same => .same delta
  | .oneItem _ => .oneItem delta
  | .oneItemExtended _ => .oneItemExtended
  | .chop count => .chop count
  | .sameExtended => .sameExtended
  | .append added => .append added.length
  | .full .. => .full

/-- What is written after the tag of a frame. -/
def operandBytes (positions : Positions) (delta : UInt16) : FrameKind → Except Error Bytes
  | .same => .ok []
  | .oneItem item => item.toBytes positions
  | .oneItemExtended item => do return Bytes.ofU16 delta ++ (← item.toBytes positions)
  | .chop _ | .sameExtended => .ok (Bytes.ofU16 delta)
  | .append added => do
    return Bytes.ofU16 delta ++ (← VerificationType.listToBytes positions added)
  | .full locals stack => do
    let locals' ← VerificationType.listToBytes positions locals
    let stack' ← VerificationType.listToBytes positions stack
    return Bytes.ofU16 delta ++ Bytes.ofCount locals.length ++ locals'
      ++ Bytes.ofCount stack.length ++ stack'

end FrameKind

namespace Frame

variable {positions : Positions} {frame : Frame}

/-- A frame with a valid tag is written as the tag and its operands. -/
theorem toBytes_of_valid (valid : (frame.kind.tag frame.delta).Valid) :
    frame.toBytes positions = (do
      let operands ← frame.kind.operandBytes positions frame.delta
      return (frame.kind.tag frame.delta).byte :: operands) := by
  obtain ⟨target, delta, kind⟩ := frame
  have fits : kind.fits delta = true := by
    cases kind with
    | same | oneItem => exact decide_eq_true valid
    | _ => rfl
  rw [toBytes, if_neg (not_not_intro fits)]
  cases kind with
  | same | sameExtended | oneItem => rfl
  | chop count => exact if_pos valid
  | oneItemExtended item =>
    simp only [FrameKind.operandBytes, bind_assoc, pure_bind]
    rfl
  | append added =>
    simp only [FrameKind.operandBytes, bind_assoc, pure_bind]
    exact if_pos valid
  | full locals stack =>
    simp only [FrameKind.operandBytes, bind_assoc, pure_bind]
    rfl

/-- A frame that is written has a valid tag. -/
theorem valid_of_toBytes {bytes : Bytes} (written : frame.toBytes positions = .ok bytes) :
    (frame.kind.tag frame.delta).Valid := by
  obtain ⟨target, delta, kind⟩ := frame
  rw [toBytes] at written
  split at written
  · cases written
  · rename_i fits
    cases kind with
    | same | oneItem => exact of_decide_eq_true (not_not.mp fits)
    | chop | append =>
      dsimp only at written
      split at written
      · rename_i number
        exact number
      · cases written
    | oneItemExtended | sameExtended | full => trivial

/-- A frame is written as the byte of its tag and its operands, if the tag is valid. -/
theorem toBytes_eq_ok_iff {bytes : Bytes} :
    frame.toBytes positions = .ok bytes ↔ (frame.kind.tag frame.delta).Valid ∧
      ∃ operands, frame.kind.operandBytes positions frame.delta = .ok operands ∧
        bytes = (frame.kind.tag frame.delta).byte :: operands := by
  constructor
  · intro written
    have valid := valid_of_toBytes written
    rw [toBytes_of_valid valid, exceptBind_eq_ok_iff] at written
    obtain ⟨operands, operandsWritten, rest⟩ := written
    exact ⟨valid, operands, operandsWritten, (exceptPure_eq_ok_iff.mp rest).symm⟩
  · rintro ⟨valid, operands, written, rfl⟩
    rw [toBytes_of_valid valid, written]
    rfl

end Frame

end Classfile
