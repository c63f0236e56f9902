import Classfile.Proofs.Decoding

/-!
The code that has a byte form.

An instruction can be written at a position if its opcode belongs to its shape, its offset fits and
it is padded for that position. `decodes_iff_representable` says that code of which this is true of
every instruction is all that can come out of decoding, and that such code is decoded from what it
is written as.
-/

namespace Classfile

namespace Instruction

variable {L : Type}

/-- The format of the opcodes that belong to the shape of an instruction. -/
def format : Instruction L → OperandFormat
  | .simple _ => .none
  | .localAccess .. | .wideLocalAccess .. => .localIndex
  | .increment .. | .wideIncrement .. => .increment
  | .pushByte _ => .signedByte
  | .pushShort _ => .signedShort
  | .newArray _ => .arrayType
  | .loadConstant _ => .narrowConstant
  | .constant .. => .constant
  | .invokeInterface .. => .invokeInterface
  | .invokeDynamic _ => .invokeDynamic
  | .multiNewArray .. => .multiNewArray
  | .branch .. => .branch
  | .wideBranch .. => .wideBranch
  | .tableSwitch .. => .tableSwitch
  | .lookupSwitch .. => .lookupSwitch

/-- A `tableswitch` has a last key if some integer is as far from the lowest key as there are
targets. -/
theorem isSome_switchHigh?_iff (low : Int32) {count : Nat} (small : count ≤ 0x80000000) :
    (switchHigh? low count).isSome = true ↔
      ∃ high : Int32, low.toInt ≤ high.toInt ∧ high.toInt - low.toInt + 1 = count := by
  constructor
  · intro known
    have holds : 1 ≤ count ∧ count ≤ 0x80000000 ∧ low.toInt + count ≤ 0x80000000 := by
      by_contra fails
      rw [switchHigh?, if_neg fails] at known
      cases known
    have lower := low.le_toInt
    have exactly : (Int32.ofInt (low.toInt + count - 1)).toInt = low.toInt + count - 1 :=
      Int32.toInt_ofInt_of_le (by omega) (by omega)
    exact ⟨Int32.ofInt (low.toInt + count - 1), by omega, by omega⟩
  · rintro ⟨high, ordered, counted⟩
    have last : ¬high < low := by
      rw [Int32.lt_iff_toInt_lt]
      omega
    rw [switchHigh?_of_le last count (by omega) small]
    rfl

/-- An instruction is well formed if its opcode belongs to its shape and it is not a `tableswitch`
without a last key. -/
theorem isWellFormed_iff {instruction : Instruction L} (small : instruction.width < 0x80000000) :
    instruction.isWellFormed = true ↔ instruction.opcode.format = instruction.format ∧
      ∀ padding default low targets, instruction = .tableSwitch padding default low targets →
        ∃ high : Int32, low.toInt ≤ high.toInt ∧ high.toInt - low.toInt + 1 = targets.length := by
  cases instruction with
  | tableSwitch padding default low targets =>
    have few : targets.length ≤ 0x80000000 := by
      rw [width] at small
      omega
    rw [isWellFormed, isSome_switchHigh?_iff low few]
    constructor
    · intro known
      refine ⟨rfl, ?_⟩
      rintro _ _ _ _ ⟨rfl, rfl, rfl, rfl⟩
      exact known
    · rintro ⟨_, known⟩
      exact known _ _ _ _ rfl
  | simple opcode | localAccess opcode _ | wideLocalAccess opcode _ | constant opcode _
  | branch opcode _ | wideBranch opcode _ => simp [isWellFormed, Instruction.opcode, format]
  | _ => simp [isWellFormed, opcode, format, Opcode.format]

end Instruction

namespace DecodedCode

/-- Each instruction can be written at the end of those before it, the first one at a position. -/
def Representable (bci : Nat) (instructions : List (Instruction Int32)) : Prop :=
  ∀ before instruction after, instructions = before ++ instruction :: after →
    instruction.Representable (bci + Bytes.totalSize Instruction.width before)

theorem representable_nil (bci : Nat) : Representable bci [] := by
  intro before instruction after split
  simp at split

/-- Instructions can be represented one after the other, each where the one before it ends. -/
theorem representable_cons {bci : Nat} {instruction : Instruction Int32}
    {instructions : List (Instruction Int32)} :
    Representable bci (instruction :: instructions) ↔
      instruction.Representable bci ∧ Representable (bci + instruction.width) instructions := by
  constructor
  · intro representable
    refine ⟨representable [] instruction instructions rfl, ?_⟩
    rintro before other after rfl
    rw [Nat.add_assoc]
    exact representable (instruction :: before) other after rfl
  · rintro ⟨first, others⟩ before other after split
    cases before with
    | nil =>
      obtain ⟨rfl, rfl⟩ := List.cons.inj split
      exact first
    | cons _ before =>
      obtain ⟨rfl, rfl⟩ := List.cons.inj split
      have later := others before other after rfl
      rw [Nat.add_assoc] at later
      exact later

/-- Instructions that have a form can be represented. -/
theorem Form.representable {bci : Nat} {instructions : List (Instruction Int32)} {bytes : Bytes}
    (formed : Form bci instructions bytes) : Representable bci instructions := by
  induction instructions generalizing bci bytes with
  | nil => exact representable_nil bci
  | cons instruction instructions inductionHypothesis =>
    obtain ⟨front, back, frontFormed, backFormed, rfl⟩ := formed
    exact representable_cons.mpr ⟨frontFormed.representable, inductionHypothesis backFormed⟩

/-- Code is written as one of its forms. -/
theorem Representable.exists_form {bci : Nat} {instructions : List (Instruction Int32)}
    (representable : Representable bci instructions) :
    ∃ bytes, Form bci instructions bytes ∧
      Bytes.clear (instructions.flatMap Instruction.spareBytes) bytes = bytes := by
  induction instructions generalizing bci with
  | nil => exact ⟨[], rfl, rfl⟩
  | cons instruction instructions inductionHypothesis =>
    obtain ⟨first, others⟩ := representable_cons.mp representable
    obtain ⟨front, frontFormed, frontCleared⟩ := first.exists_form
    obtain ⟨back, backFormed, backCleared⟩ := inductionHypothesis others
    refine ⟨front ++ back, ⟨front, back, frontFormed, backFormed, rfl⟩, ?_⟩
    rw [List.flatMap_cons, Bytes.clear_append, frontCleared, backCleared]
    rw [Instruction.length_spareBytes, frontFormed.sized]

/-- Decoded code consists of its instructions. -/
theorem eq_ofList_of_decode {bytes : Bytes} {code : DecodedCode} (decoded : decode bytes = .ok code) :
    code = ofList code.elements := by
  obtain ⟨instructions, rfl⟩ := exists_pushAll_of_decodeOnto decoded
  exact congrArg ofList (elements_ofList instructions).symm

/-- Bytes are decoded to instructions if they are their form. -/
theorem decode_ofList_iff {bytes : Bytes} {instructions : List (Instruction Int32)}
    (small : Bytes.totalSize Instruction.width instructions < 4294967296) :
    decode bytes = .ok (ofList instructions) ↔ Form 0 instructions bytes := by
  rw [decode_eq_ok_iff (.inr (by rw [extent_ofList]; exact small))]
  constructor
  · rintro ⟨others, formed, same⟩
    rw [← elements_ofList instructions, same, elements_ofList]
    exact formed
  · exact fun formed => ⟨instructions, formed, rfl⟩

/-- Code comes out of decoding if and only if it is representable, and then it comes out of the bytes
it is written as. The counts of switches are exact in code of this size. -/
theorem decodes_iff_representable (instructions : List (Instruction Int32))
    (small : Bytes.totalSize Instruction.width instructions < 0x80000000) :
    ((∃ bytes code, decode bytes = .ok code ∧ code.elements = instructions) ↔
      Representable 0 instructions) ∧
    (Representable 0 instructions → ∃ parts code, instructions.mapM Instruction.toBytes = .ok parts ∧
      decode parts.flatten = .ok code ∧ code.elements = instructions ∧
      ∀ before instruction after, instructions = before ++ instruction :: after →
        code.offset? before.length = some (Bytes.totalSize Instruction.width before)) ∧
    ∀ instruction ∈ instructions, instruction.isWellFormed = true ↔
      instruction.opcode.format = instruction.format ∧
      ∀ padding default low targets, instruction = .tableSwitch padding default low targets →
        ∃ high : Int32, low.toInt ≤ high.toInt ∧ high.toInt - low.toInt + 1 = targets.length := by
  have written (representable : Representable 0 instructions) :
      ∃ parts, instructions.mapM Instruction.toBytes = .ok parts ∧
        decode parts.flatten = .ok (ofList instructions) := by
    obtain ⟨bytes, formed, cleared⟩ := representable.exists_form
    obtain ⟨parts, each, flat⟩ := formed.written
    rw [cleared] at flat
    exact ⟨parts, each, (decode_ofList_iff (by omega)).mpr (flat ▸ formed)⟩
  refine ⟨⟨?_, ?_⟩, ?_, ?_⟩
  · rintro ⟨bytes, code, decoded, rfl⟩
    rw [eq_ofList_of_decode decoded, decode_ofList_iff (by omega)] at decoded
    exact decoded.representable
  · intro representable
    obtain ⟨parts, _, decoded⟩ := written representable
    exact ⟨parts.flatten, _, decoded, elements_ofList instructions⟩
  · intro representable
    obtain ⟨parts, each, decoded⟩ := written representable
    refine ⟨parts, _, each, decoded, elements_ofList instructions, ?_⟩
    rintro before instruction after rfl
    rw [OffsetTable.offset?, ← Array.getElem?_toList, entries_ofList, OffsetTable.getElem?_placed,
      Nat.zero_add]
    rfl
  · intro instruction present
    apply Instruction.isWellFormed_iff
    obtain ⟨before, after, rfl⟩ := List.append_of_mem present
    rw [totalSize_append] at small
    change _ + (instruction.width + _) < _ at small
    omega

/-- A switch that starts at position one. -/
def switching : List (Instruction Int32) :=
  [.simple .nop, .tableSwitch 2 22 (-1) [21, 21], .simple .returnVoid]

theorem decodes_iff_representable_switching :
    (∃ bytes code, decode bytes = .ok code ∧ code.elements = switching) ∧
    ¬∃ bytes code, decode bytes = .ok code ∧ code.elements = [.simple .goto] := by
  constructor
  · refine (decodes_iff_representable switching (by decide)).1.mpr ?_
    have plain (bci : Nat) (opcode : Opcode) (alone : opcode.format = .none) :
        (Instruction.simple opcode).Representable bci :=
      ⟨by simpa [Instruction.isWellFormed], by simp, by simp [Instruction.padding?]⟩
    have padded : (Instruction.tableSwitch 2 22 (-1) [21, 21]).Representable 1 :=
      ⟨rfl, by simp, by rintro padding ⟨rfl⟩; rfl⟩
    exact representable_cons.mpr ⟨plain _ _ rfl, representable_cons.mpr ⟨padded,
      representable_cons.mpr ⟨plain _ _ rfl, representable_nil _⟩⟩⟩
  · rw [(decodes_iff_representable [.simple .goto] (by decide)).1]
    intro representable
    exact absurd (representable_cons.mp representable).1.wellFormed (by decide)

end DecodedCode

end Classfile
