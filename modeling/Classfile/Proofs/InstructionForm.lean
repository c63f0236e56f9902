import Classfile.Proofs.Reading

/-!
The byte forms of single instructions.

A few bytes of the encoding carry no information: the padding of a switch, the last operand byte of
`invokeinterface` and the last two of `invokedynamic`. They are ignored by reading and written as
zero. `Instruction.read_eq_ok_iff` says that reading accepts exactly the forms of well-formed
instructions, with anything in the spare bytes.
-/

namespace Classfile

namespace Opcode

/-- There are 202 opcodes. -/
theorem ctorIdx_lt (opcode : Opcode) : opcode.ctorIdx < 202 := by
  cases opcode <;> decide

/-- The byte of an opcode is its number. -/
theorem toNat_byte (opcode : Opcode) : opcode.byte.toNat = opcode.ctorIdx := by
  have bound := opcode.ctorIdx_lt
  simp only [byte, UInt8.toNat_ofNat']
  omega

/-- Opcodes with the same byte are the same. -/
theorem byte_injective {first second : Opcode} (same : first.byte = second.byte) :
    first = second := by
  rw [← UInt8.toNat_inj, toNat_byte, toNat_byte] at same
  rw [← Opcode.ofNat_ctorIdx first, ← Opcode.ofNat_ctorIdx second, same]

/-- Every opcode stands at the place of its byte. -/
theorem all_map_byte (index : Fin 256) :
    all[index.val]?.map byte = if index.val < 202 then some (UInt8.ofNat index) else none := by
  decide +kernel +revert

/-- A byte that stands for an opcode is the byte of that opcode. -/
theorem byte_of_ofByte? {byte : UInt8} {opcode : Opcode} (found : ofByte? byte = some opcode) :
    opcode.byte = byte := by
  have place := all_map_byte ⟨byte.toNat, byte.toNat_lt⟩
  simp only [ofByte?] at found
  simp only [found, Option.map_some, UInt8.ofNat_toNat] at place
  split at place <;> simp_all

/-- The byte of an opcode stands for it. -/
theorem ofByte?_byte (opcode : Opcode) : ofByte? opcode.byte = some opcode := by
  have place := all_map_byte ⟨opcode.byte.toNat, opcode.byte.toNat_lt⟩
  rw [if_pos (by simpa [toNat_byte] using opcode.ctorIdx_lt)] at place
  obtain ⟨found, present, same⟩ := Option.map_eq_some_iff.mp place
  rw [UInt8.ofNat_toNat] at same
  rw [ofByte?, present, byte_injective same]

/-- The opcodes that are alone in having their operand format. -/
def ofFormat? : OperandFormat → Option Opcode
  | .increment => some .iinc
  | .signedByte => some .bipush
  | .signedShort => some .sipush
  | .arrayType => some .newarray
  | .narrowConstant => some .ldc
  | .invokeInterface => some .invokeinterface
  | .invokeDynamic => some .invokedynamic
  | .multiNewArray => some .multianewarray
  | .tableSwitch => some .tableswitch
  | .lookupSwitch => some .lookupswitch
  | .wide => some .wide
  | _ => none

/-- A format that belongs to one opcode alone tells the opcode. -/
theorem eq_of_ofFormat? {opcode single : Opcode} (alone : ofFormat? opcode.format = some single) :
    opcode = single := by
  cases opcode <;> first | (cases alone; rfl) | cases alone

end Opcode

namespace Bytes

/-- Spare bytes become zero and all others are kept. -/
def clear (spare : List Bool) (bytes : Bytes) : Bytes :=
  List.zipWith (fun unused byte => if unused then 0 else byte) spare bytes

/-- Two sequences of bytes are cleared one after the other. -/
theorem clear_append {firstSpare secondSpare : List Bool} {first second : Bytes}
    (sized : firstSpare.length = first.length) :
    clear (firstSpare ++ secondSpare) (first ++ second) =
      clear firstSpare first ++ clear secondSpare second :=
  List.zipWith_append sized

/-- Clearing no byte changes nothing. -/
theorem clear_replicate_false {count : Nat} {bytes : Bytes} (sized : bytes.length = count) :
    clear (List.replicate count false) bytes = bytes := by
  subst sized
  induction bytes with
  | nil => rfl
  | cons byte bytes inductionHypothesis =>
    simpa [clear, List.replicate_succ] using inductionHypothesis

theorem clear_replicate_true {count : Nat} {bytes : Bytes} (sized : bytes.length = count) :
    clear (List.replicate count true) bytes = List.replicate count 0 := by
  subst sized
  induction bytes with
  | nil => rfl
  | cons byte bytes inductionHypothesis =>
    simpa [clear, List.replicate_succ] using inductionHypothesis

theorem clear_cons_false (spare : List Bool) (byte : UInt8) (bytes : Bytes) :
    clear (false :: spare) (byte :: bytes) = byte :: clear spare bytes := rfl

@[simp] theorem length_ofU8 (value : UInt8) : (ofU8 value).length = 1 := rfl
@[simp] theorem length_ofU16 (value : UInt16) : (ofU16 value).length = 2 := rfl
@[simp] theorem length_ofU32 (value : UInt32) : (ofU32 value).length = 4 := rfl
@[simp] theorem length_ofU64 (value : UInt64) : (ofU64 value).length = 8 := rfl
@[simp] theorem length_ofI8 (value : Int8) : (ofI8 value).length = 1 := rfl
@[simp] theorem length_ofI16 (value : Int16) : (ofI16 value).length = 2 := rfl
@[simp] theorem length_ofI32 (value : Int32) : (ofI32 value).length = 4 := rfl
@[simp] theorem length_ofCount (count : Nat) : (ofCount count).length = 2 := rfl
@[simp] theorem length_ofLength (length : Nat) : (ofLength length).length = 4 := rfl

/-- Items of one size take up that size each. -/
theorem length_flatMap_of_size {A : Type} {write : A → Bytes} {size : Nat}
    (sized : ∀ item, (write item).length = size) (items : List A) :
    (items.flatMap write).length = size * items.length := by
  rw [length_flatMap_of_sizes sized, totalSize_const]

end Bytes

namespace Instruction

variable {L K : Type}

/-- The bytes of an encoded instruction that carry no information. -/
def spareBytes : Instruction L → List Bool
  | .invokeInterface .. => [false, false, false, false, true]
  | .invokeDynamic _ => [false, false, false, true, true]
  | .tableSwitch padding _ _ targets =>
    false :: (List.replicate padding.toNat true ++ List.replicate (4 * (3 + targets.length)) false)
  | .lookupSwitch padding _ pairs =>
    false :: (List.replicate padding.toNat true ++ List.replicate (8 * (1 + pairs.length)) false)
  | other => List.replicate other.width false

/-- Every byte of an instruction is either spare or not. -/
theorem length_spareBytes (instruction : Instruction L) :
    instruction.spareBytes.length = instruction.width := by
  cases instruction with
  | tableSwitch padding default low targets => simp [spareBytes, width]; omega
  | lookupSwitch padding default pairs => simp [spareBytes, width]; omega
  | _ => simp [spareBytes, width]

/-- Every instruction takes at least one byte. -/
theorem width_pos (instruction : Instruction L) : 0 < instruction.width := by
  cases instruction <;> simp only [width] <;> omega

/-- Bytes are a form of an instruction that starts at a position. -/
structure Form (bci : Nat) (instruction : Instruction Int32) (bytes : Bytes) : Prop where
  wellFormed : instruction.isWellFormed = true
  aligned : instruction.alignedAt bci = instruction
  sized : bytes.length = instruction.width
  written : instruction.toBytes = .ok (Bytes.clear instruction.spareBytes bytes)

open Reader

/-- An instruction without spare bytes has one form. -/
theorem Form.of_toBytes {bci : Nat} {instruction : Instruction Int32} {bytes : Bytes}
    (wellFormed : instruction.isWellFormed = true)
    (aligned : instruction.alignedAt bci = instruction)
    (plain : instruction.spareBytes = List.replicate instruction.width false)
    (sized : bytes.length = instruction.width) (written : instruction.toBytes = .ok bytes) :
    instruction.Form bci bytes :=
  ⟨wellFormed, aligned, sized, by rw [plain, Bytes.clear_replicate_false sized, written]⟩

theorem sequence_ofI32_iff (values : List Int32) (bytes : Bytes) :
    Sequence (fun value part => part = Bytes.ofI32 value) values bytes ↔
      bytes = values.flatMap Bytes.ofI32 :=
  sequence_iff_flatMap Bytes.ofI32 values bytes

/-- A reader of signed words inverts their encoding. -/
theorem i32_reads : i32.Reads fun value bytes => bytes = Bytes.ofI32 value := by
  intro input value rest
  rw [i32_eq_ok_iff]
  simp

/-- The upper bound of a switch is found from the lower one and the number of targets. -/
theorem switchHigh?_of_le {low high : Int32} (ordered : ¬high < low)
    (count : Nat) (counted : count = (high.toInt - low.toInt + 1).toNat)
    (small : count ≤ 0x80000000) : switchHigh? low count = some high := by
  rw [Int32.lt_iff_toInt_lt] at ordered
  have upper := high.toInt_lt
  have lower := low.le_toInt
  have holds : 1 ≤ count ∧ count ≤ 0x80000000 ∧ low.toInt + count ≤ 0x80000000 := by omega
  rw [switchHigh?, if_pos holds]
  congr 1
  rw [show low.toInt + count - 1 = high.toInt by omega, Int32.ofInt_toInt]

/-- A table switch that is read has the form of its bytes. -/
theorem form_of_readTableSwitch {bci : Nat} {input rest : Bytes} {instruction : Instruction Int32}
    (small : input.length < 4294967296 ∨ instruction.width < 4294967296)
    (read : readTableSwitch bci input = .ok (instruction, rest)) :
    ∃ bytes, instruction.Form bci (Opcode.tableswitch.byte :: bytes) ∧ input = bytes ++ rest := by
  simp only [readTableSwitch, bind_eq_ok_iff, bytes_eq_ok_iff, i32_eq_ok_iff] at read
  obtain ⟨padding, _, ⟨padded, rfl⟩, default, _, rfl, low, _, rfl, high, middle, rfl, read⟩ := read
  split at read
  · simp [fail_eq_ok_iff] at read
  · rename_i ordered
    simp only [bind_eq_ok_iff, pure_eq_ok_iff] at read
    obtain ⟨targets, _, many, rfl, rfl⟩ := read
    obtain ⟨contents, ⟨counted, formed⟩, rfl⟩ := (i32_reads.many _ _ _ _).mp many
    rw [sequence_ofI32_iff] at formed
    subst formed
    have length := Bytes.length_flatMap_of_size Bytes.length_ofI32 targets
    have bounded : targets.length ≤ 0x80000000 := by
      simp only [List.length_append, length, width] at small
      omega
    have highest := switchHigh?_of_le ordered targets.length counted bounded
    refine ⟨padding ++ (Bytes.ofI32 default ++ (Bytes.ofI32 low ++ (Bytes.ofI32 high ++
      targets.flatMap Bytes.ofI32))), ⟨?_, rfl, ?_, ?_⟩, by simp⟩
    · simp [isWellFormed, highest]
    · simp only [List.length_cons, List.length_append, padded, Bytes.length_ofI32, length, width]
      omega
    · rw [spareBytes, Bytes.clear_cons_false, Bytes.clear_append (by simp [padded]),
        Bytes.clear_replicate_true padded, Bytes.clear_replicate_false
          (by simp only [List.length_append, Bytes.length_ofI32, length]; omega)]
      simp [toBytes, operandBytes, highest, opcodeBytes, opcode]

/-- A count below 2^31 is written as the same bytes with or without sign. -/
theorem ofLength_toNat_toInt {count : Int32} (counting : 0 ≤ count.toInt) :
    Bytes.ofLength count.toInt.toNat = Bytes.ofI32 count := by
  have same : Int32.ofNat count.toInt.toNat = count := by
    rw [← Int32.ofInt_eq_ofNat, Int.toNat_of_nonneg counting, Int32.ofInt_toInt]
  conv_rhs => rw [← same]
  rw [Bytes.ofLength, Bytes.ofI32, Int32.toUInt32_ofNat']

/-- A reader of pairs of words inverts their encoding. -/
theorem pairBytes_reads :
    Reads (do return (← i32, ← i32) : Reader (Int32 × Int32))
      fun pair bytes => bytes = Bytes.ofI32 pair.1 ++ Bytes.ofI32 pair.2 := by
  intro input pair rest
  simp only [bind_eq_ok_iff, i32_eq_ok_iff, pure_eq_ok_iff]
  constructor
  · rintro ⟨key, _, rfl, label, _, rfl, rfl, rfl⟩
    exact ⟨_, rfl, by simp⟩
  · rintro ⟨_, rfl, rfl⟩
    exact ⟨pair.1, _, List.append_assoc _ _ _, pair.2, _, rfl, rfl, rfl⟩

/-- Each pair of a lookup switch takes eight bytes. -/
theorem length_flatMap_pairs (pairs : List (Int32 × Int32)) :
    (pairs.flatMap fun pair => Bytes.ofI32 pair.1 ++ Bytes.ofI32 pair.2).length =
      8 * pairs.length :=
  Bytes.length_flatMap_of_size (fun pair => by simp) pairs

theorem form_of_readLookupSwitch {bci : Nat} {input rest : Bytes} {instruction : Instruction Int32}
    (read : readLookupSwitch bci input = .ok (instruction, rest)) :
    ∃ bytes, instruction.Form bci (Opcode.lookupswitch.byte :: bytes) ∧ input = bytes ++ rest := by
  simp only [readLookupSwitch, bind_eq_ok_iff, bytes_eq_ok_iff, i32_eq_ok_iff] at read
  obtain ⟨padding, _, ⟨padded, rfl⟩, default, _, rfl, count, middle, rfl, read⟩ := read
  split at read
  · simp [fail_eq_ok_iff] at read
  · rename_i counting
    rw [bind_eq_ok_iff] at read
    obtain ⟨pairs, _, many, read⟩ := read
    obtain ⟨rfl, rfl⟩ := pure_eq_ok_iff.mp read
    obtain ⟨contents, ⟨counted, formed⟩, rfl⟩ := (pairBytes_reads.many _ _ _ _).mp many
    rw [sequence_iff_flatMap] at formed
    subst formed
    have length := length_flatMap_pairs pairs
    have written : Bytes.ofLength pairs.length = Bytes.ofI32 count := by
      rw [Int32.lt_iff_toInt_lt, Int32.toInt_zero] at counting
      rw [counted, ofLength_toNat_toInt (by omega)]
    refine ⟨padding ++ (Bytes.ofI32 default ++ (Bytes.ofI32 count ++
      pairs.flatMap fun pair => Bytes.ofI32 pair.1 ++ Bytes.ofI32 pair.2)), ⟨rfl, rfl, ?_, ?_⟩,
      by simp⟩
    · simp only [List.length_cons, List.length_append, padded, Bytes.length_ofI32, length, width]
      omega
    · rw [spareBytes, Bytes.clear_cons_false, Bytes.clear_append (by simp [padded]),
        Bytes.clear_replicate_true padded, Bytes.clear_replicate_false
          (by simp only [List.length_append, Bytes.length_ofI32, length]; omega)]
      simp [toBytes, operandBytes, written, opcodeBytes, opcode]

theorem form_of_readWide {bci : Nat} {input rest : Bytes} {instruction : Instruction Int32}
    (read : readWide bci input = .ok (instruction, rest)) :
    ∃ bytes, instruction.Form bci (Opcode.wide.byte :: bytes) ∧ input = bytes ++ rest := by
  simp only [readWide, bind_eq_ok_iff, u8_eq_ok_iff] at read
  obtain ⟨byte, middle, rfl, read⟩ := read
  cases found : Opcode.ofByte? byte with
  | none => simp [found, fail_eq_ok_iff] at read
  | some opcode =>
    obtain rfl := Opcode.byte_of_ofByte? found
    cases format : opcode.format with
    | localIndex =>
      simp only [found, format, bind_eq_ok_iff, u16_eq_ok_iff, pure_eq_ok_iff] at read
      obtain ⟨index, _, rfl, rfl, rfl⟩ := read
      exact ⟨opcode.byte :: Bytes.ofU16 index,
        .of_toBytes (by simp [isWellFormed, format]) rfl rfl rfl rfl, by simp⟩
    | increment =>
      have only : Opcode.ofFormat? opcode.format = some .iinc := by rw [format]; rfl
      obtain rfl := Opcode.eq_of_ofFormat? only
      simp only [found, format, bind_eq_ok_iff, u16_eq_ok_iff, i16_eq_ok_iff,
        pure_eq_ok_iff] at read
      obtain ⟨index, _, rfl, delta, _, rfl, rfl, rfl⟩ := read
      exact ⟨Opcode.iinc.byte :: (Bytes.ofU16 index ++ Bytes.ofI16 delta),
        .of_toBytes rfl rfl rfl rfl rfl, by simp⟩
    | _ => simp [found, format, fail_eq_ok_iff] at read

/-- Operands that are read complete a form of the instruction. -/
theorem form_of_readOperands {bci : Nat} {opcode : Opcode} {input rest : Bytes}
    {instruction : Instruction Int32}
    (small : input.length < 4294967296 ∨ instruction.width < 4294967296)
    (read : readOperands bci opcode input = .ok (instruction, rest)) :
    ∃ bytes, instruction.Form bci (opcode.byte :: bytes) ∧ input = bytes ++ rest := by
  have alone (single : Opcode) (only : Opcode.ofFormat? opcode.format = some single) :
      opcode = single := Opcode.eq_of_ofFormat? only
  cases format : opcode.format with
  | none =>
    simp only [readOperands, format, pure_eq_ok_iff] at read
    obtain ⟨rfl, rfl⟩ := read
    exact ⟨[], .of_toBytes (by simp [isWellFormed, format]) rfl rfl rfl rfl, rfl⟩
  | localIndex =>
    simp only [readOperands, format, bind_eq_ok_iff, u8_eq_ok_iff, pure_eq_ok_iff] at read
    obtain ⟨index, _, rfl, rfl, rfl⟩ := read
    exact ⟨[index], .of_toBytes (by simp [isWellFormed, format]) rfl rfl rfl rfl, rfl⟩
  | increment =>
    obtain rfl := alone .iinc (by rw [format]; rfl)
    simp only [readOperands, format, bind_eq_ok_iff, u8_eq_ok_iff, i8_eq_ok_iff,
      pure_eq_ok_iff] at read
    obtain ⟨index, _, rfl, delta, _, rfl, rfl, rfl⟩ := read
    exact ⟨index :: Bytes.ofI8 delta, .of_toBytes rfl rfl rfl rfl rfl, rfl⟩
  | signedByte =>
    obtain rfl := alone .bipush (by rw [format]; rfl)
    simp only [readOperands, format, bind_eq_ok_iff, i8_eq_ok_iff, pure_eq_ok_iff] at read
    obtain ⟨value, _, rfl, rfl, rfl⟩ := read
    exact ⟨Bytes.ofI8 value, .of_toBytes rfl rfl rfl rfl rfl, rfl⟩
  | signedShort =>
    obtain rfl := alone .sipush (by rw [format]; rfl)
    simp only [readOperands, format, bind_eq_ok_iff, i16_eq_ok_iff, pure_eq_ok_iff] at read
    obtain ⟨value, _, rfl, rfl, rfl⟩ := read
    exact ⟨Bytes.ofI16 value, .of_toBytes rfl rfl rfl rfl rfl, rfl⟩
  | arrayType =>
    obtain rfl := alone .newarray (by rw [format]; rfl)
    simp only [readOperands, format, bind_eq_ok_iff, u8_eq_ok_iff, pure_eq_ok_iff] at read
    obtain ⟨elementCode, _, rfl, rfl, rfl⟩ := read
    exact ⟨[elementCode], .of_toBytes rfl rfl rfl rfl rfl, rfl⟩
  | narrowConstant =>
    obtain rfl := alone .ldc (by rw [format]; rfl)
    simp only [readOperands, format, bind_eq_ok_iff, u8_eq_ok_iff, pure_eq_ok_iff] at read
    obtain ⟨index, _, rfl, rfl, rfl⟩ := read
    exact ⟨[index], .of_toBytes rfl rfl rfl rfl rfl, rfl⟩
  | constant =>
    simp only [readOperands, format, bind_eq_ok_iff, u16_eq_ok_iff, pure_eq_ok_iff] at read
    obtain ⟨index, _, rfl, rfl, rfl⟩ := read
    exact ⟨Bytes.ofU16 index, .of_toBytes (by simp [isWellFormed, format]) rfl rfl rfl rfl, rfl⟩
  | invokeInterface =>
    obtain rfl := alone .invokeinterface (by rw [format]; rfl)
    simp only [readOperands, format, bind_eq_ok_iff, u16_eq_ok_iff, u8_eq_ok_iff,
      pure_eq_ok_iff] at read
    obtain ⟨method, _, rfl, count, _, rfl, spare, _, rfl, rfl, rfl⟩ := read
    exact ⟨Bytes.ofU16 method ++ [count, spare], ⟨rfl, rfl, rfl, rfl⟩, by simp⟩
  | invokeDynamic =>
    obtain rfl := alone .invokedynamic (by rw [format]; rfl)
    simp only [readOperands, format, bind_eq_ok_iff, u16_eq_ok_iff, pure_eq_ok_iff] at read
    obtain ⟨callSite, _, rfl, spare, _, rfl, rfl, rfl⟩ := read
    exact ⟨Bytes.ofU16 callSite ++ Bytes.ofU16 spare, ⟨rfl, rfl, rfl, rfl⟩, by simp⟩
  | multiNewArray =>
    obtain rfl := alone .multianewarray (by rw [format]; rfl)
    simp only [readOperands, format, bind_eq_ok_iff, u16_eq_ok_iff, u8_eq_ok_iff,
      pure_eq_ok_iff] at read
    obtain ⟨arrayClass, _, rfl, dimensions, _, rfl, rfl, rfl⟩ := read
    exact ⟨Bytes.ofU16 arrayClass ++ [dimensions], .of_toBytes rfl rfl rfl rfl rfl, by simp⟩
  | branch =>
    simp only [readOperands, format, bind_eq_ok_iff, i16_eq_ok_iff, pure_eq_ok_iff] at read
    obtain ⟨offset, _, rfl, rfl, rfl⟩ := read
    have lower := offset.le_toInt
    have upper := offset.toInt_lt
    refine ⟨Bytes.ofI16 offset, .of_toBytes (by simp [isWellFormed, format]) rfl rfl rfl ?_, rfl⟩
    rw [toBytes, operandBytes, Int16.toInt_toInt32, if_pos (by omega), Int16.toInt16_toInt32]
    rfl
  | wideBranch =>
    simp only [readOperands, format, bind_eq_ok_iff, i32_eq_ok_iff, pure_eq_ok_iff] at read
    obtain ⟨offset, _, rfl, rfl, rfl⟩ := read
    exact ⟨Bytes.ofI32 offset, .of_toBytes (by simp [isWellFormed, format]) rfl rfl rfl rfl, rfl⟩
  | tableSwitch =>
    obtain rfl := alone .tableswitch (by rw [format]; rfl)
    exact form_of_readTableSwitch small read
  | lookupSwitch =>
    obtain rfl := alone .lookupswitch (by rw [format]; rfl)
    exact form_of_readLookupSwitch read
  | wide =>
    obtain rfl := alone .wide (by rw [format]; rfl)
    exact form_of_readWide read

/-- An instruction without spare bytes is read back from its bytes. -/
theorem Form.toBytes_eq {bci : Nat} {instruction : Instruction Int32} {bytes : Bytes}
    (formed : instruction.Form bci bytes)
    (plain : instruction.spareBytes = List.replicate instruction.width false) :
    instruction.toBytes = .ok bytes := by
  rw [formed.written, plain, Bytes.clear_replicate_false formed.sized]

/-- The bytes of a switch are its opcode, some padding and its operands. -/
theorem split_padded (opcode : UInt8) {padding count : Nat} {bytes operands : Bytes}
    (sized : bytes.length = 1 + padding + count) (operandsSized : operands.length = count)
    (cleared : Bytes.clear
        (false :: (List.replicate padding true ++ List.replicate count false)) bytes =
      opcode :: (List.replicate padding 0 ++ operands)) :
    ∃ spare, spare.length = padding ∧ bytes = opcode :: (spare ++ operands) := by
  cases bytes with
  | nil => simp at sized; omega
  | cons first others =>
    have shorter : others.length = padding + count := by simp at sized; omega
    obtain ⟨spare, back, rfl, spareSized⟩ : ∃ spare back, others = spare ++ back ∧
        spare.length = padding :=
      ⟨others.take padding, others.drop padding, (List.take_append_drop _ _).symm, by simp; omega⟩
    have backSized : back.length = count := by simp at shorter; omega
    rw [Bytes.clear_cons_false, Bytes.clear_append (by simp [spareSized]),
      Bytes.clear_replicate_true spareSized, Bytes.clear_replicate_false backSized] at cleared
    simp only [List.cons.injEq, List.append_cancel_left_eq] at cleared
    exact ⟨spare, spareSized, by rw [cleared.1, cleared.2]⟩

/-- The first byte of an instruction decides how its operands are read. -/
theorem read_byte (bci : Nat) (opcode : Opcode) (input : Bytes) :
    read bci (opcode.byte :: input) = readOperands bci opcode input := by
  rw [read, bind_of_eq_ok (u8_eq_ok_iff.mpr rfl), Opcode.ofByte?_byte]

/-- The bytes of a table switch are read as the switch. -/
theorem Form.read_tableSwitch {bci : Nat} {padding : UInt8} {default low : Int32}
    {targets : List Int32} {bytes : Bytes}
    (formed : (Instruction.tableSwitch padding default low targets).Form bci bytes)
    (rest : Bytes) :
    read bci (bytes ++ rest) = .ok (.tableSwitch padding default low targets, rest) := by
  obtain ⟨wellFormed, aligned, sized, written⟩ := formed
  obtain ⟨high, highest⟩ := Option.isSome_iff_exists.mp wellFormed
  simp only [alignedAt, tableSwitch.injEq, and_true] at aligned
  have length := Bytes.length_flatMap_of_size Bytes.length_ofI32 targets
  simp only [toBytes, operandBytes, highest, opcodeBytes, spareBytes, Except.ok.injEq] at written
  have operandsSized : (Bytes.ofI32 default ++ (Bytes.ofI32 low ++ (Bytes.ofI32 high ++
      targets.flatMap Bytes.ofI32))).length = 4 * (3 + targets.length) := by
    simp only [List.length_append, Bytes.length_ofI32, length]
    omega
  obtain ⟨spare, spareSized, rfl⟩ := split_padded Opcode.tableswitch.byte sized operandsSized
    (written.symm.trans (by simp [opcode]))
  obtain ⟨positive, small, highEq⟩ : 1 ≤ targets.length ∧ low.toInt + targets.length ≤ 0x80000000 ∧
      high = Int32.ofInt (low.toInt + targets.length - 1) := by
    simp only [switchHigh?] at highest
    split at highest
    · rename_i holds
      simp only [Option.some.injEq] at highest
      exact ⟨holds.1, holds.2.2, highest.symm⟩
    · simp at highest
  have lower := low.le_toInt
  have highInt : high.toInt = low.toInt + targets.length - 1 := by
    rw [highEq]
    exact Int32.toInt_ofInt_of_le (by omega) (by omega)
  have counted : targets.length = (high.toInt - low.toInt + 1).toNat := by omega
  have ordered : ¬high < low := by
    rw [Int32.lt_iff_toInt_lt]
    omega
  have readTargets : Reader.many i32 (high.toInt - low.toInt + 1).toNat
      (targets.flatMap Bytes.ofI32 ++ rest) = .ok (targets, rest) :=
    (i32_reads.many _ _ _ _).mpr ⟨_, ⟨counted, (sequence_ofI32_iff _ _).mpr rfl⟩, rfl⟩
  rw [List.cons_append, read_byte, readOperands]
  simp only [Opcode.format, readTableSwitch, List.append_assoc]
  rw [bind_of_eq_ok (bytes_eq_ok_iff.mpr ⟨by rw [aligned, spareSized], rfl⟩),
    bind_of_eq_ok (i32_eq_ok_iff.mpr rfl), bind_of_eq_ok (i32_eq_ok_iff.mpr rfl),
    bind_of_eq_ok (i32_eq_ok_iff.mpr rfl), if_neg ordered, bind_of_eq_ok readTargets, aligned]
  rfl

theorem Form.read_lookupSwitch {bci : Nat} {padding : UInt8} {default : Int32}
    {pairs : List (Int32 × Int32)} {bytes : Bytes}
    (formed : (Instruction.lookupSwitch padding default pairs).Form bci bytes)
    (small : bytes.length < 4294967296) (rest : Bytes) :
    read bci (bytes ++ rest) = .ok (.lookupSwitch padding default pairs, rest) := by
  obtain ⟨wellFormed, aligned, sized, written⟩ := formed
  simp only [alignedAt, lookupSwitch.injEq, and_true] at aligned
  have length := length_flatMap_pairs pairs
  simp only [toBytes, operandBytes, opcodeBytes, spareBytes, Except.ok.injEq] at written
  have operandsSized : (Bytes.ofI32 default ++ (Bytes.ofLength pairs.length ++
      pairs.flatMap fun pair => Bytes.ofI32 pair.1 ++ Bytes.ofI32 pair.2)).length =
        8 * (1 + pairs.length) := by
    simp only [List.length_append, Bytes.length_ofI32, Bytes.length_ofLength, length]
    omega
  obtain ⟨spare, spareSized, rfl⟩ := split_padded Opcode.lookupswitch.byte sized operandsSized
    (written.symm.trans (by simp [opcode]))
  have bounded : pairs.length < 2 ^ 31 := by
    rw [sized, width] at small
    omega
  have countInt : (Int32.ofNat pairs.length).toInt = pairs.length :=
    Int32.toInt_ofNat_of_lt bounded
  have countWritten : Bytes.ofLength pairs.length = Bytes.ofI32 (Int32.ofNat pairs.length) := by
    rw [← ofLength_toNat_toInt (by omega), countInt, Int.toNat_natCast]
  have counting : ¬Int32.ofNat pairs.length < 0 := by
    rw [Int32.lt_iff_toInt_lt, countInt, Int32.toInt_zero]
    omega
  have readPairs := (pairBytes_reads.many (Int32.ofNat pairs.length).toInt.toNat
    ((pairs.flatMap fun pair => Bytes.ofI32 pair.1 ++ Bytes.ofI32 pair.2) ++ rest) pairs rest).mpr
    ⟨_, ⟨by rw [countInt, Int.toNat_natCast], (sequence_iff_flatMap _ _ _).mpr rfl⟩, rfl⟩
  rw [List.cons_append, read_byte, readOperands]
  simp only [Opcode.format, readLookupSwitch, List.append_assoc, countWritten]
  rw [bind_of_eq_ok (bytes_eq_ok_iff.mpr ⟨by rw [aligned, spareSized], rfl⟩),
    bind_of_eq_ok (i32_eq_ok_iff.mpr rfl), bind_of_eq_ok (i32_eq_ok_iff.mpr rfl),
    if_neg counting, bind_of_eq_ok readPairs, aligned]
  rfl

theorem Form.read_invokeInterface {bci : Nat} {method : ConstantIndex} {count : UInt8}
    {bytes : Bytes} (formed : (Instruction.invokeInterface method count).Form bci bytes)
    (rest : Bytes) : read bci (bytes ++ rest) = .ok (.invokeInterface method count, rest) := by
  obtain ⟨_, _, sized, written⟩ := formed
  match bytes with
  | [first, high, low, third, spare] =>
    simp only [toBytes, operandBytes, opcodeBytes, Except.ok.injEq] at written
    obtain ⟨rfl, front, rfl⟩ : first = Opcode.invokeinterface.byte ∧
        [high, low] = Bytes.ofU16 method ∧ third = count := by
      simpa [Bytes.clear, spareBytes, opcode, Bytes.ofU16, Bytes.ofU8, eq_comm, and_assoc]
        using written
    rw [List.cons_append, read_byte, readOperands]
    simp only [Opcode.format]
    rw [show [high, low, third, spare] ++ rest = Bytes.ofU16 method ++ (third :: spare :: rest) by
      rw [← front]; rfl]
    rw [bind_of_eq_ok (u16_eq_ok_iff.mpr rfl), bind_of_eq_ok (u8_eq_ok_iff.mpr rfl),
      bind_of_eq_ok (u8_eq_ok_iff.mpr rfl)]
    rfl

theorem Form.read_invokeDynamic {bci : Nat} {callSite : ConstantIndex} {bytes : Bytes}
    (formed : (Instruction.invokeDynamic callSite).Form bci bytes) (rest : Bytes) :
    read bci (bytes ++ rest) = .ok (.invokeDynamic callSite, rest) := by
  obtain ⟨_, _, sized, written⟩ := formed
  match bytes with
  | [first, high, low, spareHigh, spareLow] =>
    simp only [toBytes, operandBytes, opcodeBytes, Except.ok.injEq] at written
    obtain ⟨rfl, front⟩ : first = Opcode.invokedynamic.byte ∧
        [high, low] = Bytes.ofU16 callSite := by
      simpa [Bytes.clear, spareBytes, opcode, Bytes.ofU16, eq_comm, and_assoc] using written
    rw [List.cons_append, read_byte, readOperands]
    simp only [Opcode.format]
    rw [show [high, low, spareHigh, spareLow] ++ rest =
      Bytes.ofU16 callSite ++ (Bytes.ofU16 (UInt16.ofNat (spareHigh.toNat * 256 + spareLow.toNat))
        ++ rest) by rw [← front, ofU16_ofNat_bytes]; rfl]
    rw [bind_of_eq_ok (u16_eq_ok_iff.mpr rfl), bind_of_eq_ok (u16_eq_ok_iff.mpr rfl)]
    rfl

/-- An instruction of one opcode byte without spare bytes is read back if its operands are. -/
theorem Form.read_of_operands {bci : Nat} {instruction : Instruction Int32} {bytes : Bytes}
    (formed : instruction.Form bci bytes)
    (plain : instruction.spareBytes = List.replicate instruction.width false)
    (opcode : Opcode) (single : instruction.opcodeBytes = [opcode.byte]) {operands : Bytes}
    (written : instruction.operandBytes = .ok operands) {rest : Bytes}
    (readBack : readOperands bci opcode (operands ++ rest) = .ok (instruction, rest)) :
    Instruction.read bci (bytes ++ rest) = .ok (instruction, rest) := by
  have whole := formed.toBytes_eq plain
  simp only [toBytes, written, single, Except.ok.injEq] at whole
  rw [← whole, List.append_assoc, List.cons_append, read_byte, List.nil_append, readBack]

/-- The `wide` forms are read back after their first byte. -/
theorem Form.read_of_wide {bci : Nat} {instruction : Instruction Int32} {bytes : Bytes}
    (formed : instruction.Form bci bytes)
    (plain : instruction.spareBytes = List.replicate instruction.width false)
    (opcode : Opcode) (double : instruction.opcodeBytes = [Opcode.wide.byte, opcode.byte])
    {operands : Bytes} (written : instruction.operandBytes = .ok operands) {rest : Bytes}
    (readBack : readWide bci (opcode.byte :: (operands ++ rest)) = .ok (instruction, rest)) :
    Instruction.read bci (bytes ++ rest) = .ok (instruction, rest) := by
  have whole := formed.toBytes_eq plain
  simp only [toBytes, written, double, Except.ok.injEq] at whole
  rw [← whole, List.append_assoc, List.cons_append, read_byte]
  exact readBack

/-- The offset of a branch that was written fits in 16 bits. -/
theorem Form.near {bci : Nat} {opcode : Opcode} {offset : Int32} {bytes : Bytes}
    (formed : (Instruction.branch opcode offset).Form bci bytes) :
    -0x8000 ≤ offset.toInt ∧ offset.toInt < 0x8000 := by
  have written := formed.toBytes_eq rfl
  simp only [toBytes, operandBytes] at written
  by_contra far
  rw [if_neg far] at written
  cases written

theorem Form.read_branch {bci : Nat} {opcode : Opcode} {offset : Int32} {bytes : Bytes}
    (formed : (Instruction.branch opcode offset).Form bci bytes) (rest : Bytes) :
    Instruction.read bci (bytes ++ rest) = .ok (.branch opcode offset, rest) := by
  have format : opcode.format = .branch := by simpa [isWellFormed] using formed.wellFormed
  have near := formed.near
  have same : offset.toInt16.toInt32 = offset := by
    rw [← Int32.toInt_inj, Int16.toInt_toInt32, Int32.toInt_toInt16]
    exact Int.bmod_eq_of_le (by omega) (by omega)
  refine formed.read_of_operands rfl opcode rfl (if_pos near) ?_
  simp only [readOperands, format]
  rw [bind_of_eq_ok (i16_eq_ok_iff.mpr rfl), same]
  rfl

/-- Every form of an instruction is read back, whatever follows. -/
theorem Form.read {bci : Nat} {instruction : Instruction Int32} {bytes : Bytes}
    (formed : instruction.Form bci bytes) (small : bytes.length < 4294967296) (rest : Bytes) :
    Instruction.read bci (bytes ++ rest) = .ok (instruction, rest) := by
  have wellFormed := formed.wellFormed
  cases instruction with
  | tableSwitch padding default low targets => exact formed.read_tableSwitch rest
  | lookupSwitch padding default pairs => exact formed.read_lookupSwitch small rest
  | invokeInterface method count => exact formed.read_invokeInterface rest
  | invokeDynamic callSite => exact formed.read_invokeDynamic rest
  | branch opcode offset => exact formed.read_branch rest
  | wideBranch opcode offset =>
    simp only [isWellFormed, decide_eq_true_eq] at wellFormed
    refine formed.read_of_operands rfl opcode rfl rfl ?_
    simp only [readOperands, wellFormed]
    rw [bind_of_eq_ok (i32_eq_ok_iff.mpr rfl)]
    rfl
  | simple opcode =>
    simp only [isWellFormed, decide_eq_true_eq] at wellFormed
    refine formed.read_of_operands rfl opcode rfl rfl ?_
    simp only [readOperands, wellFormed]
    rfl
  | localAccess opcode index =>
    simp only [isWellFormed, decide_eq_true_eq] at wellFormed
    refine formed.read_of_operands rfl opcode rfl rfl ?_
    simp only [readOperands, wellFormed]
    rfl
  | wideLocalAccess opcode index =>
    simp only [isWellFormed, decide_eq_true_eq] at wellFormed
    refine formed.read_of_wide rfl opcode rfl rfl ?_
    rw [readWide, bind_of_eq_ok (u8_eq_ok_iff.mpr rfl)]
    simp only [Opcode.ofByte?_byte, wellFormed]
    rw [bind_of_eq_ok (u16_eq_ok_iff.mpr rfl)]
    rfl
  | increment index delta => exact formed.read_of_operands rfl .iinc rfl rfl rfl
  | wideIncrement index delta =>
    refine formed.read_of_wide rfl .iinc rfl rfl ?_
    rw [readWide, bind_of_eq_ok (u8_eq_ok_iff.mpr rfl), Opcode.ofByte?_byte]
    simp only [Opcode.format]
    rw [List.append_assoc, bind_of_eq_ok (u16_eq_ok_iff.mpr rfl),
      bind_of_eq_ok (i16_eq_ok_iff.mpr rfl)]
    rfl
  | pushByte value => exact formed.read_of_operands rfl .bipush rfl rfl rfl
  | pushShort value =>
    refine formed.read_of_operands rfl .sipush rfl rfl ?_
    simp only [readOperands, Opcode.format]
    rw [bind_of_eq_ok (i16_eq_ok_iff.mpr rfl)]
    rfl
  | newArray elementCode => exact formed.read_of_operands rfl .newarray rfl rfl rfl
  | loadConstant index => exact formed.read_of_operands rfl .ldc rfl rfl rfl
  | constant opcode index =>
    simp only [isWellFormed, decide_eq_true_eq] at wellFormed
    refine formed.read_of_operands rfl opcode rfl rfl ?_
    simp only [readOperands, wellFormed]
    rw [bind_of_eq_ok (u16_eq_ok_iff.mpr rfl)]
    rfl
  | multiNewArray arrayClass dimensions =>
    refine formed.read_of_operands rfl .multianewarray rfl rfl ?_
    simp only [readOperands, Opcode.format]
    rw [List.append_assoc, bind_of_eq_ok (u16_eq_ok_iff.mpr rfl)]
    rfl

/-- Reading accepts exactly the forms of well-formed instructions, as long as lengths that are written
in 32 bits are exact. -/
theorem read_eq_ok_iff {bci : Nat} {input rest : Bytes} {instruction : Instruction Int32}
    (small : input.length < 4294967296 ∨ instruction.width < 4294967296) :
    Instruction.read bci input = .ok (instruction, rest) ↔
      ∃ bytes, instruction.Form bci bytes ∧ input = bytes ++ rest := by
  constructor
  · intro accepted
    rw [Instruction.read, bind_eq_ok_iff] at accepted
    obtain ⟨byte, middle, first, accepted⟩ := accepted
    rw [u8_eq_ok_iff] at first
    subst first
    cases found : Opcode.ofByte? byte with
    | none => simp [found, fail_eq_ok_iff] at accepted
    | some opcode =>
      obtain rfl := Opcode.byte_of_ofByte? found
      simp only [found] at accepted
      have shorter : middle.length < 4294967296 ∨ instruction.width < 4294967296 := by
        rw [List.length_cons] at small
        omega
      obtain ⟨bytes, formed, rfl⟩ := form_of_readOperands shorter accepted
      exact ⟨opcode.byte :: bytes, formed, rfl⟩
  · rintro ⟨bytes, formed, rfl⟩
    rw [List.length_append, ← formed.sized] at small
    exact formed.read (by omega) rest

/-- Clearing the padding after an opcode changes nothing if it consists of zeros. -/
theorem clear_padded (opcode : UInt8) {padding count : Nat} {operands : Bytes}
    (sized : operands.length = count) :
    Bytes.clear (false :: (List.replicate padding true ++ List.replicate count false))
        (opcode :: (List.replicate padding 0 ++ operands)) =
      opcode :: (List.replicate padding 0 ++ operands) := by
  rw [Bytes.clear_cons_false, Bytes.clear_append (by simp),
    Bytes.clear_replicate_true (List.length_replicate), Bytes.clear_replicate_false sized]

/-- An instruction is written in as many bytes as its width says, well formed or not. -/
theorem length_toBytes {instruction : Instruction Int32} {bytes : Bytes}
    (written : instruction.toBytes = .ok bytes) : bytes.length = instruction.width := by
  cases instruction with
  | branch opcode offset =>
    simp only [toBytes, operandBytes] at written
    by_cases near : -0x8000 ≤ offset.toInt ∧ offset.toInt < 0x8000
    · rw [if_pos near] at written
      cases written
      rfl
    · rw [if_neg near] at written
      cases written
  | tableSwitch padding default low targets =>
    have length := Bytes.length_flatMap_of_size Bytes.length_ofI32 targets
    simp only [toBytes, operandBytes] at written
    cases known : switchHigh? low targets.length with
    | none =>
      rw [known] at written
      cases written
    | some high =>
      rw [known] at written
      cases written
      simp only [opcodeBytes, List.length_append, List.length_cons, List.length_nil,
        List.length_replicate, Bytes.length_ofI32, length, width]
      omega
  | lookupSwitch padding default pairs =>
    have length := length_flatMap_pairs pairs
    cases written
    simp only [opcodeBytes, List.length_append, List.length_cons, List.length_nil,
      List.length_replicate, Bytes.length_ofI32, Bytes.length_ofLength, length, width]
    omega
  | _ =>
    cases written
    rfl

/-- The number of bytes between the opcode of a switch and its operands. -/
def padding? : Instruction L → Option UInt8
  | .tableSwitch padding .. | .lookupSwitch padding .. => some padding
  | _ => none

/-- An instruction is aligned at a position if its padding, where it has any, suits it. -/
theorem alignedAt_eq_self_iff (bci : Nat) (instruction : Instruction L) :
    instruction.alignedAt bci = instruction ↔
      ∀ padding, instruction.padding? = some padding → padding = switchPadding bci := by
  cases instruction <;> simp [alignedAt, padding?, eq_comm]

/-- An instruction can be written at a position. -/
structure Representable (bci : Nat) (instruction : Instruction Int32) : Prop where
  wellFormed : instruction.isWellFormed = true
  near : ∀ opcode offset, instruction = .branch opcode offset →
    -0x8000 ≤ offset.toInt ∧ offset.toInt < 0x8000
  aligned : ∀ padding, instruction.padding? = some padding → padding = switchPadding bci

/-- An instruction that has a form can be represented. -/
theorem Form.representable {bci : Nat} {instruction : Instruction Int32} {bytes : Bytes}
    (formed : instruction.Form bci bytes) : instruction.Representable bci where
  wellFormed := formed.wellFormed
  near := by
    rintro opcode offset rfl
    exact formed.near
  aligned := (alignedAt_eq_self_iff bci instruction).mp formed.aligned

/-- What can be written at a position is written as one of its forms there. -/
theorem Representable.exists_form {bci : Nat} {instruction : Instruction Int32}
    (representable : instruction.Representable bci) :
    ∃ bytes, instruction.Form bci bytes ∧ Bytes.clear instruction.spareBytes bytes = bytes := by
  suffices writes : ∃ bytes, instruction.toBytes = .ok bytes ∧
      Bytes.clear instruction.spareBytes bytes = bytes by
    obtain ⟨bytes, written, cleared⟩ := writes
    have aligned := (alignedAt_eq_self_iff bci instruction).mpr representable.aligned
    exact ⟨bytes, ⟨representable.wellFormed, aligned, length_toBytes written,
      by rw [cleared, written]⟩, cleared⟩
  cases instruction with
  | branch opcode offset =>
    refine ⟨opcode.byte :: Bytes.ofI16 offset.toInt16, ?_, rfl⟩
    rw [toBytes, operandBytes, if_pos (representable.near opcode offset rfl)]
    rfl
  | tableSwitch padding default low targets =>
    obtain ⟨high, highest⟩ := Option.isSome_iff_exists.mp representable.wellFormed
    have length := Bytes.length_flatMap_of_size Bytes.length_ofI32 targets
    refine ⟨Opcode.tableswitch.byte :: (List.replicate padding.toNat 0 ++ (Bytes.ofI32 default
      ++ Bytes.ofI32 low ++ Bytes.ofI32 high ++ targets.flatMap Bytes.ofI32)), ?_, ?_⟩
    · simp only [toBytes, operandBytes, highest, opcodeBytes, List.append_assoc]
      rfl
    · apply clear_padded
      simp only [List.length_append, Bytes.length_ofI32, length]
      omega
  | lookupSwitch padding default pairs =>
    have length := length_flatMap_pairs pairs
    refine ⟨Opcode.lookupswitch.byte :: (List.replicate padding.toNat 0 ++ (Bytes.ofI32 default
      ++ Bytes.ofLength pairs.length
      ++ pairs.flatMap fun pair => Bytes.ofI32 pair.1 ++ Bytes.ofI32 pair.2)), ?_, ?_⟩
    · simp only [toBytes, operandBytes, opcodeBytes, List.append_assoc]
      rfl
    · apply clear_padded
      simp only [List.length_append, Bytes.length_ofI32, Bytes.length_ofLength, length]
      omega
  | _ => exact ⟨_, rfl, rfl⟩

end Instruction

end Classfile
