import Classfile.Proofs.Labels
import Classfile.Proofs.Searching

/-!
Decoding code: a code array is accepted exactly when it consists of forms of instructions, each of
which starts where the one before it ends.
-/

namespace Classfile

namespace OffsetTable

variable {A : Type} [HasWidth A]

/-- Elements with the offsets at which they start, the first one at a given offset. -/
def placed (offset : Nat) : List A → List (Nat × A)
  | [] => []
  | element :: elements => (offset, element) :: placed (offset + HasWidth.width element) elements

/-- Elements are pushed one after the other. -/
def pushAll (table : OffsetTable A) (elements : List A) : OffsetTable A :=
  elements.foldl push table

/-- Elements that are pushed come last, each where the one before it ends. -/
theorem entries_pushAll (table : OffsetTable A) (elements : List A) :
    (table.pushAll elements).entries.toList = table.entries.toList ++ placed table.extent elements := by
  induction elements generalizing table with
  | nil => simp [pushAll, placed]
  | cons element elements inductionHypothesis =>
    rw [pushAll, List.foldl_cons, ← pushAll, inductionHypothesis]
    simp [push, placed]

theorem extent_pushAll (table : OffsetTable A) (elements : List A) :
    (table.pushAll elements).extent =
      table.extent + Bytes.totalSize HasWidth.width elements := by
  induction elements generalizing table with
  | nil => simp [pushAll, Bytes.totalSize]
  | cons element elements inductionHypothesis =>
    rw [pushAll, List.foldl_cons, ← pushAll, inductionHypothesis]
    simp [push, Bytes.totalSize, Nat.add_assoc]

/-- Placing elements keeps them. -/
theorem map_snd_placed (offset : Nat) (elements : List A) :
    (placed offset elements).map Prod.snd = elements := by
  induction elements generalizing offset with
  | nil => rfl
  | cons element elements inductionHypothesis => simp [placed, inductionHypothesis]

/-- An element is placed after the widths of those before it. -/
theorem getElem?_placed_eq (offset : Nat) (elements : List A) (index : Nat) :
    (placed offset elements)[index]? = elements[index]?.map fun element =>
      (offset + Bytes.totalSize HasWidth.width (elements.take index), element) := by
  induction elements generalizing offset index with
  | nil => rfl
  | cons element elements inductionHypothesis =>
    cases index with
    | zero => rfl
    | succ index =>
      rw [placed, List.getElem?_cons_succ, List.getElem?_cons_succ, inductionHypothesis,
        List.take_succ_cons]
      simp only [Bytes.totalSize, List.foldr_cons, Nat.add_assoc]

theorem getElem?_placed (offset : Nat) (before : List A) (element : A) (after : List A) :
    (placed offset (before ++ element :: after))[before.length]? =
      some (offset + Bytes.totalSize HasWidth.width before, element) := by
  rw [getElem?_placed_eq, List.getElem?_append_right (Nat.le_refl _), Nat.sub_self, List.take_left]
  rfl

/-- Offsets still increase after elements of some width are pushed. -/
theorem Increasing.pushAll {table : OffsetTable A} (increasing : table.Increasing) {elements : List A}
    (positive : ∀ element ∈ elements, 0 < HasWidth.width element) :
    (table.pushAll elements).Increasing := by
  induction elements generalizing table with
  | nil => exact increasing
  | cons element elements inductionHypothesis =>
    rw [List.forall_mem_cons] at positive
    exact inductionHypothesis (increasing.push element positive.1) positive.2

end OffsetTable

namespace DecodedCode

/-- Instructions one after the other from a position on, each in a form of its own. -/
def Form : Nat → List (Instruction Int32) → Bytes → Prop
  | _, [], bytes => bytes = []
  | bci, instruction :: instructions, bytes =>
    ∃ front back, instruction.Form bci front ∧
      Form (bci + instruction.width) instructions back ∧ bytes = front ++ back

/-- Bytes inside of an instruction are passed over. -/
theorem decodeOnto_inside (inside : Nat) (code : DecodedCode) (byte : UInt8) (rest : Bytes) :
    decodeOnto (inside + 1) code (byte :: rest) = decodeOnto inside code rest := rfl

set_option maxRecDepth 3000 in
theorem decodeOnto_start (code : DecodedCode) (byte : UInt8) (rest : Bytes) :
    decodeOnto 0 code (byte :: rest) =
      match Instruction.read code.extent (byte :: rest) with
      | .ok (instruction, _) => decodeOnto (instruction.width - 1) (code.push instruction) rest
      | .error error => .error error := rfl

/-- The bytes that belong to an instruction are skipped. -/
theorem decodeOnto_skip (code : DecodedCode) (front back : Bytes) :
    decodeOnto front.length code (front ++ back) = decodeOnto 0 code back := by
  induction front with
  | nil => rfl
  | cons byte front inductionHypothesis =>
    rw [List.length_cons, List.cons_append, decodeOnto_inside, inductionHypothesis]

/-- An instruction at the front is pushed, and decoding goes on after its bytes. -/
theorem decodeOnto_form {code : DecodedCode} {instruction : Instruction Int32} {front : Bytes}
    (formed : instruction.Form code.extent front) (small : instruction.width < 4294967296)
    (back : Bytes) :
    decodeOnto 0 code (front ++ back) = decodeOnto 0 (code.push instruction) back := by
  have positive := instruction.width_pos
  have sized := formed.sized
  have accepted := formed.read (by rw [sized]; exact small) back
  cases front with
  | nil => simp at sized; omega
  | cons byte front =>
    simp only [List.cons_append] at accepted ⊢
    rw [decodeOnto_start, accepted]
    have inside : instruction.width - 1 = front.length := by
      rw [← sized, List.length_cons, Nat.add_sub_cancel]
    simp only [inside, decodeOnto_skip]

/-- Decoding only adds to the code. -/
theorem exists_pushAll_of_decodeOnto {inside : Nat} {code result : DecodedCode} {bytes : Bytes}
    (decoded : decodeOnto inside code bytes = .ok result) :
    ∃ instructions : List (Instruction Int32), result = code.pushAll instructions := by
  induction bytes generalizing inside code with
  | nil =>
    cases inside <;> (cases decoded; exact ⟨[], rfl⟩)
  | cons byte rest inductionHypothesis =>
    cases inside with
    | succ inside =>
      rw [decodeOnto_inside] at decoded
      exact inductionHypothesis decoded
    | zero =>
      rw [decodeOnto_start] at decoded
      split at decoded
      · obtain ⟨instructions, rfl⟩ := inductionHypothesis decoded
        exact ⟨_ :: instructions, rfl⟩
      · cases decoded

/-- Code is decoded exactly from forms of instructions that follow each other, as long as the bytes
or the code have a size of 32 bits. -/
theorem decodeOnto_eq_ok_iff (code result : DecodedCode) (bytes : Bytes)
    (small : bytes.length < 4294967296 ∨ result.extent < 4294967296) :
    decodeOnto 0 code bytes = .ok result ↔
      ∃ instructions, Form code.extent instructions bytes ∧
        result = code.pushAll instructions := by
  constructor
  -- Instructions differ in width, so the induction is on the number of bytes that are left.
  · intro decoded
    induction length : bytes.length using Nat.strong_induction_on generalizing code bytes with
    | _ length' inductionHypothesis =>
    subst length
    cases bytes with
    | nil =>
      change Except.ok code = .ok result at decoded
      cases decoded
      exact ⟨[], rfl, rfl⟩
    | cons byte rest =>
      have decodedStep := decoded
      rw [decodeOnto_start] at decodedStep
      split at decodedStep
      · rename_i instruction left accepted
        -- An instruction ends within the result, whose size may be all that is bounded.
        have within : code.extent + instruction.width ≤ result.extent := by
          obtain ⟨added, rfl⟩ := exists_pushAll_of_decodeOnto decodedStep
          rw [OffsetTable.extent_pushAll]
          exact Nat.le_add_right _ _
        obtain ⟨front, formed, split⟩ :=
          (Instruction.read_eq_ok_iff (small.imp_right fun bound => by omega)).mp accepted
        have positive := instruction.width_pos
        have sized := formed.sized
        rw [split] at decoded small inductionHypothesis
        rw [List.length_append] at small
        rw [decodeOnto_form formed (by omega) left] at decoded
        obtain ⟨instructions, others, rfl⟩ := inductionHypothesis left.length
          (by rw [List.length_append]; omega) _ left (small.imp_left fun bound => by omega) decoded rfl
        exact ⟨instruction :: instructions, ⟨front, left, formed, others, split⟩, rfl⟩
      · simp at decodedStep
  · rintro ⟨instructions, formed, rfl⟩
    induction instructions generalizing code bytes with
    | nil =>
      obtain rfl : bytes = [] := formed
      rfl
    | cons instruction instructions inductionHypothesis =>
      obtain ⟨front, back, frontFormed, backFormed, rfl⟩ := formed
      have sized := frontFormed.sized
      have extent := code.extent_pushAll (instruction :: instructions)
      change _ = _ + (instruction.width + _) at extent
      rw [List.length_append] at small
      rw [decodeOnto_form frontFormed (by omega) back]
      exact inductionHypothesis _ back backFormed (small.imp_left fun bound => by omega)

/-- The decoded code of a list of instructions. -/
def ofList (instructions : List (Instruction Int32)) : DecodedCode :=
  (OffsetTable.startingAt 0).pushAll instructions

/-- Bytes are decoded to the instructions whose form they are. -/
theorem decode_eq_ok_iff {bytes : Bytes} {code : DecodedCode}
    (small : bytes.length < 4294967296 ∨ code.extent < 4294967296) :
    decode bytes = .ok code ↔
      ∃ instructions, Form 0 instructions bytes ∧ code = ofList instructions :=
  decodeOnto_eq_ok_iff _ _ _ small

/-- The offsets of decoded instructions increase. -/
theorem increasing_ofList (instructions : List (Instruction Int32)) :
    (ofList instructions).Increasing :=
  (OffsetTable.Increasing.startingAt 0).pushAll fun instruction _ => instruction.width_pos

/-- Decoded instructions follow each other from zero on. -/
theorem entries_ofList (instructions : List (Instruction Int32)) :
    (ofList instructions).entries.toList = OffsetTable.placed 0 instructions := by
  rw [ofList, OffsetTable.entries_pushAll]
  rfl

/-- The extent of decoded code is the total width of its instructions. -/
theorem extent_ofList (instructions : List (Instruction Int32)) :
    (ofList instructions).extent = Bytes.totalSize Instruction.width instructions := by
  rw [ofList, OffsetTable.extent_pushAll]
  exact Nat.zero_add _

/-- Decoded code consists of its instructions. -/
theorem elements_ofList (instructions : List (Instruction Int32)) :
    (ofList instructions).elements = instructions := by
  rw [OffsetTable.elements, entries_ofList, OffsetTable.map_snd_placed]

/-- The forms of instructions take up their widths. -/
theorem Form.length {bci : Nat} {instructions : List (Instruction Int32)} {bytes : Bytes}
    (formed : Form bci instructions bytes) :
    bytes.length = Bytes.totalSize Instruction.width instructions := by
  induction instructions generalizing bci bytes with
  | nil =>
    obtain rfl : bytes = [] := formed
    rfl
  | cons instruction instructions inductionHypothesis =>
    obtain ⟨front, back, frontFormed, backFormed, rfl⟩ := formed
    rw [List.length_append, frontFormed.sized, inductionHypothesis backFormed]
    rfl

/-- The forms of instructions are written with zeros in their spare bytes. -/
theorem Form.written {bci : Nat} {instructions : List (Instruction Int32)} {bytes : Bytes}
    (formed : Form bci instructions bytes) :
    ∃ parts, instructions.mapM Instruction.toBytes = .ok parts ∧
      parts.flatten = Bytes.clear (instructions.flatMap Instruction.spareBytes) bytes := by
  induction instructions generalizing bci bytes with
  | nil =>
    obtain rfl : bytes = [] := formed
    exact ⟨[], rfl, rfl⟩
  | cons instruction instructions inductionHypothesis =>
    obtain ⟨front, back, frontFormed, backFormed, rfl⟩ := formed
    obtain ⟨parts, written, flat⟩ := inductionHypothesis backFormed
    refine ⟨Bytes.clear instruction.spareBytes front :: parts, ?_, ?_⟩
    · rw [List.mapM_cons, frontFormed.written, written]
      rfl
    · rw [List.flatten_cons, flat, List.flatMap_cons, Bytes.clear_append]
      rw [Instruction.length_spareBytes, frontFormed.sized]

end DecodedCode

end Classfile
