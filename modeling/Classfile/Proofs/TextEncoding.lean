import Classfile.ModifiedUtf8
import Mathlib.Tactic

/-!
Texts survive modified UTF-8.

The encoding goes through UTF-16 units. Each unit is found again at the front of its bytes, and each
character at the front of its units, whatever follows them, so a text is what its encoding decodes to.
No byte of a unit is zero, and a unit that is a character by itself has the bytes of UTF-8.
-/

namespace Classfile

namespace ModifiedUtf8

/-- A continuation byte holds six bits. -/
theorem continuation?_ofNat {payload : Nat} (small : payload < 0x40) :
    continuation? (UInt8.ofNat (0x80 + payload)) = some payload := by
  have value := UInt8.toNat_ofNat_of_lt' (show 0x80 + payload < 256 by omega)
  have continues : 0x80 ≤ UInt8.ofNat (0x80 + payload) ∧ UInt8.ofNat (0x80 + payload) < 0xC0 := by
    simp only [UInt8.le_iff_toNat_le, UInt8.lt_iff_toNat_lt, value, UInt8.reduceToNat]
    omega
  have bits : (0x80 + payload) % 0x40 = payload := by omega
  rw [continuation?, if_pos continues, value, bits]

/-- The first of two bytes holds the upper five bits of a unit. -/
theorem leadingUnit_two {high low : Nat} (rest : Bytes) (small : high < 0x20) (narrow : low < 0x40) :
    leadingUnit (UInt8.ofNat (0xC0 + high)) (UInt8.ofNat (0x80 + low) :: rest) =
      (high * 0x40 + low, 1) := by
  have value := UInt8.toNat_ofNat_of_lt' (show 0xC0 + high < 256 by omega)
  have several : ¬UInt8.ofNat (0xC0 + high) < 0x80 := by
    simp only [UInt8.lt_iff_toNat_lt, value, UInt8.reduceToNat]
    omega
  have two : 0xC0 ≤ UInt8.ofNat (0xC0 + high) ∧ UInt8.ofNat (0xC0 + high) < 0xE0 := by
    simp only [UInt8.le_iff_toNat_le, UInt8.lt_iff_toNat_lt, value, UInt8.reduceToNat]
    omega
  have bits : (0xC0 + high) % 0x20 = high := by omega
  rw [leadingUnit, if_neg several, if_pos two]
  simp only [List.getElem?_cons_zero, Option.bind_some, continuation?_ofNat narrow, value, bits]

/-- The first of three bytes holds the upper four bits of a unit. -/
theorem leadingUnit_three {high middle low : Nat} (rest : Bytes) (small : high < 0x10)
    (medium : middle < 0x40) (narrow : low < 0x40) :
    leadingUnit (UInt8.ofNat (0xE0 + high))
        (UInt8.ofNat (0x80 + middle) :: UInt8.ofNat (0x80 + low) :: rest) =
      (high * 0x1000 + middle * 0x40 + low, 2) := by
  have value := UInt8.toNat_ofNat_of_lt' (show 0xE0 + high < 256 by omega)
  have several : ¬UInt8.ofNat (0xE0 + high) < 0x80 := by
    simp only [UInt8.lt_iff_toNat_lt, value, UInt8.reduceToNat]
    omega
  have more : ¬(0xC0 ≤ UInt8.ofNat (0xE0 + high) ∧ UInt8.ofNat (0xE0 + high) < 0xE0) := by
    simp only [UInt8.le_iff_toNat_le, UInt8.lt_iff_toNat_lt, value, UInt8.reduceToNat]
    omega
  have three : 0xE0 ≤ UInt8.ofNat (0xE0 + high) ∧ UInt8.ofNat (0xE0 + high) < 0xF0 := by
    simp only [UInt8.le_iff_toNat_le, UInt8.lt_iff_toNat_lt, value, UInt8.reduceToNat]
    omega
  have bits : (0xE0 + high) % 0x10 = high := by omega
  rw [leadingUnit, if_neg several, if_neg more, if_pos three]
  simp only [List.getElem?_cons_zero, List.getElem?_cons_succ, Option.bind_some,
    continuation?_ofNat medium, continuation?_ofNat narrow, value, bits]

/-- The unit at the front of the bytes of a unit is that unit, and it takes all of them. -/
theorem leadingUnit_encodeUnit {unit : Nat} (small : unit < 0x10000) :
    ∃ first tail, encodeUnit unit = first :: tail ∧
      ∀ rest, leadingUnit first (tail ++ rest) = (unit, tail.length) := by
  unfold encodeUnit
  split
  · rename_i zero
    exact ⟨0xC0, [0x80], rfl, fun rest => zero ▸ @leadingUnit_two 0 0 rest (by decide) (by decide)⟩
  · split
    · rename_i ascii
      have value := UInt8.toNat_ofNat_of_lt' (show unit < 256 by omega)
      have single : UInt8.ofNat unit < 0x80 := by
        simpa only [UInt8.lt_iff_toNat_lt, value, UInt8.reduceToNat] using ascii
      refine ⟨UInt8.ofNat unit, [], rfl, fun rest => ?_⟩
      rw [leadingUnit, if_pos single, value]
      rfl
    · split
      · refine ⟨_, _, rfl, fun rest => ?_⟩
        rw [List.singleton_append, leadingUnit_two rest (by omega) (by omega), Nat.div_add_mod']
        rfl
      · refine ⟨_, _, rfl, fun rest => ?_⟩
        have parts : unit / 0x1000 * 0x1000 + unit / 0x40 % 0x40 * 0x40 + unit % 0x40 = unit := by omega
        rw [List.cons_append, List.singleton_append,
          leadingUnit_three rest (by omega) (by omega) (by omega), parts]
        rfl

/-- Bytes that belong to the unit before are passed over. -/
theorem decodeUnitsOnto_append (done : List Nat) (inside rest : Bytes) :
    decodeUnitsOnto inside.length done (inside ++ rest) = decodeUnitsOnto 0 done rest := by
  induction inside with
  | nil => rfl
  | cons first inside inductionHypothesis => exact inductionHypothesis

/-- An encoded unit is decoded before the others. -/
theorem decodeUnitsOnto_encodeUnit {unit : Nat} (small : unit < 0x10000) (done : List Nat)
    (rest : Bytes) :
    decodeUnitsOnto 0 done (encodeUnit unit ++ rest) = decodeUnitsOnto 0 (unit :: done) rest := by
  obtain ⟨first, tail, encoded, leads⟩ := leadingUnit_encodeUnit small
  rw [encoded, List.cons_append, decodeUnitsOnto, leads rest]
  exact decodeUnitsOnto_append (unit :: done) tail rest

/-- Units are found again in their bytes. -/
theorem decodeUnitsOnto_encode {units : List Nat} (small : ∀ unit ∈ units, unit < 0x10000)
    (done : List Nat) :
    decodeUnitsOnto 0 done (units.flatMap encodeUnit) = done.reverse ++ units := by
  induction units generalizing done with
  | nil => simp [decodeUnitsOnto]
  | cons unit units inductionHypothesis =>
    rw [List.flatMap_cons, decodeUnitsOnto_encodeUnit (small unit List.mem_cons_self),
      inductionHypothesis fun other present => small other (List.mem_cons_of_mem _ present)]
    simp

/-- A character is not a surrogate. -/
theorem toNat_notSurrogate (character : Char) :
    character.toNat < 0xD800 ∨ 0xE000 ≤ character.toNat ∧ character.toNat < 0x110000 := by
  rcases character.valid with below | ⟨above, bounded⟩
  · exact .inl below
  · exact .inr ⟨above, bounded⟩

/-- All units of a character fit in 16 bits. -/
theorem units_lt (character : Char) : ∀ unit ∈ units character, unit < 0x10000 := by
  have bounded := toNat_notSurrogate character
  intro unit present
  simp only [units] at present
  split at present
  · rw [List.mem_singleton.mp present]
    assumption
  · simp only [List.mem_cons, List.not_mem_nil, or_false] at present
    omega

/-- The character at the front of the units of a character is that character, and it takes all of
them. -/
theorem leadingCharacter_units (character : Char) :
    ∃ first tail, units character = first :: tail ∧
      ∀ rest, leadingCharacter first (tail ++ rest) = (character, tail.length) := by
  have bounded := toNat_notSurrogate character
  simp only [units]
  split
  · refine ⟨_, _, rfl, fun rest => ?_⟩
    rw [leadingCharacter, if_pos (by omega), Char.ofNat_toNat]
    rfl
  · refine ⟨_, _, rfl, fun rest => ?_⟩
    have high : 0xD800 + (character.toNat - 0x10000) / 0x400 < 0xDC00 := by omega
    have low : 0xDC00 ≤ 0xDC00 + (character.toNat - 0x10000) % 0x400 ∧
        0xDC00 + (character.toNat - 0x10000) % 0x400 < 0xE000 := by omega
    have code : 0x10000 + (0xD800 + (character.toNat - 0x10000) / 0x400 - 0xD800) * 0x400 +
        (0xDC00 + (character.toNat - 0x10000) % 0x400 - 0xDC00) = character.toNat := by omega
    rw [leadingCharacter, if_neg (by omega), if_pos high]
    simp only [List.singleton_append, List.getElem?_cons_zero, if_pos low, code, Char.ofNat_toNat]
    rfl

/-- Units that belong to the character before are passed over. -/
theorem decodeCharactersOnto_append (done : List Char) (inside rest : List Nat) :
    decodeCharactersOnto inside.length done (inside ++ rest) = decodeCharactersOnto 0 done rest := by
  induction inside with
  | nil => rfl
  | cons first inside inductionHypothesis => exact inductionHypothesis

/-- The units of a character are decoded before the others. -/
theorem decodeCharactersOnto_units (character : Char) (done : List Char) (rest : List Nat) :
    decodeCharactersOnto 0 done (units character ++ rest) =
      decodeCharactersOnto 0 (character :: done) rest := by
  obtain ⟨first, tail, encoded, leads⟩ := leadingCharacter_units character
  rw [encoded, List.cons_append, decodeCharactersOnto, leads rest]
  exact decodeCharactersOnto_append (character :: done) tail rest

/-- Characters are found again in their units. -/
theorem decodeCharactersOnto_flatMap (characters done : List Char) :
    decodeCharactersOnto 0 done (characters.flatMap units) = done.reverse ++ characters := by
  induction characters generalizing done with
  | nil => simp [decodeCharactersOnto]
  | cons character characters inductionHypothesis =>
    rw [List.flatMap_cons, decodeCharactersOnto_units, inductionHypothesis]
    simp

/-- A text is what its encoding decodes to. -/
theorem decode_encode (text : String) : decode (encode text) = text := by
  have encoded : encode text = (text.toList.flatMap units).flatMap encodeUnit := by
    rw [encode, List.flatMap_assoc]
  have small : ∀ unit ∈ text.toList.flatMap units, unit < 0x10000 := by
    intro unit present
    obtain ⟨character, _, member⟩ := List.mem_flatMap.mp present
    exact units_lt character unit member
  rw [decode, encoded, decodeUnitsOnto_encode small, List.reverse_nil, List.nil_append,
    decodeCharactersOnto_flatMap, List.reverse_nil, List.nil_append, String.ofList_toList]

/-- A byte given by a number is above zero and below the first bytes of four-byte forms if the number
is. -/
theorem ofNat_within {value : Nat} (positive : 0 < value) (bounded : value < 0xF0) :
    UInt8.ofNat value ≠ 0 ∧ UInt8.ofNat value < 0xF0 := by
  have exactly := UInt8.toNat_ofNat_of_lt' (show value < 256 by omega)
  constructor
  · intro zero
    rw [zero] at exactly
    exact absurd exactly (Nat.ne_of_lt positive)
  · rw [UInt8.lt_iff_toNat_lt, exactly]
    exact bounded

/-- The bytes of a unit are neither zero nor above the range of three-byte sequences. -/
theorem encodeUnit_within {unit : Nat} (small : unit < 0x10000) {byte : UInt8}
    (present : byte ∈ encodeUnit unit) : byte ≠ 0 ∧ byte < 0xF0 := by
  unfold encodeUnit at present
  split at present
  · simp only [List.mem_cons, List.not_mem_nil, or_false] at present
    rcases present with rfl | rfl <;> decide
  · split at present
    · rw [List.mem_singleton.mp present]
      exact ofNat_within (by omega) (by omega)
    · -- The marks of first and later bytes keep every byte above zero.
      split at present
      · simp only [List.mem_cons, List.not_mem_nil, or_false] at present
        rcases present with rfl | rfl <;> exact ofNat_within (by omega) (by omega)
      · simp only [List.mem_cons, List.not_mem_nil, or_false] at present
        rcases present with rfl | rfl | rfl <;> exact ofNat_within (by omega) (by omega)

/-- A unit that is a character by itself has the bytes of UTF-8. -/
theorem encodeUnit_eq_utf8 {character : Char} (positive : 0 < character.toNat)
    (basic : character.toNat < 0x10000) :
    encodeUnit character.toNat = String.utf8EncodeChar character := by
  have code : character.val.toNat = character.toNat := rfl
  simp only [encodeUnit, if_neg (Nat.ne_of_gt positive), String.utf8EncodeChar, code]
  rcases Nat.lt_or_ge character.toNat 0x80 with one | several
  · have small : character.toNat ≤ 127 := by omega
    rw [if_pos one, if_pos small]
  · have large : ¬character.toNat ≤ 127 := by omega
    rw [if_neg (Nat.not_lt.mpr several), if_neg large]
    rcases Nat.lt_or_ge character.toNat 0x800 with two | three
    · have small : character.toNat ≤ 2047 := by omega
      have high : 0xC0 + character.toNat / 0x40 = character.toNat / 64 % 32 + 192 := by omega
      rw [if_pos two, if_pos small, high, Nat.add_comm 0x80]
    · have large : ¬character.toNat ≤ 2047 := by omega
      have high : 0xE0 + character.toNat / 0x1000 = character.toNat / 4096 % 16 + 224 := by omega
      rw [if_neg (Nat.not_lt.mpr three), if_neg large, if_pos (Nat.le_of_lt_succ basic), high,
        Nat.add_comm 0x80, Nat.add_comm 0x80]

/-- A text without null and supplementary characters has the bytes of UTF-8. -/
theorem encode_eq_utf8 {text : String}
    (basic : ∀ character ∈ text.toList, 0 < character.toNat ∧ character.toNat < 0x10000) :
    encode text = text.toUTF8.data.toList := by
  have standard : text.toUTF8 = (text.toList.flatMap String.utf8EncodeChar).toByteArray := by
    rw [String.toUTF8_eq_toByteArray, ← @String.ofList_toList text, String.toByteArray_ofList,
      String.toList_ofList]
    rfl
  rw [standard, List.toList_data_toByteArray, encode]
  refine List.flatMap_congr fun character present => ?_
  obtain ⟨positive, small⟩ := basic character present
  rw [units, if_pos small, List.flatMap_singleton, encodeUnit_eq_utf8 positive small]

/-- The encoding can be undone, never contains a zero byte or a first byte of a four-byte form, and
is UTF-8 where a text has neither null nor supplementary characters. -/
theorem encode_reversible :
    (∀ text, decode (encode text) = text) ∧ Function.Injective encode ∧
    (∀ text, ∀ byte ∈ encode text, byte ≠ 0 ∧ byte < 0xF0) ∧
    (∀ text : String,
      (∀ character ∈ text.toList, 0 < character.toNat ∧ character.toNat < 0x10000) →
        encode text = text.toUTF8.data.toList) := by
  refine ⟨decode_encode, Function.LeftInverse.injective decode_encode, ?_, fun text => encode_eq_utf8⟩
  intro text byte present
  obtain ⟨character, -, inside⟩ := List.mem_flatMap.mp present
  obtain ⟨unit, member, last⟩ := List.mem_flatMap.mp inside
  exact encodeUnit_within (units_lt character unit member) last

/-- A null and a supplementary character take eight bytes, and both come back. -/
theorem encode_reversible_supplementary :
    encode "\u0000😀" = [0xC0, 0x80, 0xED, 0xA0, 0xBD, 0xED, 0xB8, 0x80] ∧
      decode (encode "\u0000😀") = "\u0000😀" ∧ encode "\u0000😀" ≠ encode "😀" ∧
      ((0xED : UInt8) ≠ 0 ∧ (0xED : UInt8) < 0xF0) ∧
      encode "é€" = "é€".toUTF8.data.toList := by
  obtain ⟨undone, injective, within, basic⟩ := encode_reversible
  have bytes : encode "\u0000😀" = [0xC0, 0x80, 0xED, 0xA0, 0xBD, 0xED, 0xB8, 0x80] := by decide
  have letters : "é€".toList = ['é', '€'] := by decide
  exact ⟨bytes, undone _, injective.ne (by decide), within "\u0000😀" 0xED (by rw [bytes]; decide),
    basic "é€" (by simp [letters])⟩

end ModifiedUtf8

end Classfile
