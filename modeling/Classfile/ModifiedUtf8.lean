import Classfile.Bytes

/-!
Modified UTF-8, the text encoding of class files.

Each UTF-16 unit of the text is encoded on its own in one to three bytes, so a supplementary
character takes six bytes, and the null character takes two bytes so that no zero byte occurs.
-/

namespace Classfile

namespace ModifiedUtf8

/-- The character that stands for a malformed sequence. -/
def replacement : Nat := 0xFFFD

/-- The UTF-16 units of a character. -/
def units (character : Char) : List Nat :=
  let code := character.toNat
  if code < 0x10000 then [code]
  else [0xD800 + (code - 0x10000) / 0x400, 0xDC00 + (code - 0x10000) % 0x400]

/-- The bytes of one unit. -/
def encodeUnit (unit : Nat) : Bytes :=
  if unit = 0 then [0xC0, 0x80]
  else if unit < 0x80 then [UInt8.ofNat unit]
  else if unit < 0x800 then [UInt8.ofNat (0xC0 + unit / 0x40), UInt8.ofNat (0x80 + unit % 0x40)]
  else [UInt8.ofNat (0xE0 + unit / 0x1000), UInt8.ofNat (0x80 + unit / 0x40 % 0x40),
    UInt8.ofNat (0x80 + unit % 0x40)]

def encode (text : String) : Bytes :=
  text.toList.flatMap fun character => (units character).flatMap encodeUnit

/-- The payload of a continuation byte. -/
def continuation? (byte : UInt8) : Option Nat :=
  if 0x80 ≤ byte ∧ byte < 0xC0 then some (byte.toNat % 0x40) else none

/-- The unit at the front of a byte string, and how many bytes it takes after the first.

A malformed sequence is one replacement unit that takes only its first byte. -/
def leadingUnit (first : UInt8) (rest : Bytes) : Nat × Nat :=
  if first < 0x80 then (first.toNat, 0)
  else if 0xC0 ≤ first ∧ first < 0xE0 then
    match rest[0]?.bind continuation? with
    | some low => (first.toNat % 0x20 * 0x40 + low, 1)
    | none => (replacement, 0)
  else if 0xE0 ≤ first ∧ first < 0xF0 then
    match rest[0]?.bind continuation?, rest[1]?.bind continuation? with
    | some middle, some low => (first.toNat % 0x10 * 0x1000 + middle * 0x40 + low, 2)
    | _, _ => (replacement, 0)
  else (replacement, 0)

/-- The units of a byte string, onto the reversed units before it.

The first argument counts the bytes that still belong to the unit before. -/
def decodeUnitsOnto : Nat → List Nat → Bytes → List Nat
  | _, done, [] => done.reverse
  | inside + 1, done, _ :: rest => decodeUnitsOnto inside done rest
  | 0, done, first :: rest =>
    let (unit, inside) := leadingUnit first rest
    decodeUnitsOnto inside (unit :: done) rest

/-- The character at the front of a list of units, and how many units it takes after the first.

A surrogate without its partner is one replacement character. -/
def leadingCharacter (first : Nat) (rest : List Nat) : Char × Nat :=
  if first < 0xD800 ∨ 0xE000 ≤ first then (Char.ofNat first, 0)
  else if first < 0xDC00 then
    match rest[0]? with
    | some low =>
      if 0xDC00 ≤ low ∧ low < 0xE000 then
        (Char.ofNat (0x10000 + (first - 0xD800) * 0x400 + (low - 0xDC00)), 1)
      else (Char.ofNat replacement, 0)
    | none => (Char.ofNat replacement, 0)
  else (Char.ofNat replacement, 0)

/-- The characters of a list of units, onto the reversed characters before it. -/
def decodeCharactersOnto : Nat → List Char → List Nat → List Char
  | _, done, [] => done.reverse
  | inside + 1, done, _ :: rest => decodeCharactersOnto inside done rest
  | 0, done, first :: rest =>
    let (character, inside) := leadingCharacter first rest
    decodeCharactersOnto inside (character :: done) rest

def decode (bytes : Bytes) : String :=
  String.ofList (decodeCharactersOnto 0 [] (decodeUnitsOnto 0 [] bytes))

end ModifiedUtf8

end Classfile
