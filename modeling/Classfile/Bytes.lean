import Classfile.Error

/-!
Byte strings, the big-endian form of integers, and readers that consume bytes from the front.
-/

namespace Classfile

abbrev Bytes := List UInt8

namespace Bytes

def ofU8 (value : UInt8) : Bytes := [value]

def ofU16 (value : UInt16) : Bytes :=
  [UInt8.ofNat (value.toNat / 256), UInt8.ofNat value.toNat]

def ofU32 (value : UInt32) : Bytes :=
  ofU16 (UInt16.ofNat (value.toNat / 65536)) ++ ofU16 (UInt16.ofNat value.toNat)

def ofU64 (value : UInt64) : Bytes :=
  ofU32 (UInt32.ofNat (value.toNat / 4294967296)) ++ ofU32 (UInt32.ofNat value.toNat)

def ofI8 (value : Int8) : Bytes := ofU8 value.toUInt8

def ofI16 (value : Int16) : Bytes := ofU16 value.toUInt16

def ofI32 (value : Int32) : Bytes := ofU32 value.toUInt32

/-- A count or position is written in 16 bits, without its higher bits. -/
def ofCount (count : Nat) : Bytes := ofU16 (UInt16.ofNat count)

/-- A length is written in 32 bits, without its higher bits. -/
def ofLength (length : Nat) : Bytes := ofU32 (UInt32.ofNat length)

/-- A table is a 16-bit count and the rows one after the other. -/
def ofTable {A : Type} (row : A → Bytes) (rows : List A) : Bytes :=
  ofCount rows.length ++ rows.flatMap row

/-- The size of items one after the other. -/
def totalSize {A : Type} (size : A → Nat) (items : List A) : Nat :=
  items.foldr (fun item total => size item + total) 0

end Bytes

/-- A reader consumes bytes from the front and returns a value. -/
abbrev Reader (A : Type) := StateT Bytes (Except Error) A

namespace Reader

variable {A : Type}

def fail (error : Error) : Reader A := fun _ => .error error

def ofExcept : Except Error A → Reader A
  | .ok value => pure value
  | .error error => fail error

def u8 : Reader UInt8
  | [] => .error .truncated
  | byte :: rest => .ok (byte, rest)

def u16 : Reader UInt16
  | high :: low :: rest => .ok (UInt16.ofNat (high.toNat * 256 + low.toNat), rest)
  | _ => .error .truncated

def u32 : Reader UInt32 := do
  let high ← u16
  let low ← u16
  return UInt32.ofNat (high.toNat * 65536 + low.toNat)

def u64 : Reader UInt64 := do
  let high ← u32
  let low ← u32
  return UInt64.ofNat (high.toNat * 4294967296 + low.toNat)

def i8 : Reader Int8 := do return (← u8).toInt8

def i16 : Reader Int16 := do return (← u16).toInt16

def i32 : Reader Int32 := do return (← u32).toInt32

/-- A fixed number of raw bytes. -/
def bytes (count : Nat) : Reader Bytes := fun input =>
  let front := input.take count
  if front.length = count then .ok (front, input.drop count) else .error .truncated

/-- Items are read one after the other onto the reversed items read before. -/
def manyOnto (item : Reader A) : Nat → List A → Reader (List A)
  | 0, done, input => .ok (done.reverse, input)
  | count + 1, done, input =>
    match item input with
    | .ok (value, rest) => manyOnto item count (value :: done) rest
    | .error error => .error error

/-- A fixed number of items. -/
def many (item : Reader A) (count : Nat) : Reader (List A) := manyOnto item count []

/-- A table is a 16-bit count and the rows one after the other. -/
def table (row : Reader A) : Reader (List A) := do
  many row (← u16).toNat

/-- The reader runs on a payload of its own, and its value comes with the number of bytes used. -/
def onPayload (payload : Bytes) (reader : Reader A) : Except Error (A × Nat) :=
  match reader payload with
  | .ok (value, rest) => .ok (value, payload.length - rest.length)
  | .error error => .error error

end Reader

end Classfile
