import Classfile.Bytes

/-!
Access flags of classes, methods and fields.

The flags of one kind of declaration are the 16-bit words within a mask. Bits outside of the mask
are refused, since dropping them would change the class when it is written.
-/

namespace Classfile

/-- Flags whose bits lie within a mask. -/
structure AccessFlags (mask : UInt16) where
  bits : UInt16
  known : bits &&& mask = bits
  deriving DecidableEq

abbrev ClassFlags := AccessFlags 0xF631

abbrev MethodFlags := AccessFlags 0x1DFF

abbrev FieldFlags := AccessFlags 0x50DF

namespace AccessFlags

variable {mask : UInt16}

def ofBits (bits : UInt16) : Except Error (AccessFlags mask) :=
  if known : bits &&& mask = bits then .ok ⟨bits, known⟩ else .error (.unknownAccessFlags bits)

def read : Reader (AccessFlags mask) := do
  Reader.ofExcept (ofBits (← Reader.u16))

def toBytes (flags : AccessFlags mask) : Bytes := Bytes.ofU16 flags.bits

end AccessFlags

/-- The flag of methods without a receiver. -/
def MethodFlags.isStatic (flags : MethodFlags) : Bool := flags.bits &&& 0x0008 ≠ 0

end Classfile
