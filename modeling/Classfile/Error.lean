import Classfile.Descriptor
import Classfile.Handle

/-!
Everything that can go wrong, as causes.

The causes fall into three groups: input or edits that are refused, values that have no encoded
form, and misuse of a body by its caller. `Error.message` holds the wording of all of them.
-/

namespace Classfile

/-- What an index of the constant pool was expected to hold. -/
inductive ConstantRole where
  | utf8
  | className
  | string
  | nameAndType
  | member
  | memberOrCallSite
  deriving DecidableEq

def ConstantRole.label : ConstantRole → String
  | .utf8 => "Utf8"
  | .className => "Class"
  | .string => "String"
  | .nameAndType => "NameAndType"
  | .member => "Fieldref or Methodref"
  | .memberOrCallSite => "member reference or call site"

/-- The reasons an operation of this library fails. -/
inductive Error where
  | truncated
  | badMagic (magic : UInt32)
  | poolFull (next : UInt16)
  | utf8TooLong (length : Nat)
  | unknownConstantTag (tag : UInt8) (index : UInt16)
  | unknownHandleKind (kind : UInt8)
  | constantOutOfRange (index : UInt16)
  | unexpectedConstant (index : UInt16) (expected : ConstantRole)
  | unknownAccessFlags (bits : UInt16)
  | unknownAttribute (name : String)
  | attributeLength (name : String) (declared actual : UInt32)
  | badDescriptor (cause : DescriptorError)
  | unknownOpcode (byte : UInt8) (bci : Nat)
  | unknownWideOpcode (byte : UInt8) (bci : Nat)
  | malformedSwitch (bci : Nat)
  | noInstructionAt (bci : Int)
  | unknownVerificationType (tag : UInt8)
  | unknownFrameType (tag : UInt8)
  | conflictingFrames (handle : Handle)
  | danglingReference (handle : Handle)
  | unrelaxableBranch (handle : Handle)
  | codeTooLong (length : Nat)
  | notAnInvoke (handle : Handle)
  | endlessRelaxation
  | branchTooFar (mnemonic : String) (offset : Int32)
  | switchWithoutHigh (low : Int32) (count : Nat)
  | frameDeltaTooLarge (frame : String) (delta : UInt16)
  | staleHandle (handle : Handle)
  | removedTarget (handle : Handle)
  | chopSize
  | appendSize
  | positionPastEnd
  | offsetPastEnd
  deriving DecidableEq

/-- The three groups of causes. -/
inductive ErrorGroup where
  | refused
  | unwritable
  | misuse
  deriving DecidableEq

def Error.group : Error → ErrorGroup
  | .branchTooFar .. | .switchWithoutHigh .. | .frameDeltaTooLarge .. => .unwritable
  | .staleHandle .. | .removedTarget .. | .chopSize | .appendSize | .positionPastEnd
  | .offsetPastEnd => .misuse
  | _ => .refused

/-- Upper-case hexadecimal digits, padded with zeros to a width. -/
def hexadecimal (width number : Nat) : String :=
  let digits := (Nat.toDigits 16 number).map Char.toUpper
  String.ofList (List.replicate (width - digits.length) '0' ++ digits)

def Error.message : Error → String
  | .truncated => "I/O error: failed to fill whole buffer"
  | .badMagic magic => s!"bad class file magic 0x{hexadecimal 8 magic.toNat}"
  | .poolFull next => s!"constant pool is full (next index would be {next})"
  | .utf8TooLong length => s!"utf8 constant of {length} bytes does not fit in a class file"
  | .unknownConstantTag tag index => s!"unknown constant tag {tag} at index {index}"
  | .unknownHandleKind kind => s!"unknown method handle kind {kind}"
  | .constantOutOfRange index => s!"constant index {index} is out of range"
  | .unexpectedConstant index expected => s!"constant {index} is not a {expected.label}"
  | .unknownAccessFlags bits => s!"unknown access flags 0x{hexadecimal 4 bits.toNat}"
  | .unknownAttribute name => s!"unknown attribute '{name}'"
  | .attributeLength name declared actual =>
    s!"attribute '{name}' declares {declared} bytes but contains {actual}"
  | .badDescriptor cause => s!"bad descriptor: {cause.message}"
  | .unknownOpcode byte bci => s!"unknown opcode 0x{hexadecimal 2 byte.toNat} at bci {bci}"
  | .unknownWideOpcode byte bci =>
    s!"opcode 0x{hexadecimal 2 byte.toNat} cannot follow `wide` at bci {bci}"
  | .malformedSwitch bci => s!"malformed tableswitch at bci {bci}"
  | .noInstructionAt bci => s!"no instruction starts at bci {bci}"
  | .unknownVerificationType tag => s!"unknown verification type tag {tag}"
  | .unknownFrameType tag => s!"unknown stack map frame type {tag}"
  | .conflictingFrames handle => s!"two stack map frames would describe {handle.label}"
  | .danglingReference handle => s!"{handle.label} is still referenced and has no successor"
  | .unrelaxableBranch handle =>
    s!"no room for a trampoline for the branch at {handle.label}"
  | .codeTooLong length => s!"method code is {length} bytes long (limit is 65535)"
  | .notAnInvoke handle => s!"{handle.label} is not a method invocation"
  | .endlessRelaxation => "branches cannot be brought into range"
  | .branchTooFar mnemonic offset => s!"{mnemonic} offset {offset} does not fit in 16 bits"
  | .switchWithoutHigh low count =>
    s!"tableswitch from {low} with {count} targets has no valid high bound"
  | .frameDeltaTooLarge frame delta => s!"{frame} cannot encode offset delta {delta}"
  | .staleHandle handle => s!"stale instruction handle {handle.label}"
  | .removedTarget handle => s!"reference to removed instruction {handle.label}"
  | .chopSize => "chop_frame chops 1-3 locals"
  | .appendSize => "append_frame adds 1-3 locals"
  | .positionPastEnd => "position is past the end of the code"
  | .offsetPastEnd => "offset does not fit in 64 bits"

end Classfile
