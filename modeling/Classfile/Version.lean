import Classfile.Bytes

/-!
The version of a class file.
-/

namespace Classfile

structure Version where
  major : UInt16
  minor : UInt16
  deriving DecidableEq

namespace Version

/-- The version of Java SE 6, the first with stack map frames. -/
def java6 : Version := ⟨50, 0⟩

def java8 : Version := ⟨52, 0⟩

/-- Versions are ordered by major version, then by minor version. -/
def compare (left right : Version) : Ordering :=
  (Ord.compare left.major right.major).then (Ord.compare left.minor right.minor)

/-- The verifier insists on stack map frames. -/
def requiresFrames (version : Version) : Bool := java6.major < version.major

/-- The minor version comes first. -/
def read : Reader Version := do
  let minor ← Reader.u16
  let major ← Reader.u16
  return ⟨major, minor⟩

def toBytes (version : Version) : Bytes :=
  Bytes.ofU16 version.minor ++ Bytes.ofU16 version.major

end Version

end Classfile
