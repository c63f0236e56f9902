/-!
Handles name the instructions of a method body.
-/

namespace Classfile

/-- A handle names one instruction of a body for the whole life of the body. -/
structure Handle where
  index : Nat
  deriving DecidableEq, Inhabited

/-- The text by which messages refer to a handle. -/
def Handle.label (handle : Handle) : String :=
  s!"InsnId({handle.index})"

end Classfile
