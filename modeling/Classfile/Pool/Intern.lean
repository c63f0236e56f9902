import Classfile.Pool

/-!
Interning: the index of a constant, which is added to the pool only if it is not there yet.

A composite constant interns its parts first, and parts that were added stay in the pool when a
later one does not fit.
-/

namespace Classfile

/-- An operation on a pool that may fail and keeps what it had added by then. -/
abbrev Interning := EStateM Error Pool

namespace Pool

/-- The first index of a constant, which is appended if there is none. -/
def intern (constant : Constant) : Interning ConstantIndex := fun pool =>
  match pool.firstIndex[constant]? with
  | some index => .ok index pool
  | none =>
    match pool.refusal? constant with
    | some error => .error error pool
    | none => .ok pool.nextIndex (pool.append constant)

def internText (text : String) : Interning ConstantIndex :=
  intern (.utf8 (ModifiedUtf8.encode text))

def internClass (name : String) : Interning ConstantIndex := do
  intern (.classInfo (← internText name))

def internString (contents : String) : Interning ConstantIndex := do
  intern (.string (← internText contents))

def internNameAndType (name descriptor : String) : Interning ConstantIndex := do
  let name ← internText name
  let descriptor ← internText descriptor
  intern (.nameAndType name descriptor)

def internField (owner name descriptor : String) : Interning ConstantIndex := do
  let owner ← internClass owner
  let signature ← internNameAndType name descriptor
  intern (.fieldRef owner signature)

/-- A method that is not declared by an interface. -/
def internMethod (owner name descriptor : String) : Interning ConstantIndex := do
  let owner ← internClass owner
  let signature ← internNameAndType name descriptor
  intern (.methodRef owner signature false)

end Pool

end Classfile
