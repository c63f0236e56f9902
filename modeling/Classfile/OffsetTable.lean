import Classfile.Error

/-!
Sequences whose elements have widths, addressed by the sum of the widths before them.

The constant pool is such a sequence, since some constants take two indices, and so is freshly
decoded code, where jumps count bytes. Offsets have 64 bits, and `OffsetTable.append` refuses an
element that would end past the last of them. Nothing read from a class file gets that far.
-/

namespace Classfile

/-- Elements that take up a number of offsets. -/
class HasWidth (A : Type) where
  width : A → Nat

/-- Elements with the offsets at which they start, and the offset just past the last one. -/
structure OffsetTable (A : Type) where
  entries : Array (Nat × A)
  extent : Nat

/-- The answer to the question which element starts at an offset. -/
inductive OffsetLookup (A : Type) where
  | found (index : Nat) (element : A)
  | within (index : Nat)
  | beyond

namespace OffsetTable

variable {A : Type}

def startingAt (offset : Nat) : OffsetTable A := ⟨#[], offset⟩

def size (table : OffsetTable A) : Nat := table.entries.size

def elements (table : OffsetTable A) : List A := table.entries.toList.map Prod.snd

/-- The new element starts where the last one ends. -/
def push [HasWidth A] (table : OffsetTable A) (element : A) : OffsetTable A :=
  ⟨table.entries.push (table.extent, element), table.extent + HasWidth.width element⟩

def maxOffset : Nat := 0xFFFFFFFFFFFFFFFF

/-- The new element is refused if it would end past the last offset. -/
def append [HasWidth A] (table : OffsetTable A) (element : A) : Except Error (OffsetTable A) :=
  if table.extent + HasWidth.width element ≤ maxOffset then .ok (table.push element)
  else .error .offsetPastEnd

def collect [HasWidth A] (elements : List A) : Except Error (OffsetTable A) :=
  elements.foldlM append (startingAt 0)

/-- The offset at which the element at an index starts. -/
def offset? (table : OffsetTable A) (index : Nat) : Option Nat :=
  table.entries[index]?.map Prod.fst

/-- The search halves a window of indices and keeps the half that can hold the offset. -/
def narrow (table : OffsetTable A) (offset : Nat) : (steps first count : Nat) → Nat
  | 0, first, _ => first
  | steps + 1, first, count =>
    if count ≤ 1 then first
    else
      let middle := first + count / 2
      match table.offset? middle with
      | some start =>
        table.narrow offset steps (if offset < start then first else middle) (count - count / 2)
      | none => first

/-- The element that starts at an offset, or how many elements start before it. -/
def lookup (table : OffsetTable A) (offset : Nat) : OffsetLookup A :=
  let index := table.narrow offset table.size 0 table.size
  match table.entries[index]? with
  | none => .beyond
  | some (start, element) =>
    if start = offset then .found index element
    else
      let before := if start < offset then index + 1 else index
      if before = table.size then .beyond else .within before

end OffsetTable

end Classfile
