/-!
The order in which a stable sort looks up the keys of its items.

A key may be missing, and the first missing key that is looked up is the one reported. Short lists
are sorted by insertion. Longer ones are divided into runs, which are either in order already or
left for later, and neighbouring runs are merged along a balanced tree. `Sorting.lookUp` follows
such a sort only as far as its lookups go: an item that has been looked up once reports nothing
anymore, so what happens to it afterwards does not matter.
-/

namespace Classfile

namespace Sorting

variable {A E : Type} (key : A → Except E Nat)

/-- A stretch of items, which is in order or still has to be sorted. -/
structure Run (A : Type) where
  items : List A
  sorted : Bool

/-- Insertion compares the second item with the first, and then each item with those before it. -/
def insertionOrder (start count : Nat) : List Nat :=
  if count < 2 then [] else (start + 1) :: start :: List.range' (start + 2) (count - 2)

/-- A short stretch is sorted in two halves, from groups of four where there are enough items. -/
def shortOrder (count : Nat) : List Nat :=
  let half := count / 2
  if count < 8 then insertionOrder 0 half ++ insertionOrder half (count - half) ++ [half, 0]
  else [1, 0, 3, 2, half + 1, half, half + 3, half + 2] ++ List.range count

/-- The items a pivot is chosen from: three of a stretch, each taken from three of its own stretch
while stretches are long. -/
def sampleOrder (eighth start : Nat) : List Nat :=
  if 8 ≤ eighth then
    sampleOrder (eighth / 8) start ++ sampleOrder (eighth / 8) (start + 4 * eighth)
      ++ sampleOrder (eighth / 8) (start + 7 * eighth)
  else [start, start + 4 * eighth, start + 7 * eighth]
termination_by eighth

/-- A long stretch is divided around a pivot, with which every item is compared. -/
def stretchOrder (count : Nat) : List Nat :=
  if count ≤ 32 then shortOrder count else sampleOrder (count / 8) 0 ++ List.range count

/-- Items are looked up in an order of indices. -/
def visit (items : List A) (order : List Nat) : Except E Unit :=
  let table := items.toArray
  (order.filterMap (table[·]?)).forM fun item => discard (key item)

/-- The length a run must have to be worth keeping as it is. -/
def goodLength (total : Nat) : Nat :=
  if total ≤ 4096 then min (total - total / 2) 64
  else
    let shift := (1 + total.log2) / 2
    ((1 <<< shift) + (total >>> shift)) / 2

/-- A run goes on while items keep falling, or keep from falling. -/
def extendRun (falling : Bool) (previous length : Nat) : List A → Except E Nat
  | [] => return length
  | item :: rest => do
    let next ← key item
    if (next < previous : Bool) = falling then extendRun falling next (length + 1) rest
    else return length

/-- The length of the longest run at the front. -/
def runLength : List A → Except E Nat
  | first :: second :: rest => do
    let next ← key second
    let previous ← key first
    extendRun key (next < previous) next 2 rest
  | items => return items.length

/-- The run at the front of what is left of a number of items. -/
def nextRun (total : Nat) (rest : List A) : Except E (Run A) := do
  let good := goodLength total
  let length ← if good ≤ rest.length then runLength key rest else pure 0
  if good ≤ length then return ⟨rest.take length, true⟩
  else if total ≤ 64 then
    let front := rest.take 32
    visit key front (shortOrder front.length)
    return ⟨front, true⟩
  else return ⟨rest.take good, false⟩

def settleRun (run : Run A) : Except E Unit :=
  if run.sorted then return else visit key run.items (stretchOrder run.items.length)

/-- Two runs become one, which is sorted unless both were left for later. -/
def mergeRuns (left right : Run A) : Except E (Run A) := do
  let sorted := left.sorted || right.sorted
  if sorted then
    settleRun key left
    settleRun key right
  return ⟨left.items ++ right.items, sorted⟩

/-- The depth of the merge of two neighbouring runs in a balanced tree over all items: the number
of leading binary digits that the midpoints of the two runs share, as fractions of the whole. -/
def mergeDepth (total start middle stop : Nat) : Nat :=
  let scale := (0x4000000000000000 + total - 1) / total
  63 - Nat.log2 ((scale * (start + middle)) ^^^ (scale * (middle + stop)))

/-- The last run is merged with those before it that are at least as deep in the tree. -/
def mergeDeep (depth : Nat) (last : Run A) :
    List (Nat × Run A) → Except E (Run A × List (Nat × Run A))
  | [] => return (last, [])
  | (other, left) :: before =>
    if depth ≤ other then do mergeDeep depth (← mergeRuns key left last) before
    else return (last, (other, left) :: before)

/-- Runs are found and merged from the front, where `stop` is the end of the last run. -/
def lookUpRuns (total : Nat) :
    (steps : Nat) → List (Nat × Run A) → (stop : Nat) → Run A → List A → Except E Unit
  | steps + 1, before, stop, last, item :: rest => do
    let next ← nextRun key total (item :: rest)
    let length := next.items.length
    let depth := mergeDepth total (stop - last.items.length) stop (stop + length)
    let (merged, before) ← mergeDeep key depth last before
    lookUpRuns total steps ((depth, merged) :: before) (stop + length) next
      ((item :: rest).drop length)
  | _, before, _, last, _ => do
    let (whole, _) ← mergeDeep key 0 last before
    settleRun key whole

/-- Fails with the missing key that sorting comes upon first. -/
def lookUp (items : List A) : Except E Unit := do
  let total := items.length
  if total ≤ 20 then visit key items (insertionOrder 0 total)
  else
    let first ← nextRun key total items
    let length := first.items.length
    lookUpRuns key total total [] length first (items.drop length)

end Sorting

end Classfile
