import Classfile.Instruction.Codec
import Mathlib.Tactic

/-!
Lookup in offset tables.

Tables are built by pushing elements of positive width, so that starts increase strictly. On such a
table the halving search finds the element that starts at an offset whenever there is one.
-/

namespace Classfile

namespace OffsetTable

variable {A : Type}

/-- Starts increase strictly, and every element starts before the end of the table. -/
structure Increasing (table : OffsetTable A) : Prop where
  starts : ∀ first second below above, table.offset? first = some below →
    table.offset? second = some above → first < second → below < above
  within : ∀ index start, table.offset? index = some start → start < table.extent

/-- Only elements of the table have an offset. -/
theorem offset?_eq_some_lt {table : OffsetTable A} {index start : Nat}
    (present : table.offset? index = some start) : index < table.size := by
  simp only [offset?, Option.map_eq_some_iff] at present
  obtain ⟨entry, found, _⟩ := present
  exact (Array.getElem?_eq_some_iff.mp found).1

/-- Every element of the table has an offset. -/
theorem exists_offset? {table : OffsetTable A} {index : Nat} (inside : index < table.size) :
    ∃ start, table.offset? index = some start :=
  ⟨table.entries[index].1, by simp [offset?, Array.getElem?_eq_getElem inside]⟩

theorem Increasing.startingAt (offset : Nat) : (startingAt offset : OffsetTable A).Increasing where
  starts := by simp [OffsetTable.startingAt, offset?]
  within := by simp [OffsetTable.startingAt, offset?]

/-- An element that is pushed starts at the extent. -/
theorem offset?_push [HasWidth A] (table : OffsetTable A) (element : A) (index : Nat) :
    (table.push element).offset? index =
      if index = table.size then some table.extent else table.offset? index := by
  simp only [offset?, push, size, Array.getElem?_push]
  split <;> simp_all

/-- Offsets still increase after an element of some width is pushed. -/
theorem Increasing.push [HasWidth A] {table : OffsetTable A} (increasing : table.Increasing)
    (element : A) (positive : 0 < HasWidth.width element) : (table.push element).Increasing where
  starts := by
    intro first second below above foundBelow foundAbove before
    rw [offset?_push] at foundBelow foundAbove
    split at foundAbove
    · split at foundBelow
      · omega
      · have := increasing.within first below foundBelow
        simp only [Option.some.injEq] at foundAbove
        omega
    · have := offset?_eq_some_lt foundAbove
      split at foundBelow
      · omega
      · exact increasing.starts first second below above foundBelow foundAbove before
  within := by
    intro index start found
    rw [offset?_push] at found
    simp only [OffsetTable.push]
    split at found
    · simp only [Option.some.injEq] at found
      omega
    · have := increasing.within index start found
      omega

/-- An index is the place of an offset: starts up to it do not exceed the offset, and starts after
it do. The first index also stands for offsets before all starts. -/
structure Placed (table : OffsetTable A) (offset index : Nat) : Prop where
  inside : 0 < table.size → index < table.size
  before : ∀ start, 0 < index → table.offset? index = some start → start ≤ offset
  after : ∀ later start, index < later → table.offset? later = some start → offset < start

/-- Narrowing keeps the place of an offset inside of the window. -/
theorem narrow_placed {table : OffsetTable A} (increasing : table.Increasing) (offset : Nat)
    (steps first count : Nat) (enough : count ≤ steps + 1) (window : first + count ≤ table.size)
    (inside : 0 < table.size → first < table.size)
    (before : ∀ start, 0 < first → table.offset? first = some start → start ≤ offset)
    (after : ∀ later start, first + count ≤ later → table.offset? later = some start →
      offset < start) :
    table.Placed offset (table.narrow offset steps first count) := by
  induction steps generalizing first count with
  | zero =>
    rw [narrow]
    exact ⟨inside, before, fun later start beyond => after later start (by omega)⟩
  | succ steps inductionHypothesis =>
    rw [narrow]
    split
    · exact ⟨inside, before, fun later start beyond => after later start (by omega)⟩
    · have middle : first + count / 2 < table.size := by omega
      obtain ⟨start, found⟩ := exists_offset? middle
      simp only [found]
      split
      · rename_i smaller
        apply inductionHypothesis first _ (by omega) (by omega) inside before
        intro later other beyond foundOther
        rcases Nat.lt_or_ge (first + count / 2) later with past | here
        · have := increasing.starts _ _ _ _ found foundOther past
          omega
        · have same : later = first + count / 2 := by omega
          rw [same, found, Option.some.injEq] at foundOther
          omega
      · rename_i larger
        apply inductionHypothesis (first + count / 2) _ (by omega) (by omega) (by omega)
        · intro other _ foundOther
          rw [found, Option.some.injEq] at foundOther
          omega
        · intro later other beyond
          exact after later other (by omega)

/-- The search ends where the offset belongs. -/
theorem search_placed {table : OffsetTable A} (increasing : table.Increasing) (offset : Nat) :
    table.Placed offset (table.narrow offset table.size 0 table.size) := by
  apply narrow_placed increasing offset table.size 0 table.size (by omega) (by omega) (by omega)
  · intro start positive
    omega
  · intro later start beyond found
    have := offset?_eq_some_lt found
    omega

/-- Only the index of the element that starts at an offset can be the place of the offset. -/
theorem Placed.eq_of_offset? {table : OffsetTable A} (increasing : table.Increasing)
    {offset index found : Nat} (placed : table.Placed offset found)
    (starts : table.offset? index = some offset) : found = index := by
  have present := offset?_eq_some_lt starts
  rcases Nat.lt_trichotomy found index with less | same | more
  · have := placed.after index offset less starts
    omega
  · exact same
  · obtain ⟨start, foundStart⟩ := exists_offset? (placed.inside (by omega))
    have high := increasing.starts index found offset start starts foundStart more
    have low := placed.before start (by omega) foundStart
    omega

/-- Lookup finds exactly the element that starts at an offset. -/
theorem lookup_eq_found_iff {table : OffsetTable A} (increasing : table.Increasing)
    (offset index : Nat) (element : A) :
    table.lookup offset = .found index element ↔ table.entries[index]? = some (offset, element) := by
  have placed := search_placed increasing offset
  simp only [lookup]
  constructor
  · intro found
    split at found
    · simp at found
    · rename_i start other present
      split at found
      · rename_i same
        simp only [OffsetLookup.found.injEq] at found
        rw [← found.1, present, same, found.2]
      · split at found
        · split at found <;> cases found
        · split at found <;> cases found
  · intro present
    have starts : table.offset? index = some offset := by simp [offset?, present]
    rw [placed.eq_of_offset? increasing starts]
    simp [present]

end OffsetTable

namespace DecodedCode

/-- Exactly the handles of instructions that start at a position are found there. -/
theorem handleAt_eq_ok_iff {code : DecodedCode} (increasing : code.Increasing) (bci : Nat)
    (handle : Handle) :
    code.handleAt bci = .ok handle ↔ code.offset? handle.index = some bci := by
  have nonnegative : ¬(bci : Int) < 0 := by omega
  simp only [handleAt, nonnegative, if_false, Int.toNat_natCast]
  constructor
  · intro found
    split at found
    · rename_i index element located
      rw [OffsetTable.lookup_eq_found_iff increasing] at located
      cases found
      simp [OffsetTable.offset?, located]
    · simp at found
  · intro starts
    simp only [OffsetTable.offset?, Option.map_eq_some_iff] at starts
    obtain ⟨⟨start, element⟩, present, rfl⟩ := starts
    rw [(OffsetTable.lookup_eq_found_iff increasing _ _ element).mpr present]

/-- An exclusive end is the end of the code or an instruction that starts there. -/
theorem stopAt_eq_ok_iff {code : DecodedCode} (increasing : code.Increasing) (bci : Nat)
    (stop : Option Handle) :
    code.stopAt bci = .ok stop ↔
      match stop with
      | none => bci = code.extent
      | some handle => code.offset? handle.index = some bci := by
  simp only [stopAt, Int.natCast_inj]
  cases stop with
  | none =>
    constructor
    · intro found
      split at found
      · assumption
      · split at found <;> simp at found
    · rintro rfl
      simp
  | some handle =>
    simp only [← handleAt_eq_ok_iff increasing]
    constructor
    · intro found
      split at found
      · simp at found
      · split at found
        · rename_i located
          simp only [Except.ok.injEq, Option.some.injEq] at found
          rw [located, found]
        · simp at found
    · intro found
      have starts := (handleAt_eq_ok_iff increasing bci handle).mp found
      have := increasing.within handle.index bci starts
      rw [if_neg (by omega), found]

end DecodedCode

end Classfile
