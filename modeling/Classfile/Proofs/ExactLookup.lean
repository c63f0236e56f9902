import Classfile.Proofs.Decoding
import Classfile.Proofs.PoolHistory

/-!
Lookup by offset is exact.

A table of elements of positive width starts each of them after the widths of those before it. The
halving search tells apart the offsets at which elements start, the offsets between them, and those
past the last start. The pool is such a table, so an index holds a constant exactly if it is the first
of the indices that the constant takes up.
-/

namespace Classfile

namespace OffsetTable

variable {A : Type}

/-- The offsets at which elements start. -/
def starts (table : OffsetTable A) : List Nat := table.entries.toList.map Prod.fst

@[simp] theorem getElem?_starts (table : OffsetTable A) (index : Nat) :
    table.starts[index]? = table.offset? index := by
  rw [starts, List.getElem?_map, Array.getElem?_toList, offset?]

@[simp] theorem length_starts (table : OffsetTable A) : table.starts.length = table.size := by
  rw [starts, List.length_map, Array.length_toList, size]

/-- The number of elements that start before an offset. -/
def startsBefore (table : OffsetTable A) (offset : Nat) : Nat := table.starts.countP (· < offset)

/-- What an answer says about an offset. -/
def Answers (table : OffsetTable A) (offset : Nat) : OffsetLookup A → Prop
  | .found index element => table.entries[index]? = some (offset, element)
  | .within count =>
    (∀ index, table.offset? index ≠ some offset) ∧
      (∃ index start, table.offset? index = some start ∧ offset < start) ∧
        count = table.startsBefore offset
  | .beyond => ∀ index start, table.offset? index = some start → start < offset

/-- All elements are counted if each of them starts before the offset. -/
theorem startsBefore_eq_size_iff {table : OffsetTable A} {offset : Nat} :
    table.startsBefore offset = table.size ↔
      ∀ index start, table.offset? index = some start → start < offset := by
  rw [startsBefore, ← length_starts, List.countP_eq_length]
  simp only [List.mem_iff_getElem?, getElem?_starts, decide_eq_true_eq]
  exact ⟨fun all index start found => all start ⟨index, found⟩, fun all start ⟨index, found⟩ =>
    all index start found⟩

/-- An index that separates the starts before an offset from the others counts them. -/
theorem startsBefore_eq {table : OffsetTable A} {offset count : Nat} (inside : count ≤ table.size)
    (before : ∀ index start, index < count → table.offset? index = some start → start < offset)
    (after : ∀ index start, count ≤ index → table.offset? index = some start → offset ≤ start) :
    table.startsBefore offset = count := by
  have front : (table.starts.take count).countP (· < offset) = (table.starts.take count).length := by
    rw [List.countP_eq_length]
    intro start present
    obtain ⟨index, located⟩ := List.getElem?_of_mem present
    rw [List.getElem?_take] at located
    split at located
    · next early => exact decide_eq_true (before index start early (by rwa [← getElem?_starts]))
    · cases located
  have back : (table.starts.drop count).countP (· < offset) = 0 := by
    rw [List.countP_eq_zero]
    intro start present
    obtain ⟨index, located⟩ := List.getElem?_of_mem present
    rw [List.getElem?_drop, getElem?_starts] at located
    simpa using after (count + index) start (Nat.le_add_right ..) located
  rw [startsBefore, ← List.take_append_drop count table.starts, List.countP_append, front, back,
    List.length_take, length_starts, Nat.min_eq_left inside, Nat.add_zero]

/-- The place of an offset at which no element starts gives the number of starts before it. -/
theorem Placed.startsBefore_eq {table : OffsetTable A} (increasing : table.Increasing)
    {offset index start : Nat} (placed : table.Placed offset index)
    (starts : table.offset? index = some start) (different : start ≠ offset) :
    table.startsBefore offset = if start < offset then index + 1 else index := by
  have inside := offset?_eq_some_lt starts
  split
  · next smaller =>
    apply OffsetTable.startsBefore_eq inside
    · intro other found early located
      rcases Nat.lt_or_eq_of_le (Nat.le_of_lt_succ early) with earlier | rfl
      · have := increasing.starts other index found start located starts earlier
        omega
      · rw [starts, Option.some.injEq] at located
        omega
    · intro other found late located
      exact Nat.le_of_lt (placed.after other found late located)
  · next larger =>
    -- Only the first index also stands for offsets before its start.
    obtain rfl : index = 0 := by
      by_contra nonzero
      have := placed.before start (by omega) starts
      omega
    apply OffsetTable.startsBefore_eq (Nat.zero_le _)
    · intro other found early
      omega
    · intro other found _ located
      rcases Nat.eq_zero_or_pos other with rfl | late
      · rw [starts, Option.some.injEq] at located
        omega
      · exact Nat.le_of_lt (placed.after other found late located)

/-- The answer of a lookup is right. -/
theorem answers_lookup {table : OffsetTable A} (increasing : table.Increasing) (offset : Nat) :
    table.Answers offset (table.lookup offset) := by
  have placed := search_placed increasing offset
  simp only [lookup]
  generalize table.narrow offset table.size 0 table.size = index at placed
  split
  · next absent =>
    -- The search ends inside of a table that has elements, so this one has none.
    intro other start located
    have present := offset?_eq_some_lt located
    have inside := placed.inside (by omega)
    rw [Array.getElem?_eq_getElem inside] at absent
    cases absent
  · next start element located =>
    have starts : table.offset? index = some start := by
      rw [offset?, located]
      rfl
    split
    · next same => rwa [same] at located
    · next different =>
      have missing (other : Nat) : table.offset? other ≠ some offset := by
        intro found
        rw [placed.eq_of_offset? increasing found, found, Option.some.injEq] at starts
        exact different starts.symm
      rw [← placed.startsBefore_eq increasing starts different]
      split
      · next all => exact startsBefore_eq_size_iff.mp all
      · next some =>
        rw [startsBefore_eq_size_iff] at some
        push Not at some
        obtain ⟨other, found, located, above⟩ := some
        refine ⟨missing, ⟨other, found, located, Nat.lt_of_le_of_ne above ?_⟩, rfl⟩
        rintro rfl
        exact missing other located

/-- An element that is found starts at the offset. -/
theorem Answers.offset? {table : OffsetTable A} {offset index : Nat} {element : A}
    (right : table.Answers offset (.found index element)) : table.offset? index = some offset := by
  rw [OffsetTable.offset?, right]
  rfl

/-- A lookup gives the answer that is right. -/
theorem lookup_eq_iff {table : OffsetTable A} (increasing : table.Increasing) (offset : Nat)
    (answer : OffsetLookup A) : table.lookup offset = answer ↔ table.Answers offset answer := by
  have right := answers_lookup increasing offset
  refine ⟨fun same => same ▸ right, fun claimed => ?_⟩
  cases answer with
  | found index element => exact (lookup_eq_found_iff increasing offset index element).mpr claimed
  | within count =>
    obtain ⟨missing, ⟨index, start, starts, above⟩, counted⟩ := claimed
    cases answered : table.lookup offset with
    | found other element =>
      rw [answered] at right
      exact absurd right.offset? (missing other)
    | within other =>
      rw [answered] at right
      rw [right.2.2, counted]
    | beyond =>
      rw [answered] at right
      exact absurd (right index start starts) (Nat.lt_asymm above)
  | beyond =>
    cases answered : table.lookup offset with
    | found index element =>
      rw [answered] at right
      exact absurd (claimed index offset right.offset?) (Nat.lt_irrefl offset)
    | within count =>
      rw [answered] at right
      obtain ⟨-, ⟨index, start, starts, above⟩, -⟩ := right
      exact absurd (claimed index start starts) (Nat.lt_asymm above)
    | beyond => rfl

section Widths

variable [HasWidth A]

/-- Each element starts after the widths of the elements before it, and lookup by offset is exact. -/
structure Exact (table : OffsetTable A) (start : Nat) (elements : List A) : Prop where
  entries : ∀ index : Nat, table.entries[index]? = elements[index]?.map fun element =>
    (start + Bytes.totalSize HasWidth.width (elements.take index), element)
  extent : table.extent = start + Bytes.totalSize HasWidth.width elements
  lookup : ∀ offset answer, table.lookup offset = answer ↔ table.Answers offset answer

/-- A table that elements were pushed onto has them at their offsets. -/
theorem exact_pushAll (start : Nat) {elements : List A}
    (positive : ∀ element ∈ elements, 0 < HasWidth.width element) :
    ((startingAt start).pushAll elements).Exact start elements where
  entries index := by
    rw [← Array.getElem?_toList, entries_pushAll]
    exact getElem?_placed_eq start elements index
  extent := extent_pushAll _ elements
  lookup := lookup_eq_iff ((Increasing.startingAt start).pushAll positive)

/-- An element is appended if it ends within the largest offset. -/
theorem append_eq_ok_iff {table result : OffsetTable A} {element : A} :
    table.append element = .ok result ↔
      table.extent + HasWidth.width element ≤ maxOffset ∧ result = table.push element := by
  rw [append]
  split
  · next fits => simp [fits, eq_comm]
  · next crowded => simp [crowded]

/-- Appending pushes, where it is not refused. -/
theorem eq_pushAll_of_foldlM_append {table result : OffsetTable A} {elements : List A}
    (appended : elements.foldlM append table = .ok result) : result = table.pushAll elements := by
  induction elements generalizing table with
  | nil =>
    cases appended
    rfl
  | cons element elements inductionHypothesis =>
    rw [List.foldlM_cons, exceptBind_eq_ok_iff] at appended
    obtain ⟨middle, first, others⟩ := appended
    obtain ⟨-, rfl⟩ := append_eq_ok_iff.mp first
    exact inductionHypothesis others

/-- No element is refused that ends within the range of offsets. -/
theorem foldlM_append_of_fits {table : OffsetTable A} {elements : List A}
    (fits : table.extent + Bytes.totalSize HasWidth.width elements ≤ maxOffset) :
    elements.foldlM append table = .ok (table.pushAll elements) := by
  induction elements generalizing table with
  | nil => rfl
  | cons element elements inductionHypothesis =>
    change table.extent + (HasWidth.width element + Bytes.totalSize HasWidth.width elements) ≤ _ at fits
    rw [List.foldlM_cons, exceptBind_eq_ok_iff]
    refine ⟨table.push element, append_eq_ok_iff.mpr ⟨by omega, rfl⟩, inductionHypothesis ?_⟩
    rwa [push, Nat.add_assoc]

end Widths

end OffsetTable

/-- What comes before an item and the item itself are part of the whole. -/
theorem totalSize_take_add_le {A : Type} (size : A → Nat) {items : List A} {entry : Nat} {item : A}
    (located : items[entry]? = some item) :
    Bytes.totalSize size (items.take entry) + size item ≤ Bytes.totalSize size items := by
  obtain ⟨inside, rfl⟩ := List.getElem?_eq_some_iff.mp located
  have rest : items.drop entry = items[entry] :: items.drop (entry + 1) := List.drop_eq_getElem_cons inside
  have whole := totalSize_append size (items.take entry) (items.drop entry)
  rw [List.take_append_drop, rest] at whole
  have split : Bytes.totalSize size (items[entry] :: items.drop (entry + 1)) =
      size items[entry] + Bytes.totalSize size (items.drop (entry + 1)) := rfl
  omega

namespace Pool

variable {pool : Pool}

/-- The first of the indices that the constant at an entry takes up. -/
def startIndex (pool : Pool) (entry : Nat) : Nat :=
  1 + Bytes.totalSize Constant.width (pool.constants.take entry)

/-- An index holds a constant exactly if it is the first one of the constant. -/
structure Addressed (pool : Pool) : Prop where
  found : ∀ index constant, pool.get index = .ok constant ↔
    ∃ entry : Nat, pool.constants[entry]? = some constant ∧ index.toNat = pool.startIndex entry
  refused : ∀ index, pool.get index = .error (.constantOutOfRange index) ↔
    ∀ entry, entry < pool.constants.length → index.toNat ≠ pool.startIndex entry
  zero : pool.get 0 = .error (.constantOutOfRange 0)
  second : ∀ index, (∃ value, pool.get index = .ok (.long value)) ∨
    (∃ bits, pool.get index = .ok (.double bits)) →
      pool.get (index + 1) = .error (.constantOutOfRange (index + 1))
  past : ∀ index, pool.startIndex pool.constants.length ≤ index.toNat →
    pool.get index = .error (.constantOutOfRange index)

/-- The constants are those that were pushed onto the empty pool. -/
theorem Built.table_eq (built : pool.Built) :
    pool.table = (OffsetTable.startingAt 1).pushAll pool.constants := by
  induction built with
  | empty => rfl
  | @push pool later constant built pushed inductionHypothesis =>
    obtain ⟨-, rfl⟩ := push_eq_ok_iff.mp pushed
    rw [constants_append, OffsetTable.pushAll, List.foldl_append]
    exact congrArg (OffsetTable.push · constant) inductionHypothesis

/-- The table of a built pool has the constants at their indices. -/
theorem Built.exact (built : pool.Built) : pool.table.Exact 1 pool.constants := by
  have exact := OffsetTable.exact_pushAll 1 fun constant (_ : constant ∈ pool.constants) =>
    constant.width_pos
  rwa [← built.table_eq] at exact

/-- The index after the last constant is the extent of the pool. -/
theorem Built.startIndex_length (built : pool.Built) :
    pool.startIndex pool.constants.length = pool.table.extent := by
  rw [startIndex, List.take_length, built.exact.extent]
  rfl

/-- A constant is found at the index where it starts. -/
theorem Built.get_eq_ok_iff_start (built : pool.Built) {index : ConstantIndex} {constant : Constant} :
    pool.get index = .ok constant ↔
      ∃ entry : Nat, pool.constants[entry]? = some constant ∧ index.toNat = pool.startIndex entry := by
  rw [get_eq_ok_iff built]
  refine exists_congr fun entry => ?_
  rw [built.exact.entries, Option.map_eq_some_iff]
  constructor
  · rintro ⟨other, located, same⟩
    obtain ⟨start, rfl⟩ := Prod.mk.inj same
    exact ⟨located, start.symm⟩
  · rintro ⟨located, start⟩
    exact ⟨constant, located, congrArg (·, constant) start.symm⟩

/-- An index is out of range if no constant is found there. -/
theorem get_eq_error_iff {index : ConstantIndex} :
    pool.get index = .error (.constantOutOfRange index) ↔ ∀ constant, pool.get index ≠ .ok constant := by
  rw [get]
  split <;> simp

/-- Starts increase by the widths of constants. -/
theorem startIndex_add_le {entry later : Nat} {constant : Constant}
    (located : pool.constants[entry]? = some constant) (before : entry < later) :
    pool.startIndex entry + constant.width ≤ pool.startIndex later := by
  have kept : (pool.constants.take later)[entry]? = some constant := by
    rw [List.getElem?_take_of_lt before, located]
  have bound := totalSize_take_add_le Constant.width kept
  rw [List.take_take, Nat.min_eq_left (Nat.le_of_lt before)] at bound
  simp only [startIndex]
  omega

/-- An index is out of range if no constant starts there. -/
theorem Built.get_eq_error_iff_start (built : pool.Built) {index : ConstantIndex} :
    pool.get index = .error (.constantOutOfRange index) ↔
      ∀ entry, entry < pool.constants.length → index.toNat ≠ pool.startIndex entry := by
  rw [get_eq_error_iff]
  simp only [ne_eq, built.get_eq_ok_iff_start, not_exists, not_and]
  constructor
  · exact fun missing entry inside => missing _ entry (List.getElem?_eq_getElem inside)
  · exact fun missing constant entry located => missing entry (List.getElem?_eq_some_iff.mp located).1

/-- The constant after a wide one starts two indices further on, so the index in between is free. -/
theorem Built.get_second (built : pool.Built) {index : ConstantIndex} {constant : Constant}
    (found : pool.get index = .ok constant) (twice : constant.width = 2) :
    pool.get (index + 1) = .error (.constantOutOfRange (index + 1)) := by
  obtain ⟨entry, located, start⟩ := built.get_eq_ok_iff_start.mp found
  have inside := (List.getElem?_eq_some_iff.mp located).1
  have next : (index + 1).toNat = index.toNat + 1 := by
    have room := startIndex_add_le located inside
    have last := built.startIndex_length
    have small := built.extent_lt
    rw [UInt16.toNat_add, UInt16.toNat_one]
    omega
  refine built.get_eq_error_iff_start.mpr fun other insideOther same => ?_
  rcases Nat.lt_trichotomy entry other with later | rfl | earlier
  · have := startIndex_add_le located later
    omega
  · omega
  · have := startIndex_add_le (List.getElem?_eq_getElem insideOther) earlier
    omega

/-- The constants of a built pool are found where they start and nowhere else. -/
theorem Built.addressed (built : pool.Built) : pool.Addressed := by
  constructor
  case found => exact fun index constant => built.get_eq_ok_iff_start
  case refused => exact fun index => built.get_eq_error_iff_start
  case zero =>
    refine built.get_eq_error_iff_start.mpr fun entry _ => ?_
    rw [startIndex, UInt16.toNat_zero]
    omega
  case second =>
    rintro index (⟨value, found⟩ | ⟨bits, found⟩)
    · exact built.get_second found rfl
    · exact built.get_second found rfl
  case past =>
    intro index beyond
    refine built.get_eq_error_iff_start.mpr fun entry inside => ?_
    have := startIndex_add_le (List.getElem?_eq_getElem inside) inside
    have := (pool.constants[entry]).width_pos
    omega

end Pool

/-- Lookup by offset is exact in every table that elements of positive width were appended to, and so
are the indices of every pool that can be reached. -/
theorem OffsetTable.lookup_exact :
    (∀ (A : Type) [HasWidth A] (start : Nat) (elements : List A),
      (∀ element ∈ elements, 0 < HasWidth.width element) →
        (start + Bytes.totalSize HasWidth.width elements ≤ maxOffset →
          ∃ table, elements.foldlM append (startingAt start) = .ok table) ∧
        ∀ table, elements.foldlM append (startingAt start) = .ok table →
          table.Exact start elements) ∧
    ∀ pool : Pool, pool.Reached → pool.Addressed := by
  refine ⟨fun A _ start elements positive => ⟨fun fits => ?_, fun table appended => ?_⟩,
    fun pool reached => reached.built.addressed⟩
  · exact ⟨_, foldlM_append_of_fits fits⟩
  · rw [eq_pushAll_of_foldlM_append appended]
    exact exact_pushAll start positive

theorem OffsetTable.lookup_exact_wideConstant :
    (∃ table : OffsetTable Constant,
      [.utf8 [0x61], .long 7].foldlM append (startingAt 4) = .ok table ∧
        table.lookup 5 = .found 1 (.long 7) ∧ table.Answers 3 (.within 0) ∧ table.Answers 6 .beyond) ∧
    ∃ pool, Pool.read Pool.doubledText = .ok (pool, []) ∧ pool.get 2 = .ok (.long 7) ∧
      pool.get 3 = .error (.constantOutOfRange 3) ∧ pool.get 6 = .error (.constantOutOfRange 6) := by
  obtain ⟨tables, pools⟩ := lookup_exact
  constructor
  · have positive : ∀ constant ∈ [Constant.utf8 [0x61], .long 7], 0 < HasWidth.width constant :=
      fun constant _ => constant.width_pos
    obtain ⟨returns, exactly⟩ := tables Constant 4 _ positive
    obtain ⟨table, appended⟩ := returns (by decide)
    have exact := exactly table appended
    refine ⟨table, appended, (exact.lookup 5 _).mpr ((exact.entries 1).trans rfl), ?_⟩
    cases appended
    exact ⟨(exact.lookup 3 _).mp rfl, (exact.lookup 6 _).mp rfl⟩
  · obtain ⟨pool, done, constants⟩ : ∃ pool, Pool.read Pool.doubledText = .ok (pool, []) ∧
        pool.constants = [.utf8 [0x61], .long 7, .utf8 [0x61], .string 4] := ⟨_, rfl, rfl⟩
    have addressed := pools pool ⟨pool, [], .read done, rfl⟩
    have wide : pool.get 2 = .ok (.long 7) :=
      (addressed.found 2 _).mpr ⟨1, by rw [constants]; rfl, by rw [Pool.startIndex, constants]; rfl⟩
    exact ⟨pool, done, wide, addressed.second 2 (.inl ⟨7, wide⟩),
      addressed.past 6 (by rw [Pool.startIndex, constants]; decide)⟩

end Classfile
