import Classfile.Proofs.Interning
import Classfile.Proofs.MemberForm

/-!
What is written is accepted again.

`Accepts` says that a reader turns given bytes into a value whatever follows them, and it is put
together along the binds of the reader. Reading a pool pushes its constants one after the other, so
the pools that are read are built, and reading the constants of a built pool repeats the pushes that
built it.
-/

namespace Classfile

namespace Reader

variable {A B : Type}

/-- The reader turns the bytes into the value and leaves whatever follows. -/
def Accepts (reader : Reader A) (bytes : Bytes) (value : A) : Prop :=
  ∀ rest, reader (bytes ++ rest) = .ok (value, rest)

/-- Two readers accept their bytes one after the other. -/
theorem Accepts.bind {reader : Reader A} {next : A → Reader B} {front back : Bytes} {first : A}
    {value : B} (accepts : reader.Accepts front first) (continued : (next first).Accepts back value) :
    (reader >>= next).Accepts (front ++ back) value := by
  intro rest
  rw [List.append_assoc, bind_of_eq_ok (accepts (back ++ rest))]
  exact continued rest

theorem accepts_pure (value : A) : (pure value : Reader A).Accepts [] value := fun _ => rfl

theorem accepts_ofExcept {outcome : Except Error A} {value : A} (known : outcome = .ok value) :
    (ofExcept outcome).Accepts [] value := by
  rw [known]
  exact accepts_pure value

/-- A reader whose value is wrapped accepts the same bytes. -/
theorem Accepts.map {reader : Reader A} {bytes : Bytes} {value : A}
    (accepts : reader.Accepts bytes value) (wrap : A → B) :
    Accepts (do return wrap (← reader)) bytes (wrap value) := by
  intro rest
  rw [bind_of_eq_ok (accepts rest)]
  rfl

theorem accepts_u8 (value : UInt8) : u8.Accepts [value] value := fun _ => u8_eq_ok_iff.mpr rfl

theorem accepts_u16 (value : UInt16) : u16.Accepts (Bytes.ofU16 value) value :=
  fun _ => u16_eq_ok_iff.mpr rfl

theorem accepts_u32 (value : UInt32) : u32.Accepts (Bytes.ofU32 value) value :=
  fun _ => u32_eq_ok_iff.mpr rfl

theorem accepts_u64 (value : UInt64) : u64.Accepts (Bytes.ofU64 value) value :=
  fun _ => u64_eq_ok_iff.mpr rfl

theorem accepts_i32 (value : Int32) : i32.Accepts (Bytes.ofI32 value) value :=
  fun _ => i32_eq_ok_iff.mpr rfl

theorem accepts_bytes (contents : Bytes) : (bytes contents.length).Accepts contents contents :=
  fun _ => bytes_eq_ok_iff.mpr ⟨rfl, rfl⟩

end Reader

namespace Task

variable {A B : Type}

/-- The task turns the bytes into the value and leaves whatever follows, whatever it reports. -/
def Accepts (task : Task Bytes A) (bytes : Bytes) (value : A) : Prop :=
  ∀ rest events, ∃ reported, task ⟨bytes ++ rest, events⟩ = .ok value ⟨rest, reported⟩

/-- Two tasks accept their bytes one after the other. -/
theorem Accepts.bind {task : Task Bytes A} {next : A → Task Bytes B} {front back : Bytes} {first : A}
    {value : B} (accepts : task.Accepts front first) (continued : (next first).Accepts back value) :
    (task >>= next).Accepts (front ++ back) value := by
  intro rest events
  obtain ⟨between, ran⟩ := accepts (back ++ rest) events
  obtain ⟨reported, ranNext⟩ := continued rest between
  refine ⟨reported, ?_⟩
  rw [List.append_assoc, bind_of_eq_ok ran]
  exact ranNext

/-- A task goes on after one that consumes nothing. -/
theorem Accepts.andThen {task : Task Bytes A} {next : A → Task Bytes B} {bytes : Bytes} {first : A}
    {value : B} (accepts : task.Accepts [] first) (continued : (next first).Accepts bytes value) :
    (task >>= next).Accepts bytes value :=
  accepts.bind continued

/-- What comes after the last bytes consumes nothing. -/
theorem Accepts.last {task : Task Bytes A} {next : A → Task Bytes B} {bytes : Bytes} {first : A}
    {value : B} (accepts : task.Accepts bytes first) (continued : (next first).Accepts [] value) :
    (task >>= next).Accepts bytes value := by
  have accepted := accepts.bind continued
  rwa [List.append_nil] at accepted

theorem accepts_pure (value : A) : (pure value : Task Bytes A).Accepts [] value :=
  fun _ events => ⟨events, rfl⟩

theorem accepts_report (event : Event) : (report event : Task Bytes Unit).Accepts [] () :=
  fun _ events => ⟨events.push event, rfl⟩

theorem accepts_ofExcept {outcome : Except Error A} {value : A} (known : outcome = .ok value) :
    (ofExcept outcome : Task Bytes A).Accepts [] value := by
  rw [known]
  exact fun _ events => ⟨events, rfl⟩

/-- A task accepts what its reader accepts. -/
theorem accepts_ofReader {reader : Reader A} {bytes : Bytes} {value : A}
    (accepts : reader.Accepts bytes value) : (ofReader reader).Accepts bytes value := by
  intro rest events
  exact ⟨events, ofReader_eq_ok_iff.mpr ⟨rest, accepts rest, rfl⟩⟩

/-- Items that are accepted one by one are accepted one after the other. -/
theorem accepts_manyOnto {item : Task Bytes A} {values : List A} {bytes : Bytes} (done : List A)
    (formed : Reader.Sequence (fun value part => item.Accepts part value) values bytes) :
    (manyOnto item values.length done).Accepts bytes (done.reverse ++ values) := by
  induction values generalizing done bytes with
  | nil =>
    obtain rfl : bytes = [] := formed
    intro rest events
    exact ⟨events, by rw [List.append_nil]; rfl⟩
  | cons value values inductionHypothesis =>
    obtain ⟨front, back, frontFormed, backFormed, rfl⟩ := formed
    intro rest events
    obtain ⟨between, ran⟩ := frontFormed (back ++ rest) events
    obtain ⟨reported, ranOthers⟩ := inductionHypothesis (value :: done) backFormed rest between
    refine ⟨reported, ?_⟩
    rw [List.append_assoc, List.length_cons, manyOnto, ran]
    simpa using ranOthers

/-- As many items as there are values are accepted one after the other. -/
theorem accepts_many {item : Task Bytes A} {values : List A} {bytes : Bytes}
    (formed : Reader.Sequence (fun value part => item.Accepts part value) values bytes) :
    (many item values.length).Accepts bytes values :=
  accepts_manyOnto [] formed

end Task

open Reader

/-- A constant is accepted if its operands are accepted after its tag. -/
theorem Constant.accepts_of_operands {index : ConstantIndex} {tag : UInt8} {operands : Bytes}
    {constant : Constant} (accepts : (readOperands index tag).Accepts operands constant) :
    (Constant.read index).Accepts (tag :: operands) constant :=
  (accepts_u8 tag).bind accepts

/-- A constant is accepted from the bytes it is written as, if the length of a text can be. -/
theorem Constant.accepts_read (index : ConstantIndex) {constant : Constant}
    (short : ∀ bytes, constant = .utf8 bytes → bytes.length < 65536) :
    (Constant.read index).Accepts constant.toBytes constant := by
  have single (wrap : UInt16 → Constant) (operand : UInt16) := (accepts_u16 operand).map wrap
  have double (wrap : UInt16 → UInt16 → Constant) (first second : UInt16) :
      Accepts (do return wrap (← u16) (← u16)) (Bytes.ofU16 first ++ Bytes.ofU16 second)
        (wrap first second) :=
    (accepts_u16 first).bind ((accepts_u16 second).map (wrap first))
  cases constant with
  | utf8 bytes =>
    have exactLength : (UInt16.ofNat bytes.length).toNat = bytes.length :=
      UInt16.toNat_ofNat_of_lt' (short bytes rfl)
    have contents : (Reader.bytes (UInt16.ofNat bytes.length).toNat).Accepts bytes bytes := by
      rw [exactLength]
      exact accepts_bytes bytes
    exact accepts_of_operands ((accepts_u16 _).bind (contents.map utf8))
  | integer value => exact accepts_of_operands ((accepts_i32 value).map integer)
  | float bits => exact accepts_of_operands ((accepts_u32 bits).map float)
  | long value =>
    exact accepts_of_operands ((accepts_u64 value.toUInt64).map fun bits => long bits.toInt64)
  | double bits => exact accepts_of_operands ((accepts_u64 bits).map Constant.double)
  | classInfo name => exact accepts_of_operands (single classInfo name)
  | string text => exact accepts_of_operands (single string text)
  | fieldRef owner signature => exact accepts_of_operands (double fieldRef owner signature)
  | methodRef owner signature onInterface =>
    cases onInterface with
    | false => exact accepts_of_operands (double (methodRef · · false) owner signature)
    | true => exact accepts_of_operands (double (methodRef · · true) owner signature)
  | nameAndType name descriptor => exact accepts_of_operands (double nameAndType name descriptor)
  | methodHandle kind member =>
    exact accepts_of_operands ((accepts_u8 kind.byte).bind
      ((accepts_ofExcept kind.ofByte_byte).bind (single (methodHandle kind) member)))
  | methodType descriptor => exact accepts_of_operands (single methodType descriptor)
  | dynamic bootstrap signature => exact accepts_of_operands (double dynamic bootstrap signature)
  | invokeDynamic bootstrap signature =>
    exact accepts_of_operands (double invokeDynamic bootstrap signature)
  | moduleInfo name => exact accepts_of_operands (single moduleInfo name)
  | packageInfo name => exact accepts_of_operands (single packageInfo name)

namespace Pool

/-- Appending a constant makes a pool larger by its width. -/
theorem extent_append (pool : Pool) (constant : Constant) :
    (pool.append constant).table.extent = pool.table.extent + constant.width := rfl

/-- A pool is full before its size outgrows 16 bits. -/
theorem Built.extent_lt {pool : Pool} (built : pool.Built) : pool.table.extent < 65536 := by
  induction built with
  | empty => decide
  | @push pool later constant built pushed inductionHypothesis =>
    obtain ⟨allowed, rfl⟩ := push_eq_ok_iff.mp pushed
    have exactIndex : pool.nextIndex.toNat = pool.table.extent :=
      UInt16.toNat_ofNat_of_lt' inductionHypothesis
    unfold refusal? at allowed
    rw [exactIndex] at allowed
    split at allowed
    · cases allowed
    · rw [extent_append]
      omega

/-- A text that was pushed has a length of 16 bits. -/
theorem length_lt_of_push {pool later : Pool} {bytes : Bytes}
    (pushed : pool.push (.utf8 bytes) = .ok later) : bytes.length < 65536 := by
  obtain ⟨allowed, _⟩ := push_eq_ok_iff.mp pushed
  rw [refusal?] at allowed
  split at allowed
  · cases allowed
  · split at allowed
    · cases allowed
    · omega

/-- The pushes that built a pool. -/
theorem Built.foldlM_push {pool : Pool} (built : pool.Built) :
    pool.constants.foldlM Pool.push Pool.empty = .ok pool := by
  induction built with
  | empty => rfl
  | @push pool later constant built pushed inductionHypothesis =>
    obtain ⟨_, same⟩ := push_eq_ok_iff.mp pushed
    have added := pool.constants_append constant
    rw [← same] at added
    rw [added, List.foldlM_append, exceptBind_eq_ok_iff]
    refine ⟨pool, inductionHypothesis, ?_⟩
    rw [List.foldlM_cons, exceptBind_eq_ok_iff]
    exact ⟨later, pushed, rfl⟩

/-- Pools that are read are built. -/
theorem built_of_read {pool : Pool} {input rest : Bytes}
    (read : Pool.read input = .ok (pool, rest)) : pool.Built := by
  simp only [Pool.read, bind_eq_ok_iff] at read
  obtain ⟨count, _, _, built, _, constants, read⟩ := read
  split at read
  · obtain ⟨rfl, _⟩ := pure_eq_ok_iff.mp read
    obtain ⟨_, pushed, _⟩ := pushed_of_readOnto constants
    exact Built.empty.of_pushed pushed
  · exact (fail_eq_ok_iff.mp read).elim

/-- A pool that constants were pushed onto is larger by their widths. -/
theorem extent_of_pushed {constants : List Constant} {start result : Pool}
    (pushed : constants.foldlM push start = .ok result) :
    result.table.extent = start.table.extent + Bytes.totalSize Constant.width constants := by
  induction constants generalizing start with
  | nil =>
    cases pushed
    rfl
  | cons constant constants inductionHypothesis =>
    rw [List.foldlM_cons, exceptBind_eq_ok_iff] at pushed
    obtain ⟨middle, first, others⟩ := pushed
    rw [inductionHypothesis others, (push_eq_ok_iff.mp first).2, extent_append, Nat.add_assoc]
    rfl

/-- A constant takes up an index at least. -/
theorem length_le_totalWidth (constants : List Constant) :
    constants.length ≤ Bytes.totalSize Constant.width constants := by
  induction constants with
  | nil => exact Nat.zero_le _
  | cons constant constants inductionHypothesis =>
    have width := constant.width_pos
    change constants.length + 1 ≤ constant.width + Bytes.totalSize Constant.width constants
    omega

/-- Reading stops when the declared number of indices is used up. -/
theorem readOnto_of_full {count : Nat} {pool : Pool} (full : count ≤ pool.table.extent) (steps : Nat)
    (input : Bytes) : readOnto count steps pool input = .ok (pool, input) := by
  cases steps with
  | zero => rfl
  | succ steps => rw [readOnto, if_neg (Nat.not_lt.mpr full)]

/-- Constants that are pushed one after the other are read from their bytes one after the other, and
reading goes on from there. -/
theorem readOnto_of_pushed {constants : List Constant} {start result : Pool}
    (pushed : constants.foldlM push start = .ok result) {count : Nat}
    (within : result.table.extent ≤ count) (steps : Nat) (rest : Bytes) :
    readOnto count (constants.length + steps) start (constants.flatMap Constant.toBytes ++ rest) =
      readOnto count steps result rest := by
  induction constants generalizing start with
  | nil =>
    cases pushed
    rw [List.length_nil, Nat.zero_add]
    rfl
  | cons constant constants inductionHypothesis =>
    have extent := extent_of_pushed pushed
    rw [List.foldlM_cons, exceptBind_eq_ok_iff] at pushed
    obtain ⟨middle, first, others⟩ := pushed
    have unfinished : start.table.extent < count := by
      have width := constant.width_pos
      change _ = start.table.extent + (constant.width + Bytes.totalSize Constant.width constants) at extent
      omega
    have read := Constant.accepts_read start.nextIndex
      (fun bytes same => length_lt_of_push (by rw [← same]; exact first))
      (constants.flatMap Constant.toBytes ++ rest)
    rw [List.length_cons, Nat.add_right_comm, List.flatMap_cons, List.append_assoc, readOnto,
      if_pos unfinished, read]
    simp only [first]
    exact inductionHypothesis others

/-- A built pool is accepted from the bytes it is written as. -/
theorem Built.accepts_read {pool : Pool} (built : pool.Built) : Pool.read.Accepts pool.toBytes pool := by
  have exactCount : (UInt16.ofNat pool.table.extent).toNat = pool.table.extent :=
    UInt16.toNat_ofNat_of_lt' built.extent_lt
  have extent : pool.table.extent = 1 + Bytes.totalSize Constant.width pool.constants :=
    extent_of_pushed built.foldlM_push
  obtain ⟨steps, enough⟩ := Nat.exists_eq_add_of_le
    (show pool.constants.length ≤ pool.table.extent by
      have := length_le_totalWidth pool.constants
      omega)
  intro rest
  have constants : readOnto pool.table.extent pool.table.extent Pool.empty
      (pool.constants.flatMap Constant.toBytes ++ rest) = .ok (pool, rest) := by
    conv_lhs => arg 2; rw [enough]
    rw [readOnto_of_pushed built.foldlM_push (Nat.le_refl _), readOnto_of_full (Nat.le_refl _)]
  rw [Pool.read, toBytes, List.append_assoc, Bytes.ofCount, bind_of_eq_ok (accepts_u16 _ _), exactCount,
    bind_of_eq_ok constants, if_pos (by omega)]
  rfl

end Pool

end Classfile
