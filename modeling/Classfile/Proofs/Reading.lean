import Classfile.Code.Table
import Mathlib.Tactic

/-!
What readers accept: byte forms of integers, sequences and tables.

`Reader.Reads` says that a reader accepts exactly the forms of its values and leaves whatever
follows. It covers both directions of a codec at once: a written form is read back, and what is
read was a form of the value.
-/

namespace Classfile

namespace Reader

variable {A B : Type}

theorem bind_eq_ok_iff {reader : Reader A} {next : A → Reader B} {input rest : Bytes} {value : B} :
    (reader >>= next) input = .ok (value, rest) ↔
      ∃ first middle, reader input = .ok (first, middle) ∧
        next first middle = .ok (value, rest) := by
  change Except.bind (reader input) (fun pair => next pair.1 pair.2) = _ ↔ _
  cases result : reader input with
  | error error => simp [Except.bind]
  | ok pair =>
    obtain ⟨first, middle⟩ := pair
    simp [Except.bind]

theorem bind_of_eq_ok {reader : Reader A} {next : A → Reader B} {input middle : Bytes} {first : A}
    (read : reader input = .ok (first, middle)) : (reader >>= next) input = next first middle := by
  change Except.bind (reader input) (fun pair => next pair.1 pair.2) = _
  rw [read]
  rfl

theorem bind_of_eq_error {reader : Reader A} {next : A → Reader B} {input : Bytes} {error : Error}
    (failed : reader input = .error error) : (reader >>= next) input = .error error := by
  change Except.bind (reader input) (fun pair => next pair.1 pair.2) = _
  rw [failed]
  rfl

theorem pure_eq_ok_iff {input rest : Bytes} {value result : A} :
    (pure value : Reader A) input = .ok (result, rest) ↔ value = result ∧ input = rest := by
  change Except.ok (value, input) = .ok (result, rest) ↔ _
  simp

theorem fail_eq_ok_iff {error : Error} {input rest : Bytes} {value : A} :
    (fail error : Reader A) input = .ok (value, rest) ↔ False := by
  simp [fail]

theorem ofExcept_eq_ok_iff {outcome : Except Error A} {input rest : Bytes} {value : A} :
    ofExcept outcome input = .ok (value, rest) ↔ outcome = .ok value ∧ input = rest := by
  cases outcome with
  | error error => simp [ofExcept, fail]
  | ok result => simp [ofExcept, pure_eq_ok_iff]

theorem u8_eq_ok_iff {input rest : Bytes} {value : UInt8} :
    u8 input = .ok (value, rest) ↔ input = value :: rest := by
  cases input with
  | nil => simp [u8]
  | cons byte tail => simp [u8]

/-- Two bytes are the big-endian form of the number they spell. -/
theorem ofU16_ofNat_bytes (high low : UInt8) :
    Bytes.ofU16 (UInt16.ofNat (high.toNat * 256 + low.toNat)) = [high, low] := by
  have highBound := high.toNat_lt
  have lowBound := low.toNat_lt
  simp only [Bytes.ofU16, UInt16.toNat_ofNat', List.cons.injEq, and_true, ← UInt8.toNat_inj,
    UInt8.toNat_ofNat']
  omega

theorem u16_eq_ok_iff {input rest : Bytes} {value : UInt16} :
    u16 input = .ok (value, rest) ↔ input = Bytes.ofU16 value ++ rest := by
  match input with
  | [] => simp [u16, Bytes.ofU16]
  | [_] => simp [u16, Bytes.ofU16]
  | high :: low :: tail =>
    simp only [u16, Except.ok.injEq, Prod.mk.injEq]
    constructor
    · rintro ⟨rfl, rfl⟩
      rw [ofU16_ofNat_bytes]
      rfl
    · intro split
      simp only [Bytes.ofU16, List.cons_append, List.nil_append, List.cons.injEq] at split
      obtain ⟨rfl, rfl, rfl⟩ := split
      have bound := value.toNat_lt
      refine ⟨?_, rfl⟩
      simp only [← UInt16.toNat_inj, UInt16.toNat_ofNat', UInt8.toNat_ofNat']
      omega

theorem u32_eq_ok_iff {input rest : Bytes} {value : UInt32} :
    u32 input = .ok (value, rest) ↔ input = Bytes.ofU32 value ++ rest := by
  simp only [u32, bind_eq_ok_iff, u16_eq_ok_iff, pure_eq_ok_iff, Bytes.ofU32]
  constructor
  · rintro ⟨high, _, rfl, low, _, rfl, rfl, rfl⟩
    have highBound := high.toNat_lt
    have lowBound := low.toNat_lt
    have highPart : UInt16.ofNat
        ((UInt32.ofNat (high.toNat * 65536 + low.toNat)).toNat / 65536) = high := by
      simp only [← UInt16.toNat_inj, UInt16.toNat_ofNat', UInt32.toNat_ofNat']
      omega
    have lowPart : UInt16.ofNat
        (UInt32.ofNat (high.toNat * 65536 + low.toNat)).toNat = low := by
      simp only [← UInt16.toNat_inj, UInt16.toNat_ofNat', UInt32.toNat_ofNat']
      omega
    rw [highPart, lowPart, List.append_assoc]
  · rintro rfl
    refine ⟨_, _, List.append_assoc _ _ _, _, _, rfl, ?_, rfl⟩
    have bound := value.toNat_lt
    simp only [← UInt32.toNat_inj, UInt16.toNat_ofNat', UInt32.toNat_ofNat']
    omega

theorem u64_eq_ok_iff {input rest : Bytes} {value : UInt64} :
    u64 input = .ok (value, rest) ↔ input = Bytes.ofU64 value ++ rest := by
  simp only [u64, bind_eq_ok_iff, u32_eq_ok_iff, pure_eq_ok_iff, Bytes.ofU64]
  constructor
  · rintro ⟨high, _, rfl, low, _, rfl, rfl, rfl⟩
    have highBound := high.toNat_lt
    have lowBound := low.toNat_lt
    have highPart : UInt32.ofNat
        ((UInt64.ofNat (high.toNat * 4294967296 + low.toNat)).toNat / 4294967296) = high := by
      simp only [← UInt32.toNat_inj, UInt32.toNat_ofNat', UInt64.toNat_ofNat']
      omega
    have lowPart : UInt32.ofNat
        (UInt64.ofNat (high.toNat * 4294967296 + low.toNat)).toNat = low := by
      simp only [← UInt32.toNat_inj, UInt32.toNat_ofNat', UInt64.toNat_ofNat']
      omega
    rw [highPart, lowPart, List.append_assoc]
  · rintro rfl
    refine ⟨_, _, List.append_assoc _ _ _, _, _, rfl, ?_, rfl⟩
    have bound := value.toNat_lt
    simp only [← UInt64.toNat_inj, UInt32.toNat_ofNat', UInt64.toNat_ofNat']
    omega

theorem i8_eq_ok_iff {input rest : Bytes} {value : Int8} :
    i8 input = .ok (value, rest) ↔ input = Bytes.ofI8 value ++ rest := by
  simp only [i8, bind_eq_ok_iff, u8_eq_ok_iff, pure_eq_ok_iff, Bytes.ofI8, Bytes.ofU8]
  constructor
  · rintro ⟨byte, _, rfl, rfl, rfl⟩
    rfl
  · rintro rfl
    exact ⟨_, _, rfl, rfl, rfl⟩

theorem i16_eq_ok_iff {input rest : Bytes} {value : Int16} :
    i16 input = .ok (value, rest) ↔ input = Bytes.ofI16 value ++ rest := by
  simp only [i16, bind_eq_ok_iff, u16_eq_ok_iff, pure_eq_ok_iff, Bytes.ofI16]
  constructor
  · rintro ⟨bits, _, rfl, rfl, rfl⟩
    rfl
  · rintro rfl
    exact ⟨_, _, rfl, rfl, rfl⟩

theorem i32_eq_ok_iff {input rest : Bytes} {value : Int32} :
    i32 input = .ok (value, rest) ↔ input = Bytes.ofI32 value ++ rest := by
  simp only [i32, bind_eq_ok_iff, u32_eq_ok_iff, pure_eq_ok_iff, Bytes.ofI32]
  constructor
  · rintro ⟨bits, _, rfl, rfl, rfl⟩
    rfl
  · rintro rfl
    exact ⟨_, _, rfl, rfl, rfl⟩

/-- A reader of some bytes takes exactly as many from the front. -/
theorem bytes_eq_ok_iff {count : Nat} {input rest front : Bytes} :
    bytes count input = .ok (front, rest) ↔ front.length = count ∧ input = front ++ rest := by
  simp only [bytes]
  constructor
  · intro read
    split at read
    · rename_i enough
      simp only [Except.ok.injEq, Prod.mk.injEq] at read
      obtain ⟨rfl, rfl⟩ := read
      exact ⟨enough, (List.take_append_drop count input).symm⟩
    · simp at read
  · rintro ⟨rfl, rfl⟩
    simp

/-- The reader accepts exactly the forms of its values and leaves whatever follows. -/
def Reads (reader : Reader A) (form : A → Bytes → Prop) : Prop :=
  ∀ input value rest, reader input = .ok (value, rest) ↔
    ∃ bytes, form value bytes ∧ input = bytes ++ rest

/-- Values one after the other, each in a form of its own. -/
def Sequence (form : A → Bytes → Prop) : List A → Bytes → Prop
  | [], bytes => bytes = []
  | value :: values, bytes =>
    ∃ front back, form value front ∧ Sequence form values back ∧ bytes = front ++ back

/-- The bytes of a value are read back as the value, whatever follows. -/
theorem Reads.reads_back {reader : Reader A} {form : A → Bytes → Prop} (reads : reader.Reads form)
    {value : A} {bytes : Bytes} (formed : form value bytes) (rest : Bytes) :
    reader (bytes ++ rest) = .ok (value, rest) :=
  (reads _ _ _).mpr ⟨bytes, formed, rfl⟩

/-- A reader of one form is a reader of every equivalent form. -/
theorem Reads.congr {reader : Reader A} {form other : A → Bytes → Prop}
    (reads : reader.Reads form) (same : ∀ value bytes, form value bytes ↔ other value bytes) :
    reader.Reads other := by
  intro input value rest
  rw [reads input value rest]
  exact exists_congr fun bytes => and_congr_left' (same value bytes)

/-- A reader whose values are wrapped accepts the forms of what is wrapped. -/
theorem Reads.map {reader : Reader A} {form : A → Bytes → Prop} (reads : reader.Reads form)
    (wrap : A → B) :
    Reads (do return wrap (← reader)) fun value bytes =>
      ∃ inner, value = wrap inner ∧ form inner bytes := by
  intro input value rest
  simp only [bind_eq_ok_iff, pure_eq_ok_iff, reads _ _ _]
  constructor
  · rintro ⟨inner, _, ⟨bytes, formed, rfl⟩, rfl, rfl⟩
    exact ⟨bytes, ⟨inner, rfl, formed⟩, rfl⟩
  · rintro ⟨bytes, ⟨inner, rfl, formed⟩, rfl⟩
    exact ⟨inner, rest, ⟨bytes, formed, rfl⟩, rfl, rfl⟩

/-- Reading one more item reads the item and then the others. -/
theorem manyOnto_succ_eq_ok_iff {item : Reader A} {count : Nat} {done : List A} {input : Bytes}
    {result : List A × Bytes} :
    manyOnto item (count + 1) done input = .ok result ↔
      ∃ value middle, item input = .ok (value, middle) ∧
        manyOnto item count (value :: done) middle = .ok result := by
  rw [manyOnto]
  cases item input with
  | error error => simp
  | ok read => simp [Prod.eq_iff_fst_eq_snd_eq]

/-- Reading a number of items reads a sequence of that length. -/
theorem manyOnto_eq_ok_iff {item : Reader A} {form : A → Bytes → Prop} (reads : item.Reads form)
    (count : Nat) (done values : List A) (input rest : Bytes) :
    manyOnto item count done input = .ok (values, rest) ↔
      ∃ more bytes, values = done.reverse ++ more ∧ more.length = count ∧
        Sequence form more bytes ∧ input = bytes ++ rest := by
  induction count generalizing done input with
  | zero =>
    simp only [manyOnto, Except.ok.injEq, Prod.mk.injEq, List.length_eq_zero_iff]
    constructor
    · rintro ⟨rfl, rfl⟩
      exact ⟨[], [], by simp, rfl, rfl, rfl⟩
    · rintro ⟨more, bytes, rfl, rfl, rfl, rfl⟩
      simp
  | succ count inductionHypothesis =>
    rw [manyOnto_succ_eq_ok_iff]
    constructor
    · rintro ⟨value, middle, first, read⟩
      obtain ⟨more, bytes, rfl, rfl, formed, rfl⟩ := (inductionHypothesis _ _).mp read
      obtain ⟨front, frontFormed, rfl⟩ := (reads _ _ _).mp first
      exact ⟨value :: more, front ++ bytes, by simp, rfl,
        ⟨front, bytes, frontFormed, formed, rfl⟩, by simp⟩
    · rintro ⟨more, bytes, rfl, counted, formed, rfl⟩
      cases more with
      | nil => simp at counted
      | cons value more =>
        obtain ⟨front, back, frontFormed, backFormed, rfl⟩ := formed
        rw [List.append_assoc]
        refine ⟨value, back ++ rest, reads.reads_back frontFormed _, ?_⟩
        exact (inductionHypothesis _ _).mpr
          ⟨more, back, by simp, by simpa using counted, backFormed, rfl⟩

/-- A fixed number of items is read exactly from that many forms one after the other. -/
theorem Reads.many {item : Reader A} {form : A → Bytes → Prop} (reads : item.Reads form)
    (count : Nat) :
    (Reader.many item count).Reads fun values bytes =>
      values.length = count ∧ Sequence form values bytes := by
  intro input values rest
  simp only [Reader.many, manyOnto_eq_ok_iff reads]
  constructor
  · rintro ⟨more, bytes, rfl, counted, formed, rfl⟩
    exact ⟨bytes, ⟨by simpa using counted, by simpa using formed⟩, rfl⟩
  · rintro ⟨bytes, ⟨counted, formed⟩, rfl⟩
    exact ⟨values, bytes, by simp, counted, formed, rfl⟩

/-- A 16-bit count is exact below 65536. -/
theorem ofCount_eq_ofU16_iff (count : Nat) (bits : UInt16) :
    count < 65536 ∧ Bytes.ofCount count = Bytes.ofU16 bits ↔ bits.toNat = count := by
  constructor
  · rintro ⟨small, same⟩
    have agree : u16 (Bytes.ofCount count ++ []) = .ok (bits, []) := u16_eq_ok_iff.mpr (by rw [same])
    rw [Bytes.ofCount, u16_eq_ok_iff.mpr rfl] at agree
    simp only [Except.ok.injEq, Prod.mk.injEq, and_true] at agree
    rw [← agree]
    exact UInt16.toNat_ofNat_of_lt' small
  · rintro rfl
    exact ⟨bits.toNat_lt, by simp [Bytes.ofCount]⟩

/-- A 32-bit length is exact below 2^32. -/
theorem ofLength_eq_ofU32_iff (length : Nat) (bits : UInt32) :
    length < 4294967296 ∧ Bytes.ofLength length = Bytes.ofU32 bits ↔ bits.toNat = length := by
  constructor
  · rintro ⟨small, same⟩
    have agree : u32 (Bytes.ofLength length ++ []) = .ok (bits, []) :=
      u32_eq_ok_iff.mpr (by rw [same])
    rw [Bytes.ofLength, u32_eq_ok_iff.mpr rfl] at agree
    simp only [Except.ok.injEq, Prod.mk.injEq, and_true] at agree
    rw [← agree]
    exact UInt32.toNat_ofNat_of_lt' small
  · rintro rfl
    exact ⟨bits.toNat_lt, by simp [Bytes.ofLength]⟩

/-- A table is read exactly from a 16-bit count and that many rows. -/
theorem Reads.table {row : Reader A} {form : A → Bytes → Prop} (reads : row.Reads form) :
    (Reader.table row).Reads fun rows bytes =>
      rows.length < 65536 ∧
        ∃ contents, Sequence form rows contents ∧
          bytes = Bytes.ofCount rows.length ++ contents := by
  intro input rows rest
  simp only [Reader.table, bind_eq_ok_iff, u16_eq_ok_iff]
  constructor
  · rintro ⟨count, _, rfl, read⟩
    obtain ⟨contents, ⟨counted, formed⟩, rfl⟩ := (reads.many count.toNat _ _ _).mp read
    obtain ⟨small, same⟩ := (ofCount_eq_ofU16_iff rows.length count).mpr counted.symm
    exact ⟨_, ⟨small, contents, formed, rfl⟩, by rw [same, List.append_assoc]⟩
  · rintro ⟨_, ⟨small, contents, formed, rfl⟩, rfl⟩
    refine ⟨UInt16.ofNat rows.length, contents ++ rest, by simp [Bytes.ofCount], ?_⟩
    have exactCount : (UInt16.ofNat rows.length).toNat = rows.length :=
      UInt16.toNat_ofNat_of_lt' small
    exact (reads.many _ _ _ _).mpr ⟨contents, ⟨exactCount.symm, formed⟩, rfl⟩

/-- A payload is read exactly from its length and contents that are used up. -/
theorem Reads.payload {contents : Reader A} {form : A → Bytes → Prop}
    (reads : contents.Reads form) (name : String) :
    (Reader.payload name contents).Reads fun value bytes =>
      ∃ inner, form value inner ∧ inner.length < 4294967296 ∧
        bytes = Bytes.ofLength inner.length ++ inner := by
  intro input value rest
  simp only [Reader.payload, bind_eq_ok_iff, u32_eq_ok_iff, bytes_eq_ok_iff, ofExcept_eq_ok_iff,
    pure_eq_ok_iff, checkAttributeLength, onPayload]
  constructor
  · rintro ⟨length, _, rfl, payload, middle, ⟨sized, rfl⟩, ⟨result, used⟩, _, ⟨parsed, rfl⟩, _, _,
      ⟨checked, rfl⟩, rfl, rfl⟩
    split at parsed
    · rename_i left read
      simp only [Except.ok.injEq, Prod.mk.injEq] at parsed
      obtain ⟨rfl, rfl⟩ := parsed
      split at checked
      · rename_i exhausted
        obtain ⟨inner, formed, rfl⟩ := (reads _ _ _).mp read
        have nothing : left = [] := by
          apply List.eq_nil_of_length_eq_zero
          simp only [List.length_append] at exhausted sized
          omega
        subst nothing
        rw [List.append_nil] at sized
        obtain ⟨small, same⟩ := (ofLength_eq_ofU32_iff inner.length length).mpr sized.symm
        exact ⟨_, ⟨inner, formed, small, rfl⟩, by simp [same]⟩
      · simp at checked
    · simp at parsed
  · rintro ⟨_, ⟨inner, formed, small, rfl⟩, rfl⟩
    have exactLength : (UInt32.ofNat inner.length).toNat = inner.length :=
      UInt32.toNat_ofNat_of_lt' small
    have read := reads.reads_back formed []
    rw [List.append_nil] at read
    refine ⟨UInt32.ofNat inner.length, _, by rw [Bytes.ofLength, List.append_assoc], inner, rest,
      ⟨exactLength.symm, rfl⟩, (value, inner.length), rest, ⟨by simp [read], rfl⟩, (), rest,
      ⟨by simp [exactLength], rfl⟩, rfl, rfl⟩

/-- A sequence of parts of one form is one of every weaker form. -/
theorem Sequence.imp {form other : A → Bytes → Prop} {values : List A} {bytes : Bytes}
    (formed : Sequence form values bytes)
    (weaker : ∀ value ∈ values, ∀ part, form value part → other value part) :
    Sequence other values bytes := by
  induction values generalizing bytes with
  | nil => exact formed
  | cons value values inductionHypothesis =>
    obtain ⟨front, back, frontFormed, backFormed, rfl⟩ := formed
    exact ⟨front, back, weaker value (by simp) front frontFormed,
      inductionHypothesis backFormed fun other present => weaker other (by simp [present]), rfl⟩

/-- Every value of a sequence has a form. -/
theorem Sequence.exists_form {form : A → Bytes → Prop} {values : List A} {bytes : Bytes}
    (formed : Sequence form values bytes) {value : A} (present : value ∈ values) :
    ∃ part, form value part := by
  induction values generalizing bytes with
  | nil => simp at present
  | cons first values inductionHypothesis =>
    obtain ⟨front, back, frontFormed, backFormed, rfl⟩ := formed
    rcases List.mem_cons.mp present with rfl | later
    · exact ⟨front, frontFormed⟩
    · exact inductionHypothesis backFormed later

/-- Values that each have a form have one as a sequence. -/
theorem sequence_of_forall {form : A → Bytes → Prop} {values : List A}
    (formed : ∀ value ∈ values, ∃ part, form value part) : ∃ bytes, Sequence form values bytes := by
  induction values with
  | nil => exact ⟨[], rfl⟩
  | cons value values inductionHypothesis =>
    obtain ⟨front, frontFormed⟩ := formed value (by simp)
    obtain ⟨back, backFormed⟩ := inductionHypothesis fun other present => formed other (by simp [present])
    exact ⟨front ++ back, front, back, frontFormed, backFormed, rfl⟩

/-- A change of the values that keeps their forms keeps the form of the sequence. -/
theorem Sequence.map {B : Type} {form : A → Bytes → Prop} {other : B → Bytes → Prop}
    {values : List A} {bytes : Bytes} (formed : Sequence form values bytes) (change : A → B)
    (kept : ∀ value ∈ values, ∀ part, form value part → other (change value) part) :
    Sequence other (values.map change) bytes := by
  induction values generalizing bytes with
  | nil => exact formed
  | cons value values inductionHypothesis =>
    obtain ⟨front, back, frontFormed, backFormed, rfl⟩ := formed
    exact ⟨front, back, kept value (by simp) front frontFormed,
      inductionHypothesis backFormed fun other present => kept other (by simp [present]), rfl⟩

/-- A sequence of values with one encoding each is the encodings one after the other. -/
theorem sequence_iff_flatMap (write : A → Bytes) (values : List A) (bytes : Bytes) :
    Sequence (fun value part => part = write value) values bytes ↔
      bytes = values.flatMap write := by
  induction values generalizing bytes with
  | nil => simp [Sequence]
  | cons value values inductionHypothesis => simp [Sequence, inductionHypothesis]

end Reader

/-- A list is mapped successfully exactly when each of its members is. -/
theorem mapM_eq_ok_iff {A B : Type} (change : A → Except Error B) (values : List A)
    (results : List B) :
    values.mapM change = .ok results ↔
      List.Forall₂ (fun value result => change value = .ok result) values results := by
  induction values generalizing results with
  | nil =>
    rw [List.mapM_nil, List.forall₂_nil_left_iff]
    constructor
    · intro same
      cases same
      rfl
    · rintro rfl
      rfl
  | cons value values inductionHypothesis =>
    rw [List.mapM_cons]
    cases first : change value with
    | error error =>
      constructor
      · intro impossible
        cases impossible
      · intro related
        cases related with
        | cons head _ =>
          rw [first] at head
          cases head
    | ok result =>
      cases later : values.mapM change with
      | error error =>
        constructor
        · intro impossible
          cases impossible
        · intro related
          cases related with
          | cons _ tail =>
            rw [(inductionHypothesis _).mpr tail] at later
            cases later
      | ok others =>
        have tail := (inductionHypothesis others).mp later
        constructor
        · intro same
          cases same
          exact .cons first tail
        · intro related
          cases related with
          | cons head tail =>
            rw [first] at head
            rw [(inductionHypothesis _).mpr tail] at later
            cases head
            cases later
            rfl

namespace Reader

/-- A sequence of values that can be written is what writing them gives. -/
theorem sequence_iff_mapM {A : Type} (write : A → Except Error Bytes) (values : List A)
    (bytes : Bytes) :
    Sequence (fun value part => write value = .ok part) values bytes ↔
      ∃ parts, values.mapM write = .ok parts ∧ bytes = parts.flatten := by
  simp only [mapM_eq_ok_iff]
  induction values generalizing bytes with
  | nil => simp [Sequence]
  | cons value values inductionHypothesis =>
    simp only [Sequence, inductionHypothesis, List.forall₂_cons_left_iff]
    constructor
    · rintro ⟨front, _, written, ⟨parts, related, rfl⟩, rfl⟩
      exact ⟨front :: parts, ⟨front, parts, written, related, rfl⟩, by simp⟩
    · rintro ⟨_, ⟨front, parts, written, related, rfl⟩, rfl⟩
      exact ⟨front, _, written, ⟨parts, related, rfl⟩, by simp⟩

/-- Rows that are written and valid one by one are so as a sequence. -/
theorem sequence_and_iff (form : A → Bytes → Prop) (valid : A → Prop) (rows : List A)
    (bytes : Bytes) :
    Sequence (fun row part => form row part ∧ valid row) rows bytes ↔
      Sequence form rows bytes ∧ ∀ row ∈ rows, valid row := by
  constructor
  · intro formed
    refine ⟨formed.imp fun row _ part holds => holds.1, ?_⟩
    intro row present
    obtain ⟨part, _, holds⟩ := formed.exists_form present
    exact holds
  · rintro ⟨formed, holds⟩
    exact formed.imp fun row present part written => ⟨written, holds row present⟩

/-- A sequence is as long as its parts together. -/
theorem Sequence.length_eq {form : A → Bytes → Prop} {size : A → Nat} {values : List A}
    {bytes : Bytes} (formed : Sequence form values bytes)
    (sized : ∀ value part, form value part → part.length = size value) :
    bytes.length = Bytes.totalSize size values := by
  induction values generalizing bytes with
  | nil =>
    obtain rfl : bytes = [] := formed
    rfl
  | cons value values inductionHypothesis =>
    obtain ⟨front, back, frontFormed, backFormed, rfl⟩ := formed
    rw [List.length_append, sized value front frontFormed, inductionHypothesis backFormed]
    rfl

end Reader

/-- The total size of items of one size is a product. -/
theorem totalSize_const {A : Type} (size : Nat) (values : List A) :
    Bytes.totalSize (fun _ => size) values = size * values.length := by
  induction values with
  | nil => rfl
  | cons value values inductionHypothesis =>
    change size + Bytes.totalSize (fun _ => size) values = size * (values.length + 1)
    rw [inductionHypothesis, Nat.mul_add, Nat.mul_one, Nat.add_comm]

/-- The total size of two lists is the sum of theirs. -/
theorem totalSize_append {A : Type} (size : A → Nat) (first second : List A) :
    Bytes.totalSize size (first ++ second) = Bytes.totalSize size first + Bytes.totalSize size second := by
  induction first with
  | nil => simp [Bytes.totalSize]
  | cons value first inductionHypothesis =>
    change size value + Bytes.totalSize size (first ++ second) = _
    rw [inductionHypothesis, ← Nat.add_assoc]
    rfl

/-- Encodings one after the other are as long as they are together. -/
theorem length_flatMap_of_sizes {A : Type} {write : A → Bytes} {size : A → Nat}
    (sized : ∀ item, (write item).length = size item) (items : List A) :
    (items.flatMap write).length = Bytes.totalSize size items := by
  induction items with
  | nil => rfl
  | cons item items inductionHypothesis =>
    rw [List.flatMap_cons, List.length_append, inductionHypothesis, sized]
    rfl

end Classfile
