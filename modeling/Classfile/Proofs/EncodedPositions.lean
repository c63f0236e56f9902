import Classfile.Proofs.BodyForm
import Classfile.Proofs.FrameSettling

/-!
The positions that the tables of a body encode.

A file refers to code by position. Each table has a reader here that goes over the same bytes and
keeps the positions as they are. Against it, `Reader.Resolves` says that a table is read exactly when
an instruction starts at every position it encodes, and that the handles it then holds are those of
the instructions there.
-/

namespace Classfile

open Reader

namespace DecodedCode

/-- An instruction starts at a position. -/
def StartsAt (code : DecodedCode) (bci : Int) : Prop :=
  ∃ entry ∈ code.entries.toList, (entry.1 : Int) = bci

/-- A position where a range of code may end: the end of the code is one as well. -/
def StopsAt (code : DecodedCode) (bci : Int) : Prop := bci = code.extent ∨ code.StartsAt bci

variable {code : DecodedCode}

/-- An instruction starts at a position that has a handle. -/
theorem startsAt_iff (increasing : code.Increasing) (bci : Int) :
    code.StartsAt bci ↔ ∃ handle, code.handleAt bci = .ok handle := by
  simp only [handleAt_int_eq_ok_iff increasing, OffsetTable.offset?, ← Array.getElem?_toList,
    Option.map_eq_some_iff]
  constructor
  · intro starts
    obtain ⟨entry, present, same⟩ := starts
    obtain ⟨index, found⟩ := List.mem_iff_getElem?.mp present
    exact ⟨⟨index⟩, entry.1, ⟨entry, found, rfl⟩, same.symm⟩
  · intro located
    obtain ⟨handle, start, ⟨entry, found, starts⟩, same⟩ := located
    refine ⟨entry, List.mem_of_getElem? found, ?_⟩
    rw [starts, same]

theorem stopsAt_iff (increasing : code.Increasing) (bci : Int) :
    code.StopsAt bci ↔ ∃ stop, code.stopAt bci = .ok stop := by
  unfold StopsAt stopAt
  by_cases final : bci = code.extent
  · simp [final]
  · rw [startsAt_iff increasing, if_neg final]
    cases code.handleAt bci with
    | ok handle => simp
    | error error => simp [final]

/-- The positions of the instructions of decoded code. -/
def positions (code : DecodedCode) : Positions := fun handle =>
  match code.offset? handle.index with
  | some bci => .ok bci
  | none => .error (.staleHandle handle)

/-- The positions of decoded code are those of its instructions. -/
theorem match_positions (code : DecodedCode) : code.positions.Match code := by
  intro handle bci
  unfold positions
  cases code.offset? handle.index with
  | none => simp
  | some start => simp

end DecodedCode

namespace Positions

variable {positions : Positions} {code : DecodedCode}

/-- An exclusive end leads to a position, without a handle exactly at the end of the code. -/
structure Ends (positions : Positions) (codeLength bci : Nat) (stop : Option Handle) : Prop where
  final : stop = none ↔ bci = codeLength
  inside : ∀ handle, stop = some handle → positions handle = .ok bci

/-- An end that is found is where it should be. -/
theorem Match.ends (agree : positions.Match code) (increasing : code.Increasing) {bci : Nat}
    {stop : Option Handle} (found : code.stopAt bci = .ok stop) :
    positions.Ends code.extent bci stop := by
  unfold DecodedCode.stopAt at found
  by_cases final : (bci : Int) = code.extent
  · rw [if_pos final, Except.ok.injEq] at found
    subst found
    exact ⟨iff_of_true rfl (Int.ofNat_inj.mp final), by simp⟩
  · rw [if_neg final] at found
    cases located : code.handleAt bci with
    | error error =>
      rw [located] at found
      cases found
    | ok handle =>
      rw [located, Except.ok.injEq] at found
      subst found
      have different : bci ≠ code.extent := fun same => final (congrArg Int.ofNat same)
      refine ⟨iff_of_false (by simp) different, ?_⟩
      intro other same
      cases same
      exact (agree.handleAt_iff increasing bci handle).mp located

end Positions

namespace Reader

variable {A B : Type}

/-- A reader succeeds where a reader of positions does and all of them are grounded in the code. Its
values then point at these positions. -/
structure Resolves (reader : Reader A) (raw : Reader B) (grounded : B → Prop)
    (points : B → A → Prop) : Prop where
  sound : ∀ {input value rest}, reader input = .ok (value, rest) →
    ∃ encoded, raw input = .ok (encoded, rest) ∧ grounded encoded ∧ points encoded value
  complete : ∀ {input encoded rest}, raw input = .ok (encoded, rest) → grounded encoded →
    ∃ value, reader input = .ok (value, rest)

variable {reader : Reader A} {raw : Reader B} {grounded : B → Prop} {points : B → A → Prop}

/-- Items that are read point at the positions that are encoded. -/
theorem Resolves.manyOnto_sound (resolves : reader.Resolves raw grounded points) (count : Nat)
    {done values : List A} {input rest : Bytes} (before : List B)
    (read : manyOnto reader count done input = .ok (values, rest)) :
    ∃ more encoded, values = done.reverse ++ more ∧
      manyOnto raw count before input = .ok (before.reverse ++ encoded, rest) ∧
      (∀ entry ∈ encoded, grounded entry) ∧ List.Forall₂ points encoded more := by
  induction count generalizing done before input with
  | zero =>
    cases read
    exact ⟨[], [], by simp, by simp [manyOnto], by simp, .nil⟩
  | succ count inductionHypothesis =>
    obtain ⟨value, middle, first, read⟩ := manyOnto_succ_eq_ok_iff.mp read
    obtain ⟨entry, found, ground, point⟩ := resolves.sound first
    obtain ⟨more, encoded, rfl, others, grounds, pointed⟩ :=
      inductionHypothesis (entry :: before) read
    refine ⟨value :: more, entry :: encoded, by simp, ?_, ?_, .cons point pointed⟩
    · simp [manyOnto, found, others]
    · intro other present
      rcases List.mem_cons.mp present with rfl | later
      · exact ground
      · exact grounds other later

/-- Items can be read if all of their positions are grounded. -/
theorem Resolves.manyOnto_complete (resolves : reader.Resolves raw grounded points) (count : Nat)
    {before result : List B} {input rest : Bytes}
    (read : manyOnto raw count before input = .ok (result, rest)) :
    ∃ encoded, result = before.reverse ++ encoded ∧
      ((∀ entry ∈ encoded, grounded entry) →
        ∀ done, ∃ values, manyOnto reader count done input = .ok (values, rest)) := by
  induction count generalizing before input with
  | zero =>
    cases read
    exact ⟨[], by simp, fun _ done => ⟨done.reverse, rfl⟩⟩
  | succ count inductionHypothesis =>
    obtain ⟨entry, middle, first, read⟩ := manyOnto_succ_eq_ok_iff.mp read
    obtain ⟨encoded, rfl, continued⟩ := inductionHypothesis read
    refine ⟨entry :: encoded, by simp, ?_⟩
    intro grounds done
    obtain ⟨value, found⟩ := resolves.complete first (grounds entry (by simp))
    obtain ⟨values, others⟩ :=
      continued (fun other present => grounds other (by simp [present])) (value :: done)
    exact ⟨values, by simp [manyOnto, found, others]⟩

/-- Items are resolved one by one. -/
theorem Resolves.many (resolves : reader.Resolves raw grounded points) (count : Nat) :
    (Reader.many reader count).Resolves (Reader.many raw count)
      (fun encoded => ∀ entry ∈ encoded, grounded entry) (List.Forall₂ points) := by
  constructor
  · intro input values rest read
    obtain ⟨more, encoded, same, found, grounds, pointed⟩ := resolves.manyOnto_sound count [] read
    rw [List.reverse_nil, List.nil_append] at same
    exact ⟨encoded, found, grounds, same ▸ pointed⟩
  · intro input encoded rest read grounds
    obtain ⟨more, same, continued⟩ := resolves.manyOnto_complete count read
    rw [List.reverse_nil, List.nil_append] at same
    exact continued (same ▸ grounds) []

/-- A table resolves positions if its rows do. -/
theorem Resolves.table (resolves : reader.Resolves raw grounded points) :
    (Reader.table reader).Resolves (Reader.table raw)
      (fun encoded => ∀ entry ∈ encoded, grounded entry) (List.Forall₂ points) := by
  constructor
  · intro input values rest read
    obtain ⟨count, middle, counted, read⟩ := bind_eq_ok_iff.mp read
    obtain ⟨encoded, found, grounds, pointed⟩ := (resolves.many count.toNat).sound read
    exact ⟨encoded, bind_eq_ok_iff.mpr ⟨count, middle, counted, found⟩, grounds, pointed⟩
  · intro input encoded rest read grounds
    obtain ⟨count, middle, counted, read⟩ := bind_eq_ok_iff.mp read
    obtain ⟨values, found⟩ := (resolves.many count.toNat).complete read grounds
    exact ⟨values, bind_eq_ok_iff.mpr ⟨count, middle, counted, found⟩⟩

/-- What is read is wrapped, and so are the positions in it. -/
theorem Resolves.map {C D : Type} (resolves : reader.Resolves raw grounded points) (wrap : A → C)
    (keep : B → D) {ground : D → Prop} {point : D → C → Prop}
    (grounds : ∀ encoded, ground (keep encoded) ↔ grounded encoded)
    (pointed : ∀ encoded value, points encoded value → point (keep encoded) (wrap value)) :
    Resolves (do return wrap (← reader)) (do return keep (← raw)) ground point := by
  constructor
  · intro input value rest read
    simp only [bind_eq_ok_iff, pure_eq_ok_iff] at read
    obtain ⟨inner, _, read, rfl, rfl⟩ := read
    obtain ⟨encoded, found, held, leads⟩ := resolves.sound read
    refine ⟨keep encoded, ?_, (grounds encoded).mpr held, pointed encoded inner leads⟩
    simp only [bind_eq_ok_iff, pure_eq_ok_iff]
    exact ⟨encoded, _, found, rfl, rfl⟩
  · intro input encoded rest read held
    simp only [bind_eq_ok_iff, pure_eq_ok_iff] at read ⊢
    obtain ⟨inner, _, read, rfl, rfl⟩ := read
    obtain ⟨value, found⟩ := resolves.complete read ((grounds inner).mp held)
    exact ⟨wrap value, value, _, found, rfl, rfl⟩

/-- Two parts are resolved one after the other. -/
theorem Resolves.map₂ {A' B' C D : Type} {other : Reader A'} {otherRaw : Reader B'}
    {otherGrounded : B' → Prop} {otherPoints : B' → A' → Prop}
    (resolves : reader.Resolves raw grounded points)
    (resolvesOther : other.Resolves otherRaw otherGrounded otherPoints) (wrap : A → A' → C)
    (keep : B → B' → D) {ground : D → Prop} {point : D → C → Prop}
    (grounds : ∀ first second, ground (keep first second) ↔ grounded first ∧ otherGrounded second)
    (pointed : ∀ first second one two, points first one → otherPoints second two →
      point (keep first second) (wrap one two)) :
    Resolves (do return wrap (← reader) (← other)) (do return keep (← raw) (← otherRaw)) ground
      point := by
  constructor
  · intro input value rest read
    simp only [bind_eq_ok_iff, pure_eq_ok_iff] at read
    obtain ⟨one, middle, readOne, two, _, readTwo, rfl, rfl⟩ := read
    obtain ⟨first, foundFirst, held, leads⟩ := resolves.sound readOne
    obtain ⟨second, foundSecond, heldOther, leadsOther⟩ := resolvesOther.sound readTwo
    refine ⟨keep first second, ?_, (grounds _ _).mpr ⟨held, heldOther⟩,
      pointed _ _ _ _ leads leadsOther⟩
    simp only [bind_eq_ok_iff, pure_eq_ok_iff]
    exact ⟨first, middle, foundFirst, second, _, foundSecond, rfl, rfl⟩
  · intro input encoded rest read held
    simp only [bind_eq_ok_iff, pure_eq_ok_iff] at read ⊢
    obtain ⟨first, middle, readFirst, second, _, readSecond, rfl, rfl⟩ := read
    obtain ⟨held, heldOther⟩ := (grounds first second).mp held
    obtain ⟨one, foundOne⟩ := resolves.complete readFirst held
    obtain ⟨two, foundTwo⟩ := resolvesOther.complete readSecond heldOther
    exact ⟨wrap one two, one, middle, foundOne, two, _, foundTwo, rfl, rfl⟩

/-- Both readers start with the same bytes. -/
theorem resolves_after {C : Type} (shared : Reader C) {next : C → Reader A} {rawNext : C → Reader B}
    (each : ∀ value, (next value).Resolves (rawNext value) grounded points) :
    Resolves (shared >>= next) (shared >>= rawNext) grounded points := by
  constructor
  · intro input value rest read
    obtain ⟨first, middle, readFirst, read⟩ := bind_eq_ok_iff.mp read
    obtain ⟨encoded, found, held⟩ := (each first).sound read
    exact ⟨encoded, bind_eq_ok_iff.mpr ⟨first, middle, readFirst, found⟩, held⟩
  · intro input encoded rest read held
    obtain ⟨first, middle, readFirst, read⟩ := bind_eq_ok_iff.mp read
    obtain ⟨value, found⟩ := (each first).complete read held
    exact ⟨value, bind_eq_ok_iff.mpr ⟨first, middle, readFirst, found⟩⟩

/-- A value without positions is resolved. -/
theorem resolves_pure {value : A} {encoded : B} (held : grounded encoded)
    (leads : points encoded value) : Resolves (pure value) (pure encoded) grounded points := by
  constructor
  · intro input result rest read
    obtain ⟨rfl, rfl⟩ := pure_eq_ok_iff.mp read
    exact ⟨encoded, rfl, held, leads⟩
  · intro input result rest read _
    obtain ⟨rfl, rfl⟩ := pure_eq_ok_iff.mp read
    exact ⟨value, rfl⟩

theorem resolves_fail (error : Error) : Resolves (fail error) (fail error) grounded points := by
  constructor
  · intro input value rest read
    exact (fail_eq_ok_iff.mp read).elim
  · intro input encoded rest read
    exact (fail_eq_ok_iff.mp read).elim

/-- A payload is read as far as the reader goes. -/
theorem onPayload_eq_ok_iff {payload : Bytes} {value : A} {used : Nat} :
    onPayload payload reader = .ok (value, used) ↔
      ∃ rest, reader payload = .ok (value, rest) ∧ used = payload.length - rest.length := by
  unfold onPayload
  cases reader payload with
  | error error => simp
  | ok pair =>
    obtain ⟨result, rest⟩ := pair
    simp [eq_comm]

/-- Both readers have to use up a payload. -/
theorem Resolves.payload (resolves : reader.Resolves raw grounded points) (name : String) :
    (Reader.payload name reader).Resolves (Reader.payload name raw) grounded points := by
  constructor
  · intro input value rest read
    simp only [Reader.payload, bind_eq_ok_iff, ofExcept_eq_ok_iff, pure_eq_ok_iff,
      Prod.exists, onPayload_eq_ok_iff] at read ⊢
    obtain ⟨length, afterLength, sized, payload, afterPayload, taken, inner, used, _,
      ⟨⟨left, read, count⟩, rfl⟩, _, _, ⟨checked, rfl⟩, rfl, rfl⟩ := read
    obtain ⟨encoded, found, held, leads⟩ := resolves.sound read
    exact ⟨encoded, ⟨length, afterLength, sized, payload, _, taken, encoded, used, _,
      ⟨⟨left, found, count⟩, rfl⟩, _, _, ⟨checked, rfl⟩, rfl, rfl⟩, held, leads⟩
  · intro input encoded rest read held
    simp only [Reader.payload, bind_eq_ok_iff, ofExcept_eq_ok_iff, pure_eq_ok_iff,
      Prod.exists, onPayload_eq_ok_iff] at read ⊢
    obtain ⟨length, afterLength, sized, payload, afterPayload, taken, inner, used, _,
      ⟨⟨left, read, count⟩, rfl⟩, _, _, ⟨checked, rfl⟩, rfl, rfl⟩ := read
    obtain ⟨value, found⟩ := resolves.complete read held
    exact ⟨value, length, afterLength, sized, payload, _, taken, value, used, _,
      ⟨⟨left, found, count⟩, rfl⟩, _, _, ⟨checked, rfl⟩, rfl, rfl⟩

end Reader

/-- The positions of an exception range. -/
structure EncodedRange where
  start : UInt16
  stop : UInt16
  handler : UInt16

namespace EncodedRange

def read : Reader EncodedRange := do
  let start ← Reader.u16
  let stop ← Reader.u16
  let handler ← Reader.u16
  let _ ← Reader.u16
  return ⟨start, stop, handler⟩

structure Grounded (code : DecodedCode) (encoded : EncodedRange) : Prop where
  start : code.StartsAt encoded.start.toNat
  stop : code.StopsAt encoded.stop.toNat
  handler : code.StartsAt encoded.handler.toNat

structure Points (positions : Positions) (codeLength : Nat) (encoded : EncodedRange)
    (range : ExceptionRange) : Prop where
  start : positions range.start = .ok encoded.start.toNat
  stop : positions.Ends codeLength encoded.stop.toNat range.stop
  handler : positions range.handler = .ok encoded.handler.toNat

end EncodedRange

/-- The positions of a local variable, which has a length in place of an end. -/
structure EncodedVariable where
  start : UInt16
  length : UInt16

namespace EncodedVariable

def read : Reader EncodedVariable := do
  let start ← Reader.u16
  let length ← Reader.u16
  let _ ← Reader.u16
  let _ ← Reader.u16
  let _ ← Reader.u16
  return ⟨start, length⟩

/-- The exclusive end of the range of a variable. -/
def stop (encoded : EncodedVariable) : Nat := encoded.start.toNat + encoded.length.toNat

structure Grounded (code : DecodedCode) (encoded : EncodedVariable) : Prop where
  start : code.StartsAt encoded.start.toNat
  stop : code.StopsAt encoded.stop

structure Points (positions : Positions) (codeLength : Nat) (encoded : EncodedVariable)
    (entry : LocalVariable) : Prop where
  start : positions entry.start = .ok encoded.start.toNat
  stop : positions.Ends codeLength encoded.stop entry.stop

end EncodedVariable

/-- The position of a line number. -/
def LineNumber.readStart : Reader UInt16 := do
  let start ← Reader.u16
  let _ ← Reader.u16
  return start

/-- The positions in a type, of which there is one if it names the creator of an object. -/
def VerificationType.readOperands : Reader (List UInt16) := do
  let tag ← Reader.u8
  match tag with
  | 0 | 1 | 2 | 3 | 4 | 5 | 6 => return []
  | 7 =>
    let _ ← Reader.u16
    return []
  | 8 => return [← Reader.u16]
  | _ => Reader.fail (.unknownVerificationType tag)

/-- The delta of a frame and the positions in its types. -/
structure EncodedFrame where
  delta : UInt16
  operands : List UInt16

def EncodedFrame.read : Reader EncodedFrame := do
  let tag ← Reader.u8
  if tag < 64 then return ⟨tag.toUInt16, []⟩
  else if tag < 128 then return ⟨tag.toUInt16 - 64, ← VerificationType.readOperands⟩
  else if tag < 247 then Reader.fail (.unknownFrameType tag)
  else
    let delta ← Reader.u16
    if tag = 247 then return ⟨delta, ← VerificationType.readOperands⟩
    else if tag < 251 then return ⟨delta, []⟩
    else if tag = 251 then return ⟨delta, []⟩
    else if tag < 255 then
      let added ← Reader.many VerificationType.readOperands (tag.toNat - 251)
      return ⟨delta, added.flatten⟩
    else
      let locals ← Reader.table VerificationType.readOperands
      let stack ← Reader.table VerificationType.readOperands
      return ⟨delta, locals.flatten ++ stack.flatten⟩

/-- The positions in a frame after its tag. -/
def FrameTag.readOperands : FrameTag → Reader EncodedFrame
  | .same delta => return ⟨delta, []⟩
  | .oneItem delta => do return ⟨delta, ← VerificationType.readOperands⟩
  | .oneItemExtended => do
    let delta ← Reader.u16
    return ⟨delta, ← VerificationType.readOperands⟩
  | .chop _ | .sameExtended => do return ⟨← Reader.u16, []⟩
  | .append count => do
    let delta ← Reader.u16
    let added ← Reader.many VerificationType.readOperands count
    return ⟨delta, added.flatten⟩
  | .full => do
    let delta ← Reader.u16
    let locals ← Reader.table VerificationType.readOperands
    let stack ← Reader.table VerificationType.readOperands
    return ⟨delta, locals.flatten ++ stack.flatten⟩

/-- Which operands a frame has depends on its tag. -/
theorem EncodedFrame.read_eq :
    EncodedFrame.read = FrameTag.dispatch FrameTag.readOperands := by
  unfold EncodedFrame.read FrameTag.dispatch
  congr 1
  funext byte
  unfold FrameTag.ofByte?
  split_ifs <;> rfl

/-- The positions of a table that accompanies code. -/
inductive EncodedTable where
  | frames (entries : List EncodedFrame)
  | lines (starts : List UInt16)
  | variables (entries : List EncodedVariable)
  | variableTypes (entries : List EncodedVariable)

namespace EncodedTable

/-- The reader of the positions in a table of some name. -/
def reader? : String → Option (Reader EncodedTable)
  | "StackMapTable" => some do return .frames (← Reader.table EncodedFrame.read)
  | "LineNumberTable" => some do return .lines (← Reader.table LineNumber.readStart)
  | "LocalVariableTable" => some do return .variables (← Reader.table EncodedVariable.read)
  | "LocalVariableTypeTable" => some do return .variableTypes (← Reader.table EncodedVariable.read)
  | _ => none

def read (pool : Pool) : Reader EncodedTable := do
  let nameIndex ← Reader.u16
  let name ← Reader.ofExcept (pool.text nameIndex)
  match reader? name with
  | some reader => Reader.payload name reader
  | none =>
    let length ← Reader.u32
    let _ ← Reader.bytes length.toNat
    Reader.fail (.unknownAttribute name)

end EncodedTable

/-- Operands are the positions of creators, in the same order. -/
def Positions.Names (positions : Positions) (operands : List UInt16) (creators : List Handle) : Prop :=
  List.Forall₂ (fun operand creator => positions creator = .ok operand.toNat) operands creators

/-- The instructions that created the uninitialized objects of a frame. -/
def FrameKind.creators (kind : FrameKind) : List Handle :=
  kind.types.filterMap VerificationType.creator?

namespace EncodedFrame

/-- Instructions start where the deltas of frames lead, the first of them from a previous frame, and
at all operands. -/
structure TableGrounded (code : DecodedCode) (previous : Option Nat) (encoded : List EncodedFrame) :
    Prop where
  targets : ∀ bci ∈ Frame.positionsFrom previous (encoded.map EncodedFrame.delta), code.StartsAt bci
  operands : ∀ entry ∈ encoded, ∀ operand ∈ entry.operands, code.StartsAt operand.toNat

/-- Frames describe the instructions that their deltas lead to and name those at their operands. -/
structure TablePoints (positions : Positions) (previous : Option Nat) (encoded : List EncodedFrame)
    (frames : List Frame) : Prop where
  targets : List.Forall₂ (fun bci frame => positions frame.target = .ok bci)
    (Frame.positionsFrom previous (encoded.map EncodedFrame.delta)) frames
  operands : List.Forall₂ (fun entry frame => positions.Names entry.operands frame.kind.creators)
    encoded frames

end EncodedFrame

namespace EncodedTable

def Grounded (code : DecodedCode) : EncodedTable → Prop
  | .frames entries => EncodedFrame.TableGrounded code none entries
  | .lines starts => ∀ start ∈ starts, code.StartsAt start.toNat
  | .variables entries | .variableTypes entries => ∀ entry ∈ entries, entry.Grounded code

inductive Points (positions : Positions) (codeLength : Nat) : EncodedTable → CodeTable → Prop
  | frames {encoded : List EncodedFrame} {frames : List Frame}
      (points : EncodedFrame.TablePoints positions none encoded frames) :
      Points positions codeLength (.frames encoded) (.frames frames)
  | lines {starts : List UInt16} {entries : List LineNumber}
      (points : List.Forall₂ (fun start entry => positions entry.start = .ok start.toNat) starts
        entries) : Points positions codeLength (.lines starts) (.lines entries)
  | variables {encoded : List EncodedVariable} {entries : List LocalVariable}
      (points : List.Forall₂ (EncodedVariable.Points positions codeLength) encoded entries) :
      Points positions codeLength (.variables encoded) (.variables entries)
  | variableTypes {encoded : List EncodedVariable} {entries : List LocalVariable}
      (points : List.Forall₂ (EncodedVariable.Points positions codeLength) encoded entries) :
      Points positions codeLength (.variableTypes encoded) (.variableTypes entries)

end EncodedTable

section Rows

variable {positions : Positions} {code : DecodedCode} (agree : positions.Match code)
  (increasing : code.Increasing)

include agree increasing

/-- Reading a range resolves its positions. -/
theorem ExceptionRange.resolves :
    (ExceptionRange.read code).Resolves EncodedRange.read (EncodedRange.Grounded code)
      (EncodedRange.Points positions code.extent) := by
  apply resolves_after
  intro start
  apply resolves_after
  intro stop
  apply resolves_after
  intro handler
  apply resolves_after
  intro catchType
  constructor
  · intro input range rest read
    simp only [bind_eq_ok_iff, ofExcept_eq_ok_iff, pure_eq_ok_iff] at read
    obtain ⟨first, _, ⟨startAt, rfl⟩, last, _, ⟨stopAt, rfl⟩, third, _, ⟨handlerAt, rfl⟩, rfl, rfl⟩ :=
      read
    refine ⟨⟨start, stop, handler⟩, rfl, ⟨?_, ?_, ?_⟩, ⟨?_, ?_, ?_⟩⟩
    · exact (code.startsAt_iff increasing _).mpr ⟨first, startAt⟩
    · exact (code.stopsAt_iff increasing _).mpr ⟨last, stopAt⟩
    · exact (code.startsAt_iff increasing _).mpr ⟨third, handlerAt⟩
    · exact (agree.handleAt_iff increasing _ _).mp startAt
    · exact agree.ends increasing stopAt
    · exact (agree.handleAt_iff increasing _ _).mp handlerAt
  · intro input encoded rest read grounded
    obtain ⟨rfl, rfl⟩ := pure_eq_ok_iff.mp read
    obtain ⟨first, startAt⟩ := (code.startsAt_iff increasing _).mp grounded.start
    obtain ⟨last, stopAt⟩ := (code.stopsAt_iff increasing _).mp grounded.stop
    obtain ⟨third, handlerAt⟩ := (code.startsAt_iff increasing _).mp grounded.handler
    simp only [bind_eq_ok_iff, ofExcept_eq_ok_iff, pure_eq_ok_iff]
    exact ⟨_, first, _, ⟨startAt, rfl⟩, last, _, ⟨stopAt, rfl⟩, third, _, ⟨handlerAt, rfl⟩, rfl, rfl⟩

theorem LineNumber.resolves :
    (LineNumber.read code).Resolves LineNumber.readStart (fun start => code.StartsAt start.toNat)
      (fun start entry => positions entry.start = .ok start.toNat) := by
  apply resolves_after
  intro start
  apply resolves_after
  intro line
  constructor
  · intro input entry rest read
    simp only [bind_eq_ok_iff, ofExcept_eq_ok_iff, pure_eq_ok_iff] at read
    obtain ⟨handle, _, ⟨startAt, rfl⟩, rfl, rfl⟩ := read
    exact ⟨start, rfl, (code.startsAt_iff increasing _).mpr ⟨handle, startAt⟩,
      (agree.handleAt_iff increasing _ _).mp startAt⟩
  · intro input encoded rest read grounded
    obtain ⟨rfl, rfl⟩ := pure_eq_ok_iff.mp read
    obtain ⟨handle, startAt⟩ := (code.startsAt_iff increasing _).mp grounded
    exact ⟨_, bind_of_eq_ok (ofExcept_eq_ok_iff.mpr ⟨startAt, rfl⟩)⟩

-- Start and end are looked up before the rest of the row is read, while positions are kept whether or
-- not anything starts there.
theorem LocalVariable.resolves :
    (LocalVariable.read code).Resolves EncodedVariable.read (EncodedVariable.Grounded code)
      (EncodedVariable.Points positions code.extent) := by
  constructor
  · intro input entry rest read
    simp only [LocalVariable.read, bind_eq_ok_iff, ofExcept_eq_ok_iff, pure_eq_ok_iff,
      ← Int.natCast_add] at read
    obtain ⟨start, _, readStart, length, _, readLength, first, _, ⟨startAt, rfl⟩, last, _,
      ⟨stopAt, rfl⟩, name, _, readName, descriptor, _, readDescriptor, index, _, readIndex, rfl, rfl⟩ :=
      read
    refine ⟨⟨start, length⟩, ?_, ⟨?_, ?_⟩, ⟨?_, ?_⟩⟩
    · simp only [EncodedVariable.read, bind_eq_ok_iff, pure_eq_ok_iff]
      exact ⟨start, _, readStart, length, _, readLength, name, _, readName, descriptor, _,
        readDescriptor, index, _, readIndex, rfl, rfl⟩
    · exact (code.startsAt_iff increasing _).mpr ⟨first, startAt⟩
    · exact (code.stopsAt_iff increasing _).mpr ⟨last, stopAt⟩
    · exact (agree.handleAt_iff increasing _ _).mp startAt
    · exact agree.ends increasing stopAt
  · intro input encoded rest read grounded
    simp only [EncodedVariable.read, bind_eq_ok_iff, pure_eq_ok_iff] at read
    obtain ⟨start, _, readStart, length, _, readLength, name, _, readName, descriptor, _,
      readDescriptor, index, _, readIndex, rfl, rfl⟩ := read
    obtain ⟨first, startAt⟩ := (code.startsAt_iff increasing _).mp grounded.start
    obtain ⟨last, stopAt⟩ := (code.stopsAt_iff increasing _).mp grounded.stop
    simp only [LocalVariable.read, bind_eq_ok_iff, ofExcept_eq_ok_iff, pure_eq_ok_iff,
      ← Int.natCast_add]
    exact ⟨_, start, _, readStart, length, _, readLength, first, _, ⟨startAt, rfl⟩, last, _,
      ⟨stopAt, rfl⟩, name, _, readName, descriptor, _, readDescriptor, index, _, readIndex, rfl, rfl⟩

/-- Reading a type resolves the position of its creator. -/
theorem VerificationType.resolves :
    (VerificationType.read code).Resolves VerificationType.readOperands
      (fun operands => ∀ operand ∈ operands, code.StartsAt operand.toNat)
      (fun operands type => positions.Names operands type.creator?.toList) := by
  unfold VerificationType.read VerificationType.readOperands
  apply resolves_after
  intro tag
  split
  iterate 7 exact resolves_pure (by simp) .nil
  · apply resolves_after
    intro index
    exact resolves_pure (by simp) .nil
  · apply resolves_after
    intro operand
    constructor
    · intro input type rest read
      simp only [bind_eq_ok_iff, ofExcept_eq_ok_iff, pure_eq_ok_iff] at read
      obtain ⟨creator, _, ⟨found, rfl⟩, rfl, rfl⟩ := read
      refine ⟨[operand], rfl, ?_, .cons ((agree.handleAt_iff increasing _ _).mp found) .nil⟩
      intro other present
      rw [List.mem_singleton.mp present]
      exact (code.startsAt_iff increasing _).mpr ⟨creator, found⟩
    · intro input operands rest read grounded
      obtain ⟨rfl, rfl⟩ := pure_eq_ok_iff.mp read
      obtain ⟨creator, found⟩ :=
        (code.startsAt_iff increasing _).mp (grounded operand (List.mem_singleton.mpr rfl))
      exact ⟨_, bind_of_eq_ok (ofExcept_eq_ok_iff.mpr ⟨found, rfl⟩)⟩
  -- The reader of positions has no case for such a tag either.
  · simp only [*, resolves_fail]

omit agree increasing in
/-- The operands of several types name their creators one after the other. -/
theorem Positions.names_flatten {operands : List (List UInt16)} {types : List VerificationType}
    (named : List.Forall₂ (fun own type => positions.Names own type.creator?.toList) operands types) :
    positions.Names operands.flatten (types.filterMap VerificationType.creator?) := by
  induction named with
  | nil => exact .nil
  | @cons own type operands types first _ inductionHypothesis =>
    rw [List.flatten_cons, List.filterMap_cons]
    cases creator : type.creator? with
    | none =>
      rw [creator] at first
      cases first
      exact inductionHypothesis
    | some handle =>
      rw [creator] at first
      cases first with
      | cons here none =>
        cases none
        exact .cons here inductionHypothesis

/-- The tag says how many types follow, and each of them may name an instruction. -/
theorem FrameTag.resolves (tag : FrameTag) :
    (tag.read code).Resolves tag.readOperands
      (fun encoded => ∀ operand ∈ encoded.operands, code.StartsAt operand.toNat)
      (fun encoded frame => frame.1 = encoded.delta ∧
        positions.Names encoded.operands frame.2.creators) := by
  have item := VerificationType.resolves agree increasing
  have single (delta : UInt16) (wrap : VerificationType → FrameKind)
      (types : ∀ item, (wrap item).types = [item]) :
      Resolves (do return (delta, wrap (← VerificationType.read code)))
        (do return ⟨delta, ← VerificationType.readOperands⟩)
        (fun encoded : EncodedFrame => ∀ operand ∈ encoded.operands, code.StartsAt operand.toNat)
        (fun encoded frame => frame.1 = encoded.delta ∧
          positions.Names encoded.operands frame.2.creators) := by
    apply item.map (fun item => (delta, wrap item)) (EncodedFrame.mk delta)
    · intro operands
      rfl
    · intro operands item named
      have creators := Positions.names_flatten (.cons named .nil)
      rw [FrameKind.creators, types]
      simp only [List.flatten_cons, List.flatten_nil, List.append_nil] at creators
      exact ⟨rfl, creators⟩
  cases tag with
  | same delta => exact resolves_pure (by simp) ⟨rfl, .nil⟩
  | oneItem delta => exact single delta .oneItem fun _ => rfl
  | oneItemExtended => exact resolves_after _ fun delta => single delta .oneItemExtended fun _ => rfl
  | chop | sameExtended => exact resolves_after _ fun delta => resolves_pure (by simp) ⟨rfl, .nil⟩
  | append count =>
    apply resolves_after
    intro delta
    apply (item.many count).map (fun added => (delta, FrameKind.append added))
      (fun added => EncodedFrame.mk delta added.flatten)
    · intro added
      simp only [List.mem_flatten]
      grind
    · intro added types named
      exact ⟨rfl, Positions.names_flatten named⟩
  | full =>
    apply resolves_after
    intro delta
    apply item.table.map₂ item.table (fun locals stack => (delta, FrameKind.full locals stack))
      (fun locals stack => EncodedFrame.mk delta (locals.flatten ++ stack.flatten))
    · intro locals stack
      simp only [List.mem_append, List.mem_flatten]
      grind
    · intro locals stack localTypes stackTypes namedLocals namedStack
      have creators := Positions.names_flatten (List.rel_append namedLocals namedStack)
      rw [List.flatten_append] at creators
      exact ⟨rfl, creators⟩

/-- Reading an encoding resolves the positions of its creators. -/
theorem Frame.resolvesKind :
    (Frame.readKind code).Resolves EncodedFrame.read
      (fun encoded => ∀ operand ∈ encoded.operands, code.StartsAt operand.toNat)
      (fun encoded frame => frame.1 = encoded.delta ∧
        positions.Names encoded.operands frame.2.creators) := by
  rw [Frame.readKind_eq, EncodedFrame.read_eq]
  apply resolves_after
  intro byte
  split
  · exact FrameTag.resolves agree increasing _
  · exact resolves_fail _

/-- Each frame is looked up at the position its delta leads to from the frame before. -/
theorem Frame.readOnto_sound (count : Nat) {previous : Option Nat} {done frames : List Frame}
    {input rest : Bytes} (before : List EncodedFrame)
    (read : Frame.readOnto code count previous done input = .ok (frames, rest)) :
    ∃ more encoded, frames = done.reverse ++ more ∧
      manyOnto EncodedFrame.read count before input = .ok (before.reverse ++ encoded, rest) ∧
      EncodedFrame.TableGrounded code previous encoded ∧
      EncodedFrame.TablePoints positions previous encoded more := by
  induction count generalizing previous done before input with
  | zero =>
    cases read
    exact ⟨[], [], by simp, by simp [manyOnto], ⟨by simp [Frame.positionsFrom], by simp⟩, .nil, .nil⟩
  | succ count inductionHypothesis =>
    obtain ⟨delta, kind, middle, target, kinded, located, read⟩ :=
      Frame.readOnto_succ_eq_ok_iff.mp read
    obtain ⟨entry, found, ground, rfl, named⟩ := (Frame.resolvesKind agree increasing).sound kinded
    obtain ⟨more, encoded, rfl, others, grounds, points⟩ :=
      inductionHypothesis (entry :: before) read
    refine ⟨⟨target, entry.delta, kind⟩ :: more, entry :: encoded, by simp,
      by simp [manyOnto, found, others], ⟨?_, ?_⟩, ⟨?_, .cons named points.operands⟩⟩
    · intro bci present
      rcases List.mem_cons.mp present with rfl | later
      · exact (code.startsAt_iff increasing _).mpr ⟨target, located⟩
      · exact grounds.targets bci later
    · intro other present
      rcases List.mem_cons.mp present with rfl | later
      · exact ground
      · exact grounds.operands other later
    · exact .cons ((agree.handleAt_iff increasing _ _).mp located) points.targets

/-- Frames can be read if all of their positions are grounded. -/
theorem Frame.readOnto_complete (count : Nat) {before result : List EncodedFrame}
    {input rest : Bytes}
    (read : manyOnto EncodedFrame.read count before input = .ok (result, rest)) :
    ∃ encoded, result = before.reverse ++ encoded ∧
      ∀ previous, EncodedFrame.TableGrounded code previous encoded →
        ∀ done, ∃ frames, Frame.readOnto code count previous done input = .ok (frames, rest) := by
  induction count generalizing before input with
  | zero =>
    cases read
    exact ⟨[], by simp, fun _ _ done => ⟨done.reverse, rfl⟩⟩
  | succ count inductionHypothesis =>
    obtain ⟨entry, middle, first, read⟩ := manyOnto_succ_eq_ok_iff.mp read
    obtain ⟨encoded, rfl, continued⟩ := inductionHypothesis read
    refine ⟨entry :: encoded, by simp, ?_⟩
    intro previous grounds done
    have kinds := Frame.resolvesKind agree increasing
    obtain ⟨⟨delta, kind⟩, kinded⟩ := kinds.complete first (grounds.operands entry (by simp))
    -- Reading the kind again for its positions shows that both readers have found one delta.
    obtain ⟨other, again, _, rfl, _⟩ := kinds.sound kinded
    obtain rfl : entry = other := by
      rw [first, Except.ok.injEq, Prod.mk.injEq] at again
      exact again.1
    obtain ⟨target, located⟩ := (code.startsAt_iff increasing _).mp
      (grounds.targets (position previous entry.delta) List.mem_cons_self)
    obtain ⟨frames, others⟩ := continued (some (position previous entry.delta))
      ⟨fun bci present => grounds.targets bci (List.mem_cons_of_mem _ present),
        fun other present => grounds.operands other (by simp [present])⟩
      (⟨target, entry.delta, kind⟩ :: done)
    exact ⟨frames, by simp [Frame.readOnto, kinded, located, others]⟩

/-- Reading a table of frames resolves its positions. -/
theorem Frame.resolves :
    (Frame.readTable code).Resolves (Reader.table EncodedFrame.read)
      (EncodedFrame.TableGrounded code none) (EncodedFrame.TablePoints positions none) := by
  apply resolves_after
  intro count
  constructor
  · intro input frames rest read
    obtain ⟨more, encoded, same, found, grounds, points⟩ :=
      Frame.readOnto_sound agree increasing count.toNat [] read
    rw [List.reverse_nil, List.nil_append] at same
    exact ⟨encoded, found, grounds, same ▸ points⟩
  · intro input encoded rest read grounds
    obtain ⟨more, same, continued⟩ := Frame.readOnto_complete agree increasing count.toNat read
    rw [List.reverse_nil, List.nil_append] at same
    exact continued none (same ▸ grounds) []

/-- Names stand for the same tables with positions and with handles. -/
theorem CodeTable.resolves (name : String) :
    (CodeTable.reader? code name = none ∧ EncodedTable.reader? name = none) ∨
      ∃ reader raw, CodeTable.reader? code name = some reader ∧
        EncodedTable.reader? name = some raw ∧
        reader.Resolves raw (EncodedTable.Grounded code)
          (EncodedTable.Points positions code.extent) := by
  have variableRows := (LocalVariable.resolves agree increasing).table
  unfold CodeTable.reader?
  split
  · refine .inr ⟨_, _, rfl, rfl, ?_⟩
    apply (Frame.resolves agree increasing).map CodeTable.frames EncodedTable.frames
    · exact fun _ => Iff.rfl
    · exact fun _ _ points => .frames points
  · refine .inr ⟨_, _, rfl, rfl, ?_⟩
    apply (LineNumber.resolves agree increasing).table.map CodeTable.lines EncodedTable.lines
    · exact fun _ => Iff.rfl
    · exact fun _ _ points => .lines points
  · refine .inr ⟨_, _, rfl, rfl, ?_⟩
    apply variableRows.map CodeTable.variables EncodedTable.variables
    · exact fun _ => Iff.rfl
    · exact fun _ _ points => .variables points
  · refine .inr ⟨_, _, rfl, rfl, ?_⟩
    apply variableRows.map CodeTable.variableTypes EncodedTable.variableTypes
    · exact fun _ => Iff.rfl
    · exact fun _ _ points => .variableTypes points
  · refine .inl ⟨rfl, ?_⟩
    unfold EncodedTable.reader?
    split
    iterate 4 contradiction
    rfl

/-- Reading an attribute resolves the positions of its table. -/
theorem CodeAttribute.resolves (pool : Pool) :
    (CodeAttribute.read pool code).Resolves (EncodedTable.read pool) (EncodedTable.Grounded code)
      (fun encoded entry => EncodedTable.Points positions code.extent encoded entry.table) := by
  unfold CodeAttribute.read EncodedTable.read
  apply resolves_after
  intro nameIndex
  apply resolves_after
  intro name
  rcases CodeTable.resolves agree increasing name with ⟨unknown, unknownRaw⟩ | ⟨reader, raw, known,
    knownRaw, resolves⟩
  · rw [unknown, unknownRaw]
    apply resolves_after
    intro length
    apply resolves_after
    intro skipped
    exact resolves_fail _
  · rw [known, knownRaw]
    simp only
    rw [← bind_pure (Reader.payload name raw)]
    apply (resolves.payload name).map (CodeAttribute.mk nameIndex) id
    · exact fun _ => Iff.rfl
    · exact fun _ _ points => points

end Rows

end Classfile
