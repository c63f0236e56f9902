import Classfile.Proofs.Progress
import Classfile.Proofs.References

/-!
How work on an intact body ends.

Whatever is computed from an intact body does not come upon a handle that names no instruction.
Computing the layout, extending branches and relaxation may fail for other reasons, even halfway, but
the body they leave is intact in any case. `Edit.Abandons` lists the ways in which an extension fails,
as `Edit.Extends` lists those in which it succeeds.
-/

namespace Classfile

/-- The error blames a handle that names no instruction. -/
def Error.isStale : Error → Bool
  | .staleHandle _ | .removedTarget _ => true
  | _ => false

/-- The error is about what a pool takes in, not about any code. -/
def Error.blamesPool : Error → Bool
  | .poolFull _ | .utf8TooLong _ | .badDescriptor _ => true
  | _ => false

/-- An error about a pool does not blame a handle. -/
theorem Error.not_isStale_of_blamesPool {error : Error} (blames : error.blamesPool = true) :
    error.isStale = false := by
  cases error <;> first | rfl | cases blames

/-- A computation does not fail on a handle that names no instruction. -/
def NeverStale {A : Type} (result : Except Error A) : Prop :=
  ∀ error, result = .error error → error.isStale = false

section NeverStale

variable {A B : Type}

theorem neverStale_ok (value : A) : NeverStale (.ok value) := by
  rintro _ ⟨⟩

/-- A failure is fine if it blames no handle. -/
theorem neverStale_error {error : Error} (fine : error.isStale = false) :
    NeverStale (.error error : Except Error A) := by
  rintro _ ⟨⟩
  exact fine

/-- Two steps that blame no handle do so one after the other. -/
theorem NeverStale.bind {first : Except Error A} {next : A → Except Error B}
    (sure : NeverStale first) (continued : ∀ value, first = .ok value → NeverStale (next value)) :
    NeverStale (first >>= next) := by
  cases first with
  | ok value => exact continued value rfl
  | error error => exact neverStale_error (sure error rfl)

theorem neverStale_mapM {act : A → Except Error B} {items : List A}
    (each : ∀ item ∈ items, NeverStale (act item)) : NeverStale (items.mapM act) := by
  induction items with
  | nil => exact neverStale_ok []
  | cons item items inductionHypothesis =>
    rw [List.mapM_cons]
    refine (each item (by simp)).bind fun value _ => ?_
    exact (inductionHypothesis fun other present => each other (by simp [present])).bind
      fun others _ => neverStale_ok _

/-- Two steps that succeed do so one after the other. -/
theorem exists_bind {first : Except Error A} {next : A → Except Error B}
    (sure : ∃ value, first = .ok value) (continued : ∀ value, ∃ result, next value = .ok result) :
    ∃ result, (first >>= next) = .ok result := by
  obtain ⟨value, rfl⟩ := sure
  exact continued value

/-- Steps that succeed from any state do so one after the other. -/
theorem exists_foldlM {act : B → A → Except Error B}
    (each : ∀ state item, ∃ next, act state item = .ok next)
    (items : List A) (start : B) : ∃ last, items.foldlM act start = .ok last := by
  induction items generalizing start with
  | nil => exact ⟨start, rfl⟩
  | cons item items inductionHypothesis =>
    obtain ⟨next, done⟩ := each start item
    obtain ⟨last, continued⟩ := inductionHypothesis next
    rw [List.foldlM_cons, done]
    exact ⟨last, continued⟩

end NeverStale

/-- Writing an instruction involves no handles. -/
theorem Instruction.neverStale_toBytes (instruction : Instruction Int32) :
    NeverStale instruction.toBytes := by
  have operands : NeverStale instruction.operandBytes := by
    cases instruction with
    | branch opcode offset =>
      rw [operandBytes]
      split
      · exact neverStale_ok _
      · exact neverStale_error rfl
    | tableSwitch padding default low targets =>
      rw [operandBytes]
      split
      · exact neverStale_ok _
      · exact neverStale_error rfl
    | _ => exact neverStale_ok _
  rw [toBytes]
  split
  · exact neverStale_ok _
  · rename_i error failed
    exact neverStale_error (operands error failed)

section Writing

variable {positions : Positions} {codeLength : Nat}

/-- The position of an end is found if that of its handle is. -/
theorem Positions.neverStale_ofStop {stop : Option Handle}
    (sure : ∀ handle ∈ stop.toList, NeverStale (positions handle)) :
    NeverStale (positions.ofStop codeLength stop) := by
  cases stop with
  | none => exact neverStale_ok codeLength
  | some handle => exact sure handle (by simp)

/-- A range is written if the handles it refers to have positions. -/
theorem ExceptionRange.neverStale_toBytes {range : ExceptionRange}
    (sure : ∀ handle ∈ range.references, NeverStale (positions handle)) :
    NeverStale (range.toBytes positions codeLength) := by
  have stopped : NeverStale (positions.ofStop codeLength range.stop) :=
    Positions.neverStale_ofStop fun handle present => sure handle (by simp_all [references])
  refine (sure range.start (by simp [references])).bind fun _ _ => stopped.bind fun _ _ => ?_
  exact (sure range.handler (by simp [references])).bind fun _ _ => neverStale_ok _

theorem LocalVariable.neverStale_toBytes {entry : LocalVariable}
    (sure : ∀ handle ∈ entry.references, NeverStale (positions handle)) :
    NeverStale (entry.toBytes positions codeLength) := by
  have stopped : NeverStale (positions.ofStop codeLength entry.stop) :=
    Positions.neverStale_ofStop fun handle present => sure handle (by simp_all [references])
  refine (sure entry.start (by simp [references])).bind fun _ _ => ?_
  exact stopped.bind fun _ _ => neverStale_ok _

theorem VerificationType.neverStale_toBytes {type : VerificationType}
    (sure : ∀ creator, type.creator? = some creator → NeverStale (positions creator)) :
    NeverStale (type.toBytes positions) := by
  cases type with
  | uninitialized creator => exact (sure creator rfl).bind fun _ _ => neverStale_ok _
  | _ => exact neverStale_ok _

theorem Frame.neverStale_toBytes {frame : Frame}
    (sure : ∀ handle ∈ frame.handles, NeverStale (positions handle)) :
    NeverStale (frame.toBytes positions) := by
  have typed (type : VerificationType) (present : type ∈ frame.kind.types) :
      NeverStale (type.toBytes positions) := by
    refine VerificationType.neverStale_toBytes fun creator named => sure creator ?_
    exact List.mem_cons_of_mem _ (List.mem_filterMap.mpr ⟨type, present, named⟩)
  have listed (types : List VerificationType) (within : ∀ type ∈ types, type ∈ frame.kind.types) :
      NeverStale (VerificationType.listToBytes positions types) :=
    (neverStale_mapM fun type present => typed type (within type present)).bind
      fun _ _ => neverStale_ok _
  obtain ⟨target, delta, kind⟩ := frame
  rw [toBytes]
  split
  · exact neverStale_error rfl
  · cases kind with
    | same | sameExtended => exact neverStale_ok _
    | oneItem item | oneItemExtended item =>
      exact (typed item (by simp [FrameKind.types])).bind fun _ _ => neverStale_ok _
    | chop count =>
      dsimp only
      split
      · exact neverStale_ok _
      · exact neverStale_error rfl
    | append added =>
      dsimp only
      split
      · exact (listed added fun _ present => present).bind fun _ _ => neverStale_ok _
      · exact neverStale_error rfl
    | full locals stack =>
      refine (listed locals fun _ present => List.mem_append_left _ present).bind fun _ _ => ?_
      exact (listed stack fun _ present => List.mem_append_right _ present).bind
        fun _ _ => neverStale_ok _

theorem CodeTable.neverStale_toBytes {table : CodeTable}
    (sure : ∀ handle ∈ table.references, NeverStale (positions handle)) :
    NeverStale (table.toBytes positions codeLength) := by
  have rows {A : Type} {row : A → Except Error Bytes} {entries : List A}
      (each : ∀ entry ∈ entries, NeverStale (row entry)) : NeverStale (rowsToBytes row entries) :=
    (neverStale_mapM each).bind fun _ _ => neverStale_ok _
  cases table with
  | frames entries =>
    exact rows fun frame member => Frame.neverStale_toBytes fun handle mentioned =>
      sure handle (List.mem_flatMap.mpr ⟨frame, member, mentioned⟩)
  | lines entries =>
    exact rows fun entry member =>
      (sure entry.start (List.mem_map_of_mem member)).bind fun _ _ => neverStale_ok _
  | _ entries =>
    exact rows fun entry member => LocalVariable.neverStale_toBytes fun handle mentioned =>
      sure handle (List.mem_flatMap.mpr ⟨entry, member, mentioned⟩)

end Writing

namespace Body

section Intact

variable {body : Body} {handle : Handle}

/-- The position of an instruction in use can be looked up. -/
theorem neverStale_bci (present : body.contains handle = true) : NeverStale (body.bci handle) := by
  obtain ⟨slot, found⟩ := contains_iff.mp present
  rw [bci_eq_ok_iff.mpr ⟨slot, found, rfl⟩]
  exact neverStale_ok _

/-- The layout of an intact body lists nothing but instructions, so its size can be told. -/
theorem Intact.map_fst_laidOut (intact : body.Intact) :
    body.laidOut.map Prod.fst = body.order.toList := by
  have listed : body.order.toList.filterMap (fun handle => ((body.slot? handle).map (handle, ·)).map
      Prod.fst) = body.order.toList.filterMap some := by
    refine List.filterMap_congr fun handle present => ?_
    obtain ⟨slot, found⟩ := contains_iff.mp ((intact.listed.live handle).mp present)
    simp [found]
  rw [laidOut, List.map_filterMap, listed, List.filterMap_some]

/-- Writing an intact body comes upon no reference that dangles. -/
theorem Intact.neverStale_toBytes (intact : body.Intact) : NeverStale body.toBytes := by
  have code : NeverStale body.codeBytes :=
    (neverStale_mapM fun entry _ => Instruction.neverStale_toBytes _).bind fun _ _ => neverStale_ok _
  refine code.bind fun _ _ => NeverStale.bind ?_ fun _ _ => NeverStale.bind ?_ fun _ _ => ?_
  · refine neverStale_mapM fun range member => ExceptionRange.neverStale_toBytes ?_
    exact fun handle mentioned => neverStale_bci (intact.range member mentioned)
  · refine neverStale_mapM fun entry member => NeverStale.bind ?_ fun _ _ => neverStale_ok _
    refine CodeTable.neverStale_toBytes fun handle mentioned => ?_
    exact neverStale_bci (intact.table member mentioned)
  · exact neverStale_ok _

/-- The handles that an encoding mentions are those of the extended one. -/
theorem types_promoted (delta : UInt16) (kind : FrameKind) :
    ((Frame.promotion? delta kind).getD kind).types = kind.types := by
  rw [Frame.promotion?]
  split
  · rfl
  · cases kind <;> rfl

/-- Settling changes deltas and encodings but no reference, also where it stops at a conflict. -/
theorem handles_of_mem_settleOnto {placed : List (Nat × Frame)} {done : List Frame}
    {promotions : List Event} {previous : Option Nat} {frame : Frame}
    (present : frame ∈ (Frame.settleOnto done promotions previous placed).frames) :
    ∃ old ∈ done.reverse ++ placed.map Prod.snd, old.handles = frame.handles := by
  induction placed generalizing done promotions previous with
  | nil => exact ⟨frame, by simpa [Frame.settleOnto] using present, rfl⟩
  | cons entry rest inductionHypothesis =>
    obtain ⟨bci, first⟩ := entry
    have continued {kind : FrameKind} (same : kind.types = first.kind.types) {events : List Event}
        (later : frame ∈ (Frame.settleOnto (⟨first.target, Frame.deltaFrom previous bci, kind⟩ :: done)
          events (some bci) rest).frames) :
        ∃ old ∈ done.reverse ++ ((bci, first) :: rest).map Prod.snd, old.handles = frame.handles := by
      obtain ⟨old, member, mentioned⟩ := inductionHypothesis later
      simp only [List.reverse_cons, List.append_assoc, List.mem_append, List.mem_singleton] at member
      rcases member with earlier | rfl | after
      · exact ⟨old, by simp [earlier], mentioned⟩
      · refine ⟨first, by simp, ?_⟩
        rw [← mentioned, Frame.handles, Frame.handles, same]
      · exact ⟨old, by simp [after], mentioned⟩
    have types := types_promoted (Frame.deltaFrom previous bci) first.kind
    rw [Frame.settleOnto] at present
    split at present
    · exact ⟨frame, by simpa using present, rfl⟩
    · cases promoted : Frame.promotion? (Frame.deltaFrom previous bci) first.kind with
      | none =>
        simp only [promoted] at present
        exact continued rfl present
      | some kind =>
        simp only [promoted] at present
        rw [promoted, Option.getD_some] at types
        exact continued types present

/-- A body with the same layout, the same shapes and the same tables is as intact. -/
theorem Intact.of_shape? (intact : body.Intact) {after : Body} (order : after.order = body.order)
    (shapes : ∀ handle, after.shape? handle = body.shape? handle)
    (ranges : after.ranges = body.ranges) (attributes : after.attributes = body.attributes) :
    after.Intact := by
  have contains (handle : Handle) : after.contains handle = true ↔ body.contains handle = true := by
    rw [contains_iff_shape?, contains_iff_shape?, shapes]
  refine ⟨⟨by rw [order]; exact intact.listed.distinct, fun handle => ?_⟩, fun handle mentioned => ?_⟩
  · rw [order, contains]
    exact intact.listed.live handle
  · rw [contains]
    refine intact.live handle (mem_references_iff.mpr ?_)
    rw [mem_references_iff, ranges, attributes] at mentioned
    simpa only [shapes] using mentioned

/-- The instructions and the layout are the same, and the body is intact. -/
structure Settles (before after : Body) : Prop where
  intact : after.Intact
  size : after.slots.size = before.slots.size
  contains : ∀ handle, after.contains handle = before.contains handle

/-- Computing the layout of an intact body fails only for frames that share an instruction. -/
theorem Intact.settles_of_sync (intact : body.Intact) (events : Array Event) :
    Task.Ends (fun _ after => Settles body after)
      (fun error after => (∃ handle, error = .conflictingFrames handle) ∧ Settles body after)
      (Body.sync ⟨body, events⟩) := by
  let resolved : Body := { body.place with
    slots := body.place.slots.map (Option.map body.place.measureSlot) }
  have done : body.place.resolveJumps = .ok resolved :=
    resolveJumps_eq_ok_iff.mpr ⟨intact.listed.jumpsLive_place intact.jumpsLive, rfl⟩
  have shapes : ∀ handle, resolved.shape? handle = body.shape? handle := intact.listed.shape?_measured
  have contains (handle : Handle) : resolved.contains handle = body.contains handle := by
    have same := congrArg Option.isSome (shapes handle)
    rwa [shape?, Option.isSome_map, shape?, Option.isSome_map] at same
  have whole : resolved.Intact := intact.of_shape? rfl shapes rfl rfl
  cases known : body.frames? with
  | none =>
    rw [sync_of_resolved done known]
    exact ⟨whole, body.size_measured, contains⟩
  | some frames =>
    have unchanged := (frames?_of_resolveJumps done).trans known
    obtain ⟨placed, located⟩ := @exists_placeFrames resolved frames fun frame member =>
      whole.live _ (mem_references_of_frame unchanged member (by simp [Frame.handles]))
    have settles : Settles body (resolved.setFrames (Frame.settle placed).frames) := by
      refine ⟨whole.setFrames fun frame member handle mentioned => ?_, body.size_measured, contains⟩
      obtain ⟨old, former, same⟩ := handles_of_mem_settleOnto member
      rw [List.reverse_nil, List.nil_append, ((List.mergeSort_perm placed _).map Prod.snd).mem_iff,
        (placeFrames_eq_ok_iff.mp located).1] at former
      refine whole.live _ (mem_references_of_frame unchanged former ?_)
      rwa [same]
    rw [sync_of_placed done known located]
    cases (Frame.settle placed).conflict with
    | none => exact settles
    | some handle => exact ⟨⟨handle, rfl⟩, settles⟩

/-- The layout of an intact body with frames in order can be computed. -/
theorem Intact.exists_sync (intact : body.Intact) (sorted : body.Sorted) (events : Array Event) :
    ∃ after, Body.sync ⟨body, events⟩ = .ok () after := by
  refine intact.listed.exists_sync intact.jumpsLive (fun frames known => ⟨?_, ?_⟩) events
  · rw [Sorted, frames_of_frames? known] at sorted
    refine List.pairwise_map.mpr (sorted.imp fun before same => ?_)
    rw [same] at before
    exact Nat.lt_irrefl _ before
  · exact fun frame member => intact.live _ (mem_references_of_frame known member (by simp [Frame.handles]))

/-- Frames are sorted once the layout is computed. -/
theorem Synced.sorted {after : Body} (synced : Synced body after) (listed : after.Listed) :
    after.Sorted := by
  rw [Sorted, frames]
  rcases synced.frames?_eq with ⟨-, unknown⟩ | ⟨old, new, -, known, settled⟩
  · rw [unknown]
    exact .nil
  · rw [known]
    exact (settled.ordered synced listed).choose_spec.2.2.1

/-- However computing the layout ends, the body it leaves is intact. -/
theorem Intact.outgrows_of_sync (intact : body.Intact) (events : Array Event) :
    Task.Ends (fun _ after => Outgrows body after)
      (fun error after => error.isStale = false ∧ Outgrows body after)
      (Body.sync ⟨body, events⟩) := by
  have settles := intact.settles_of_sync events
  have outgrows {after : Body} (settled : Settles body after)
      (sorted : body.Sorted → after.Sorted) : Outgrows body after := by
    refine ⟨⟨Nat.le_of_eq settled.size.symm, fun handle _ dead => ?_⟩, settled.intact,
      fun handle present => ?_, sorted⟩
    · rw [settled.contains, dead]
    · rw [settled.contains, present]
  cases ran : Body.sync ⟨body, events⟩ with
  | ok value after =>
    rw [ran] at settles
    have synced := @Listed.synced_of_sync ⟨body, events⟩ after intact.listed ran
    exact outgrows settles fun _ => synced.sorted settles.intact.listed
  | error error after =>
    rw [ran] at settles
    obtain ⟨⟨handle, rfl⟩, settled⟩ := settles
    refine ⟨rfl, outgrows settled fun sorted => ?_⟩
    obtain ⟨other, succeeded⟩ := intact.exists_sync sorted events
    rw [succeeded] at ran
    cases ran

/-- Removing an instruction of an intact body blames no handle. -/
theorem Intact.neverStale_removed (intact : body.Intact) (present : body.contains handle = true) :
    NeverStale (body.removed handle) := by
  obtain ⟨position, found⟩ := Layout.findIdx?_of_mem ((intact.listed.live handle).mpr present)
  rw [removed, position_eq_ok_iff.mpr found]
  refine (neverStale_ok position).bind fun _ same => ?_
  cases same
  rw [← Array.getElem?_toList, Layout.getElem?_successor found]
  refine NeverStale.bind ?_ fun released freed => NeverStale.bind ?_ fun _ _ => neverStale_ok _
  · unfold release
    split
    · split
      · exact neverStale_error rfl
      · exact neverStale_ok _
    · split
      · exact neverStale_error rfl
      · exact neverStale_ok _
  · have kept := (intact.releases freed).contains handle
    rw [present] at kept
    obtain ⟨slot, foundSlot⟩ := contains_iff.mp kept
    rw [get_eq_ok_iff.mpr ⟨slot, foundSlot, rfl⟩]
    exact neverStale_ok _

/-- A removal that fails leaves the body as it is. -/
theorem Intact.removes_of_remove (intact : body.Intact) (present : body.contains handle = true)
    (events : Array Event) :
    Task.Ends (fun _ after => Removes handle body after)
      (fun error after => error.isStale = false ∧ after = body)
      (Body.remove handle ⟨body, events⟩) := by
  have read : (Task.read : Task Body Body) ⟨body, events⟩ = .ok body ⟨body, events⟩ := rfl
  rw [Body.remove, Task.bind_of_eq_ok read]
  cases done : body.removed handle with
  | error error => exact ⟨intact.neverStale_removed present error done, rfl⟩
  | ok result =>
    obtain ⟨instruction, emptied, after⟩ := result
    rw [Task.bind_of_eq_ok (Task.ofExcept_eq_ok_iff.mpr ⟨rfl, rfl⟩)]
    dsimp only
    rw [Task.bind_of_eq_ok ((@Task.write_eq_ok_iff _ _ () _ _).mpr rfl)]
    have reported := @Task.ends_forM Body ExceptionRange
      (fun error after => error.isStale = false ∧ after = body)
      (fun _ => Task.report (.handlerDropped handle)) (fun _ state => state = after)
      (fun _ _ _ same => same) emptied ⟨after, events⟩ rfl
    refine reported.bind fun _ left same => ?_
    change Removes handle body left.state
    rw [same]
    exact intact.removes done

/-- A branch of an intact body leads to one of its instructions. -/
theorem Intact.contains_target (intact : body.Intact) {branch target : Handle} {opcode : Opcode}
    (shaped : body.shape? branch = some (.branch opcode target)) : body.contains target = true := by
  obtain ⟨slot, found, same⟩ := shape?_eq_some_iff.mp shaped
  obtain ⟨jump, branches, rfl⟩ := Instruction.eq_branch_of_shape same
  exact intact.jumpsLive branch slot found jump (by rw [branches]; simp [Instruction.labels])

/-- An instruction in use has a position. -/
theorem exists_bci (present : body.contains handle = true) : ∃ bci, body.bci handle = .ok bci := by
  obtain ⟨slot, found⟩ := contains_iff.mp present
  exact ⟨slot.bci, bci_eq_ok_iff.mpr ⟨slot, found, rfl⟩⟩

/-- Whether a position is covered by ranges of an intact body can be told. -/
theorem Intact.exists_isCovered (intact : body.Intact) (bci : Nat) {ranges : List ExceptionRange}
    (within : ∀ range ∈ ranges, range ∈ body.ranges) :
    ∃ covered, body.isCovered bci ranges = .ok covered := by
  induction ranges with
  | nil => exact ⟨false, rfl⟩
  | cons range rest inductionHypothesis =>
    have here := within range (by simp)
    have continued := inductionHypothesis fun other member => within other (by simp [member])
    have starting : ∃ start, body.bci range.start = .ok start :=
      exists_bci (intact.range here (by simp [ExceptionRange.references]))
    have ending : ∃ stop, body.stopBci range.stop = .ok stop := by
      cases stops : range.stop with
      | none => exact ⟨body.codeLength, rfl⟩
      | some last => exact exists_bci (intact.range here (by simp [ExceptionRange.references, stops]))
    rw [isCovered]
    refine exists_bind starting fun start => ?_
    split
    · refine exists_bind ending fun stop => ?_
      split
      · exact ⟨true, rfl⟩
      · exact continued
    · exact continued

/-- A site for an island is looked for in vain at worst. -/
theorem Intact.exists_islandSite? (intact : body.Intact) (present : body.contains handle = true) :
    ∃ site?, body.islandSite? handle = .ok site? := by
  refine exists_bind (exists_bci present) fun source => exists_bind ?_ fun best => ⟨_, rfl⟩
  refine exists_foldlM (fun best site => exists_bind ?_ fun distance? => ?_) _ none
  · exact exists_bind (intact.exists_isCovered _ fun _ member => member) fun covered => ⟨_, rfl⟩
  · cases distance? <;> exact ⟨_, rfl⟩

/-- What follows an instruction of an intact body can be told. -/
theorem Intact.exists_next? (intact : body.Intact) (present : body.contains handle = true) :
    body.next? handle = .ok (body.successor? handle) :=
  next?_eq_ok_iff.mpr ⟨(intact.listed.live handle).mpr present, rfl⟩

/-- Whether a branch of an intact body needs an island can be told. -/
theorem Intact.exists_needsIsland (intact : body.Intact) (present : body.contains handle = true) :
    ∃ needed, body.needsIsland handle = .ok needed := by
  rw [needsIsland]
  simp only [intact.exists_next? present]
  cases body.frames? with
  | none => exact ⟨false, rfl⟩
  | some frames => cases body.successor? handle <;> exact ⟨_, rfl⟩

end Intact

end Body

namespace Interning

variable {A B : Type}

/-- Interning fails only where the pool refuses a constant or a descriptor is malformed. -/
def BlamesPool (task : Interning A) : Prop :=
  ∀ before error after, task before = .error error after → error.blamesPool = true

theorem blamesPool_pure (value : A) : BlamesPool (pure value) := by
  intro before error after failed
  cases failed

/-- Two steps that blame a pool at most do so one after the other. -/
theorem BlamesPool.bind {first : Interning A} {next : A → Interning B} (sure : BlamesPool first)
    (continued : ∀ value, BlamesPool (next value)) : BlamesPool (first >>= next) := by
  intro before error after failed
  change EStateM.bind first next before = _ at failed
  cases ran : first before with
  | ok value middle =>
    simp only [EStateM.bind, ran] at failed
    exact continued value middle error after failed
  | error cause middle =>
    simp only [EStateM.bind, ran] at failed
    cases failed
    exact sure before error after ran

theorem blamesPool_mapM {act : A → Interning B} (items : List A)
    (each : ∀ item, BlamesPool (act item)) : BlamesPool (items.mapM act) := by
  induction items with
  | nil => exact blamesPool_pure []
  | cons item items inductionHypothesis =>
    rw [List.mapM_cons]
    exact (each item).bind fun value => inductionHypothesis.bind fun others => blamesPool_pure _

/-- Interning a constant fails only where the pool refuses it. -/
theorem blamesPool_intern (constant : Constant) : BlamesPool (Pool.intern constant) := by
  have refused {pool : Pool} {error : Error} (known : pool.refusal? constant = some error) :
      error.blamesPool = true := by
    unfold Pool.refusal? at known
    split at known
    · cases known
      rfl
    · split at known
      · split at known
        · cases known
          rfl
        · cases known
      · cases known
  intro before error after failed
  rw [Pool.intern] at failed
  split at failed
  · cases failed
  · split at failed
    · rename_i known
      cases failed
      exact refused known
    · cases failed

/-- The verification type of a field fails only where the pool refuses a constant. -/
theorem blamesPool_ofFieldType (type : FieldType) :
    BlamesPool (VerificationType.ofFieldType type) := by
  have class' (name : String) : BlamesPool (Pool.internClass name) :=
    (blamesPool_intern _).bind fun _ => blamesPool_intern _
  cases type with
  | base letter => cases letter <;> exact blamesPool_pure _
  | object name => exact (class' name).bind fun _ => blamesPool_pure _
  | array element => exact (class' _).bind fun _ => blamesPool_pure _

/-- The state on entry fails only where the pool or the descriptor is to blame. -/
theorem blamesPool_entryFrame (context : MethodContext) : BlamesPool context.entryFrame := by
  unfold MethodContext.entryFrame
  split
  · intro before error after failed
    cases failed
    rfl
  · exact (blamesPool_mapM _ blamesPool_ofFieldType).bind fun _ => blamesPool_pure _

end Interning

/-- An island is needed only where there are frames. -/
theorem Body.frames?_of_needsIsland {body : Body} {branch : Handle}
    (needed : body.needsIsland branch = .ok true) : body.frames? ≠ none := by
  intro unframed
  rw [needsIsland, unframed, exceptBind_eq_ok_iff] at needed
  obtain ⟨_, _, straight⟩ := needed
  cases straight

namespace Edit

variable {A B : Type}

/-- However a task ended, the body it left is intact and still has the instructions of an earlier one,
and no handle was to blame. -/
def Upholds (before : Body) (result : EStateM.Result Error (Logged Edit) A) : Prop :=
  Task.Ends (fun _ after => Body.Outgrows before after.body)
    (fun error after => error.isStale = false ∧ Body.Outgrows before after.body) result

/-- Two steps that uphold a body do so one after the other. -/
theorem Upholds.bind {before : Body} {task : Task Edit A} {next : A → Task Edit B}
    {start : Logged Edit} (first : Upholds before (task start))
    (continued : ∀ value middle, Body.Outgrows before middle.state.body →
      Upholds before (next value middle)) : Upholds before ((task >>= next) start) :=
  Task.Ends.bind first continued

/-- What upholds a later body upholds the earlier ones. -/
theorem Upholds.after {before middle : Body} {result : EStateM.Result Error (Logged Edit) A}
    (upholds : Upholds middle result) (outgrows : Body.Outgrows before middle) :
    Upholds before result :=
  Task.Ends.imp upholds (fun _ _ later => outgrows.trans later)
    fun _ _ failed => ⟨failed.1, outgrows.trans failed.2⟩

/-- A task on the body ends in an edit as it ends on the body alone. -/
theorem ends_onBody {task : Task Body A} {edit : Edit} {events : Array Event}
    {returns : A → Body → Prop} {fails : Error → Body → Prop}
    (ends : Task.Ends returns fails (task ⟨edit.body, events⟩)) :
    Task.Ends (fun value after => returns value after.body) (fun error after => fails error after.body)
      (onBody task ⟨edit, events⟩) := by
  rw [onBody, Task.focus]
  cases ran : task ⟨edit.body, events⟩ with
  | ok value after =>
    rw [ran] at ends
    exact ends
  | error error after =>
    rw [ran] at ends
    exact ends

/-- The ways in which the extension of a branch fails, with the state that each of them leaves. -/
inductive Abandons (branch : Handle) (opcode : Opcode) (target : Handle) (before : Edit) :
    Error → Edit → Prop
  /-- The condition has no opposite, or nothing follows the branch that it could hop to. -/
  | stuck (narrow : opcode.widened? = none) (straight : before.body.needsIsland branch = .ok false)
      (lacks : opcode.inverted? = none ∨ before.body.successor? branch = none) :
      Abandons branch opcode target before (.unrelaxableBranch branch) before
  /-- The method of the code is not known. -/
  | unknown (narrow : opcode.widened? = none) (needed : before.body.needsIsland branch = .ok true)
      (unknown : before.body.context = none) :
      Abandons branch opcode target before (.unrelaxableBranch branch) before
  /-- The state on entry needs constants that the pool refuses. -/
  | refused {context : MethodContext} {error : Error} {pool : Pool}
      (narrow : opcode.widened? = none) (needed : before.body.needsIsland branch = .ok true)
      (known : before.body.context = some context)
      (refused : context.entryFrame before.pool = .error error pool) :
      Abandons branch opcode target before error { before with pool := pool }
  /-- There is no site for an island. -/
  | confined {context : MethodContext} {entry : FrameState} {pool : Pool}
      (narrow : opcode.widened? = none) (needed : before.body.needsIsland branch = .ok true)
      (known : before.body.context = some context)
      (entered : context.entryFrame before.pool = .ok entry pool)
      (confined : before.body.islandSite? branch = .ok none) :
      Abandons branch opcode target before (.unrelaxableBranch branch) { before with pool := pool }
  /-- The target has no frame, which is found out when the island is there. -/
  | unframed {context : MethodContext} {entry : FrameState} {pool : Pool} {site island : Handle}
      {middle body : Body} (narrow : opcode.widened? = none)
      (needed : before.body.needsIsland branch = .ok true)
      (known : before.body.context = some context)
      (entered : context.entryFrame before.pool = .ok entry pool)
      (found : before.body.islandSite? branch = .ok (some site))
      (unframed : ¬before.body.Framed target)
      (inserted : Body.Inserts site (.wideBranch .gotoW (.to target)) before.body island middle)
      (replaced : Body.Replaces branch (.branch opcode (.to island)) middle body) :
      Abandons branch opcode target before (.unrelaxableBranch branch) ⟨body, pool⟩

section Extension

variable {edit : Edit} {branch target : Handle} {opcode : Opcode} {error : Error}
  {events : Array Event} {after : Logged Edit}

/-- A branch over a trampoline fails in one way only, and leaves everything as it is. -/
theorem abandons_of_branchOverTrampoline (intact : edit.body.Intact)
    (present : edit.body.contains branch = true) (narrow : opcode.widened? = none)
    (straight : edit.body.needsIsland branch = .ok false)
    (ran : branchOverTrampoline branch opcode target ⟨edit, events⟩ = .error error after) :
    Abandons branch opcode target edit error after.state := by
  have followed : Task.ofExcept (edit.body.next? branch) ⟨edit, events⟩ =
      .ok (edit.body.successor? branch) ⟨edit, events⟩ :=
    Task.ofExcept_eq_ok_iff.mpr ⟨intact.exists_next? present, rfl⟩
  rw [branchOverTrampoline, Task.bind_of_eq_ok (run_body! edit events),
    Task.bind_of_eq_ok followed] at ran
  cases inverts : opcode.inverted? with
  | none =>
    rw [inverts] at ran
    cases ran
    exact .stuck narrow straight (.inl inverts)
  | some opposite =>
    cases follows : edit.body.successor? branch with
    | none =>
      rw [inverts, follows] at ran
      cases ran
      exact .stuck narrow straight (.inr follows)
    | some next =>
      obtain ⟨position, inside, spliced⟩ := Body.exists_splice_insertAfter
        ((intact.listed.live branch).mpr present) (.wideBranch .gotoW (.to target))
      have kept : (edit.body.splice position (.wideBranch .gotoW (.to target)) inside).contains
          branch = true := (Body.contains_splice inside branch).mpr (.inr present)
      obtain ⟨body, replaced⟩ := Body.exists_set kept (.branch opposite (.to next))
      rw [inverts, follows] at ran
      dsimp only at ran
      rw [Task.bind_of_eq_ok (change_eq_ok_iff.mpr ⟨_, spliced, rfl⟩),
        Task.bind_of_eq_ok ((@replace_eq_ok_iff _ () _ _).mpr ⟨_, replaced, rfl⟩)] at ran
      cases ran

/-- An island that got its site is abandoned only for a target without a frame. -/
theorem frameIsland_eq_error {island : Handle} {frames : List Frame} {entry : FrameState}
    (known : edit.body.frames? = some frames)
    (ran : frameIsland branch target island (entry.expand frames) ⟨edit, events⟩ =
      .error error after) :
    ¬edit.body.Framed target ∧ error = .unrelaxableBranch branch ∧ after = ⟨edit, events⟩ := by
  rw [frameIsland, Task.bind_of_eq_ok (run_body! edit events)] at ran
  simp only [known] at ran
  cases described : (entry.expand frames)[frames.findIdx fun frame => frame.target = target]? with
  | none =>
    simp only [described] at ran
    cases ran
    refine ⟨?_, rfl, rfl⟩
    rintro ⟨frame, member, same⟩
    rw [Body.frames_of_frames? known] at member
    rw [List.getElem?_eq_none_iff, FrameState.length_expand] at described
    have found : (frames.findIdx fun frame => frame.target = target) < frames.length :=
      List.findIdx_lt_length_of_exists ⟨frame, member, decide_eq_true same⟩
    omega
  | some state =>
    simp only [described] at ran
    cases ran

/-- A branch to an island fails in one of the ways in which an extension is abandoned. -/
theorem abandons_of_branchToIsland (intact : edit.body.Intact)
    (present : edit.body.contains branch = true) (narrow : opcode.widened? = none)
    (needed : edit.body.needsIsland branch = .ok true)
    (ran : branchToIsland branch opcode target ⟨edit, events⟩ = .error error after) :
    Abandons branch opcode target edit error after.state := by
  obtain ⟨frames, framed⟩ := Option.ne_none_iff_exists'.mp (Body.frames?_of_needsIsland needed)
  have steps := ran
  rw [branchToIsland, Task.bind_of_eq_ok (run_body! edit events)] at steps
  cases known : edit.body.context with
  | none =>
    rw [known] at steps
    cases steps
    exact .unknown narrow needed known
  | some context =>
    simp only [known, framed] at steps
    cases entered : context.entryFrame edit.pool with
    | error cause pool =>
      have failed : onPool context.entryFrame ⟨edit, events⟩ =
          .error cause ⟨{ edit with pool := pool }, events⟩ := by
        simp only [onPool, Task.focus, Task.silent, entered]
      rw [Task.bind_of_eq_error failed] at steps
      cases steps
      exact .refused narrow needed known entered
    | ok entry pool =>
      obtain ⟨site?, found⟩ := intact.exists_islandSite? present
      cases site? with
      | none =>
        rw [Task.bind_of_eq_ok (onPool_eq_ok_iff.mpr ⟨pool, entered, rfl⟩),
          Task.bind_of_eq_ok (Task.ofExcept_eq_ok_iff.mpr ⟨found, rfl⟩)] at steps
        cases steps
        exact .confined narrow needed known entered found
      | some site =>
        obtain ⟨island, middle, body, inserted, replaced⟩ :=
          Body.exists_island found present opcode target
        rw [branchToIsland_eq events known framed entered found inserted replaced] at ran
        replace inserted := Body.inserts_of_insertAfter inserted
        replace replaced := Body.replaces_of_set replaced
        have same := frames?_of_inserts_replaces inserted replaced
        cases framing : frameIsland branch target island (entry.expand frames)
            ⟨⟨body, pool⟩, events⟩ with
        | ok value later =>
          rw [Task.bind_of_eq_ok framing] at ran
          cases ran
        | error cause later =>
          rw [Task.bind_of_eq_error framing] at ran
          cases ran
          obtain ⟨unframed, rfl, rfl⟩ := frameIsland_eq_error (same.trans framed) framing
          refine .unframed narrow needed known entered found ?_ inserted replaced
          rw [Body.Framed, Body.frames, ← same]
          exact unframed

/-- An extension fails in one of these ways. -/
theorem abandons_of_extendBranch {jump : Jump} (intact : edit.body.Intact)
    (present : edit.body.contains branch = true)
    (ran : extendBranch branch opcode jump ⟨edit, events⟩ = .error error after) :
    Abandons branch opcode jump.target edit error after.state := by
  obtain ⟨bci, starts⟩ := Body.exists_bci present
  rw [extendBranch, Task.bind_of_eq_ok (run_body! edit events),
    Task.bind_of_eq_ok (Task.ofExcept_eq_ok_iff.mpr ⟨starts, rfl⟩),
    Task.bind_of_eq_ok ((@Task.report_eq_ok_iff _ _ () _ _).mpr rfl)] at ran
  cases widens : opcode.widened? with
  | some wider =>
    obtain ⟨body, replaced⟩ := Body.exists_set present (.wideBranch wider (.to jump.target))
    simp only [widens] at ran
    rw [(@replace_eq_ok_iff _ () _ _).mpr ⟨_, replaced, rfl⟩] at ran
    cases ran
  | none =>
    obtain ⟨needed, decided⟩ := intact.exists_needsIsland present
    simp only [widens] at ran
    rw [Task.bind_of_eq_ok (Task.ofExcept_eq_ok_iff.mpr ⟨decided, rfl⟩)] at ran
    cases needed with
    | true =>
      rw [if_pos rfl] at ran
      exact abandons_of_branchToIsland intact present widens decided ran
    | false =>
      rw [if_neg (by simp)] at ran
      exact abandons_of_branchOverTrampoline intact present widens decided ran

/-- The frame of an island refers to what the frames before it refer to. -/
theorem live_withIslandFrame {frames : List Frame} {entry state : FrameState} {live : Handle → Prop}
    (unnamed : ∀ type ∈ entry.locals ++ entry.stack, type.creator? = none)
    (described : state ∈ entry.expand frames) (alive : live island)
    (mentioned : ∀ frame ∈ frames, ∀ handle ∈ frame.handles, live handle) (count : Nat) :
    ∀ frame ∈ Body.withIslandFrame frames (entry.expand frames) count (.new island state.toFull),
      ∀ handle ∈ frame.handles, live handle := by
  have entered : entry.Live live := by
    intro type present creator named
    rw [unnamed type present] at named
    cases named
  have states := entered.expand fun frame member type present creator named =>
    mentioned frame member creator
      (List.mem_cons_of_mem _ (List.mem_filterMap.mpr ⟨type, present, named⟩))
  intro frame present handle member
  rcases List.mem_cons.mp member with rfl | created
  · rcases Body.target_of_withIslandFrame present with same | ⟨other, old, same⟩
    · rw [same]
      exact alive
    · rw [← same]
      exact mentioned other old other.target (by simp [Frame.handles])
  · obtain ⟨type, listed, named⟩ := List.mem_filterMap.mp created
    rcases Body.kind_of_withIslandFrame present with rfl | old | ⟨other, known, same⟩
    · exact states state described type listed handle named
    · exact mentioned frame old handle member
    · rw [same] at listed
      exact states other known type listed handle named

/-- A body that an island with its frame has been inserted into is as intact as it was. -/
theorem outgrows_withIslandFrame {body : Body} (intact : body.Intact) {frames : List Frame}
    {entry state : FrameState} {island : Handle} (known : body.frames? = some frames)
    (unnamed : ∀ type ∈ entry.locals ++ entry.stack, type.creator? = none)
    (described : state ∈ entry.expand frames) (present : body.contains island = true)
    (apart : ∀ frame ∈ frames, frame.target ≠ island) :
    Body.Outgrows body (body.setFrames (Body.withIslandFrame frames (entry.expand frames)
      (body.framesBefore island frames) (.new island state.toFull))) := by
  have mentioned (frame : Frame) (member : frame ∈ frames) (handle : Handle)
      (inside : handle ∈ frame.handles) : body.contains handle = true :=
    intact.live _ (Body.mem_references_of_frame known member inside)
  have targets (frame : Frame) (member : frame ∈ frames) : body.contains frame.target = true :=
    mentioned frame member frame.target (by simp [Frame.handles])
  have whole := intact.setFrames (live_withIslandFrame unnamed described present mentioned
    (body.framesBefore island frames))
  refine ⟨⟨Nat.le_refl _, fun _ _ dead => dead⟩, whole, fun _ kept => kept, fun sorted => ?_⟩
  rw [Body.Sorted, Body.frames_of_frames? (Body.frames?_setFrames known _),
    intact.listed.framesBefore present targets]
  rw [Body.Sorted, Body.frames_of_frames? known] at sorted
  refine sorted.withIslandFrame _ (.new island state.toFull) fun frame member same => ?_
  exact apart frame member ((intact.listed.rank_inj (targets frame member)).mp same)

/-- A branch that is pointed at an island leads to an instruction. -/
theorem outgrows_of_island {before middle after : Body} {site island : Handle}
    (intact : before.Intact) (targeted : before.contains target = true)
    (inserted : Body.Inserts site (.wideBranch .gotoW (.to target)) before island middle)
    (replaced : Body.Replaces branch (.branch opcode (.to island)) middle after) :
    Body.Outgrows before after := by
  have grown := intact.inserts inserted (by simpa [Instruction.labels, Jump.to] using targeted)
  have placed : middle.contains island = true := (inserted.contains island).mpr (.inl rfl)
  exact grown.trans (grown.intact.replaces replaced
    (by simpa [Instruction.labels, Jump.to] using placed))

/-- An extension keeps a body intact. -/
theorem Extends.outgrows {before after : Edit} (extends' : Extends branch opcode target before after)
    (intact : before.body.Intact) (targeted : before.body.contains target = true) :
    Body.Outgrows before.body after.body := by
  cases extends' with
  | widened widens replaced =>
    exact intact.replaces replaced (by simpa [Instruction.labels, Jump.to] using targeted)
  | @inverted middle body opposite next trampoline narrow inverts framed follows inserted
      replaced =>
    have grown := intact.inserts inserted (by simpa [Instruction.labels, Jump.to] using targeted)
    have kept := grown.kept next
      (intact.listed.contains_successor? (Body.next?_eq_ok_iff.mp follows).2)
    exact grown.trans (grown.intact.replaces replaced
      (by simpa [Instruction.labels, Jump.to] using kept))
  | @island pool middle body context frames entry state site island narrow unframed known framed
      entered found inserted replaced described =>
    have changed := outgrows_of_island intact targeted inserted replaced
    obtain ⟨-, -, empty, unnamed⟩ := MethodContext.spec_of_entryFrame entered
    refine changed.trans (outgrows_withIslandFrame changed.intact
      ((frames?_of_inserts_replaces inserted replaced).trans framed) ?_
      (List.mem_of_getElem? described) ?_ ?_)
    · rw [empty, List.append_nil]
      exact unnamed
    · rw [replaced.contains, inserted.contains]
      exact .inl rfl
    · intro frame member
      exact inserted.ne_new (intact.live _ (Body.mem_references_of_frame framed member
        (List.mem_cons_self : frame.target ∈ frame.handles)))

/-- So does an extension that fails, and no handle is to blame. -/
theorem Abandons.outgrows {before after : Edit}
    (abandons : Abandons branch opcode target before error after) (intact : before.body.Intact)
    (targeted : before.body.contains target = true) :
    error.isStale = false ∧ Body.Outgrows before.body after.body := by
  cases abandons with
  | stuck | unknown | confined => exact ⟨rfl, intact.outgrows⟩
  | refused narrow needed known refused =>
    exact ⟨Error.not_isStale_of_blamesPool (Interning.blamesPool_entryFrame _ _ _ _ refused),
      intact.outgrows⟩
  | unframed narrow needed known entered found unframed inserted replaced =>
    exact ⟨rfl, outgrows_of_island intact targeted inserted replaced⟩

/-- Extending a branch upholds an intact body. -/
theorem upholds_extendBranch {jump : Jump} (intact : edit.body.Intact)
    (present : edit.body.contains branch = true)
    (targeted : edit.body.contains jump.target = true) (events : Array Event) :
    Upholds edit.body (extendBranch branch opcode jump ⟨edit, events⟩) := by
  cases ran : extendBranch branch opcode jump ⟨edit, events⟩ with
  | ok value after => exact (extends_of_extendBranch ran).outgrows intact targeted
  | error error after => exact (abandons_of_extendBranch intact present ran).outgrows intact targeted

end Extension

/-- Extending some branches may fail at any of them, and the body is intact all the same. -/
theorem upholds_extendOversized {edit : Edit} (intact : edit.body.Intact) (events : Array Event) :
    Upholds edit.body (extendOversized ⟨edit, events⟩) := by
  rw [extendOversized, Task.bind_of_eq_ok (run_body! edit events)]
  refine Upholds.bind ?_ fun _ _ outgrows => outgrows
  let pending (entries : List (Handle × Opcode × Jump)) (now : Edit) : Prop :=
    Body.Outgrows edit.body now.body ∧ ∀ entry ∈ entries,
      edit.body.contains entry.1 = true ∧ edit.body.contains entry.2.2.target = true
  have holds : pending edit.body.oversized edit := by
    refine ⟨intact.outgrows, ?_⟩
    rintro ⟨branch, opcode, jump⟩ member
    have shaped := Body.shape?_of_mem_oversized member
    exact ⟨Body.contains_of_shape? shaped, intact.contains_target shaped⟩
  refine (Task.ends_forM pending ?_ _ holds).imp (fun _ _ last => last.1) fun _ _ failed => failed
  rintro ⟨branch, opcode, jump⟩ entries ⟨now, reported⟩ ⟨outgrows, live⟩
  obtain ⟨present, targeted⟩ := live (branch, opcode, jump) (by simp)
  have extended : Upholds edit.body (extendBranch branch opcode jump ⟨now, reported⟩) :=
    (upholds_extendBranch outgrows.intact (outgrows.kept branch present) (outgrows.kept _ targeted)
      reported).after outgrows
  refine Task.Ends.imp extended (fun _ _ later => ⟨later, ?_⟩) fun _ _ failed => failed
  exact fun entry member => live entry (by simp [member])

/-- Rounds of relaxation uphold an intact body. -/
theorem upholds_relaxRounds (steps rounds : Nat) {edit : Edit} (intact : edit.body.Intact)
    (events : Array Event) : Upholds edit.body (relaxRounds steps rounds ⟨edit, events⟩) := by
  induction steps generalizing rounds edit events with
  | zero => exact ⟨rfl, intact.outgrows⟩
  | succ steps inductionHypothesis =>
    rw [relaxRounds]
    refine Upholds.bind (ends_onBody (intact.outgrows_of_sync events)) fun _ laidOut settled => ?_
    refine ((upholds_extendOversized settled.intact laidOut.events).after settled).bind
      fun changed extended grown => ?_
    cases changed with
    | true => exact (inductionHypothesis (rounds + 1) grown.intact extended.events).after grown
    | false => exact grown

/-- Relaxation upholds an intact body. -/
theorem upholds_relax {edit : Edit} (intact : edit.body.Intact) (events : Array Event) :
    Upholds edit.body (relax ⟨edit, events⟩) := by
  exact ends_relax (upholds_relaxRounds roundLimit 0 intact events) (fun _ outgrows _ => outgrows)
    fun _ outgrows _ => ⟨rfl, outgrows⟩

end Edit

end Classfile
