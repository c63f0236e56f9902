import Classfile.Proofs.Settling

/-!
What a step of relaxation can do, and how a run of it is put together.

`Edit.Extends` lists the three ways in which a branch is extended. A property of edits that every
computation of the layout and every extension keeps is kept by relaxation, which
`Edit.relaxRounds_induction` states once and for all.
-/

namespace Classfile

namespace Body

/-- An instruction that control never falls through is laid out. -/
def TransferAt (body : Body) (handle : Handle) : Prop :=
  handle ∈ body.order.toList ∧
    ∃ slot, body.slot? handle = some slot ∧ slot.instruction.isTransfer = true

/-- An instruction is laid out, control never falls through it, and an island can be placed after
it. -/
def SiteAt (body : Body) (handle : Handle) : Prop :=
  ∃ slot, handle ∈ body.order.toList ∧ body.slot? handle = some slot ∧
    slot.instruction.isTransfer = true ∧
    ∃ source distance, body.islandDistance? source slot = .ok (some distance)

/-- The site that is found is near enough to the branch. -/
theorem exists_distance_of_islandSite? {body : Body} {branch site : Handle}
    (found : body.islandSite? branch = .ok (some site)) :
    ∃ source slot distance, body.bci branch = .ok source ∧ site ∈ body.order.toList ∧
      body.slot? site = some slot ∧ slot.instruction.isTransfer = true ∧
      body.islandDistance? source slot = .ok (some distance) := by
  simp only [islandSite?, exceptBind_eq_ok_iff, exceptPure_eq_ok_iff] at found
  obtain ⟨source, starts, best, searched, chosen⟩ := found
  let near (handle : Handle) : Prop := ∃ slot distance, handle ∈ body.order.toList ∧
    body.slot? handle = some slot ∧ slot.instruction.isTransfer = true ∧
      body.islandDistance? source slot = .ok (some distance)
  have eligible : ∀ pair, best = some pair → near pair.2 := by
    refine foldlM_invariant (fun best => ∀ pair, best = some pair → near pair.2) ?_ (by simp) searched
    rintro state ⟨handle, slot⟩ result present holds stepped
    obtain ⟨laidOut, transfers⟩ := List.mem_filter.mp present
    obtain ⟨listed, live⟩ := mem_laidOut_iff.mp laidOut
    simp only [exceptBind_eq_ok_iff] at stepped
    obtain ⟨distance?, measured, chosen⟩ := stepped
    cases distance? with
    | none =>
      rw [exceptPure_eq_ok_iff] at chosen
      exact chosen ▸ holds
    | some distance =>
      rw [exceptPure_eq_ok_iff] at chosen
      intro pair same
      rw [← chosen] at same
      cases state with
      | none =>
        cases same
        exact ⟨slot, distance, listed, live, transfers, measured⟩
      | some least =>
        rw [closer] at same
        split at same
        · cases same
          exact ⟨slot, distance, listed, live, transfers, measured⟩
        · exact holds pair same
  cases best with
  | none => cases chosen
  | some pair =>
    cases chosen
    obtain ⟨slot, distance, near⟩ := eligible pair rfl
    exact ⟨source, slot, distance, starts, near⟩

/-- The place that is found for an island is a site. -/
theorem siteAt_of_islandSite? {body : Body} {branch site : Handle}
    (found : body.islandSite? branch = .ok (some site)) : body.SiteAt site := by
  obtain ⟨source, slot, distance, _, listed, live, transfers, measured⟩ :=
    exists_distance_of_islandSite? found
  exact ⟨slot, listed, live, transfers, source, distance, measured⟩

/-- Islands are placed after instructions that control never falls through. -/
theorem transferAt_of_islandSite? {body : Body} {branch site : Handle}
    (found : body.islandSite? branch = .ok (some site)) : body.TransferAt site := by
  obtain ⟨slot, listed, live, transfers, _⟩ := siteAt_of_islandSite? found
  exact ⟨listed, slot, live, transfers⟩

end Body

namespace Edit

variable {A : Type}

theorem run_body! (edit : Edit) (events : Array Event) :
    body! ⟨edit, events⟩ = .ok edit.body ⟨edit, events⟩ := rfl

theorem body!_eq_ok_iff {before after : Logged Edit} {body : Body} :
    Edit.body! before = .ok body after ↔ before.state.body = body ∧ before = after := by
  simp only [Edit.body!, Task.bind_eq_ok_iff, Task.read_eq_ok_iff, Task.pure_eq_ok_iff]
  constructor
  · rintro ⟨_, _, ⟨rfl, rfl⟩, rfl, rfl⟩
    exact ⟨rfl, rfl⟩
  · rintro ⟨rfl, rfl⟩
    exact ⟨_, _, ⟨rfl, rfl⟩, rfl, rfl⟩

theorem onBody_eq_ok_iff {task : Task Body A} {value : A} {before after : Logged Edit} :
    onBody task before = .ok value after ↔
      ∃ inner, task ⟨before.state.body, before.events⟩ = .ok value inner ∧
        ⟨{ before.state with body := inner.state }, inner.events⟩ = after :=
  Task.focus_eq_ok_iff

theorem onPool_eq_ok_iff {interning : Interning A} {value : A} {before after : Logged Edit} :
    onPool interning before = .ok value after ↔
      ∃ pool, interning before.state.pool = .ok value pool ∧
        ⟨{ before.state with pool := pool }, before.events⟩ = after := by
  simp only [onPool, Task.focus_eq_ok_iff, Task.silent_eq_ok_iff]
  constructor
  · rintro ⟨_, ⟨pool, interned, rfl⟩, rfl⟩
    exact ⟨pool, interned, rfl⟩
  · rintro ⟨pool, interned, rfl⟩
    exact ⟨_, ⟨pool, interned, rfl⟩, rfl⟩

theorem change_eq_ok_iff {result : Body → Except Error (A × Body)} {value : A}
    {before after : Logged Edit} :
    change result before = .ok value after ↔
      ∃ body, result before.state.body = .ok (value, body) ∧
        ⟨{ before.state with body := body }, before.events⟩ = after := by
  simp only [change, Task.bind_eq_ok_iff, Task.read_eq_ok_iff, Task.ofExcept_eq_ok_iff,
    Task.write_eq_ok_iff, Task.pure_eq_ok_iff]
  constructor
  · rintro ⟨_, _, ⟨rfl, rfl⟩, ⟨_, body⟩, _, ⟨done, rfl⟩, _, _, ⟨rfl, rfl⟩, _, _, rfl, rfl, rfl⟩
    exact ⟨body, done, rfl⟩
  · rintro ⟨body, done, rfl⟩
    exact ⟨_, _, ⟨rfl, rfl⟩, (value, body), _, ⟨done, rfl⟩, _, _, ⟨rfl, rfl⟩, (), _, rfl, rfl, rfl⟩

theorem replace_eq_ok_iff {result : Body → Except Error Body} {value : Unit}
    {before after : Logged Edit} :
    replace result before = .ok value after ↔
      ∃ body, result before.state.body = .ok body ∧
        ⟨{ before.state with body := body }, before.events⟩ = after := by
  simp only [replace, change_eq_ok_iff, exceptBind_eq_ok_iff, exceptPure_eq_ok_iff, Prod.mk.injEq,
    true_and]
  constructor
  · rintro ⟨_, ⟨body, done, rfl⟩, rfl⟩
    exact ⟨body, done, rfl⟩
  · rintro ⟨body, done, rfl⟩
    exact ⟨body, ⟨body, done, rfl⟩, rfl⟩

/-- The ways in which a branch to a target is extended. -/
inductive Extends (branch : Handle) (opcode : Opcode) (target : Handle) : Edit → Edit → Prop
  | widened {before : Edit} {body : Body} {wider : Opcode}
      (widens : opcode.widened? = some wider)
      (replaced : Body.Replaces branch (.wideBranch wider (.to target)) before.body body) :
      Extends branch opcode target before { before with body := body }
  | inverted {before : Edit} {middle body : Body} {opposite : Opcode} {next trampoline : Handle}
      (narrow : opcode.widened? = none)
      (inverts : opcode.inverted? = some opposite)
      (framed : before.body.needsIsland branch = .ok false)
      (follows : before.body.next? branch = .ok (some next))
      (inserted : Body.Inserts branch (.wideBranch .gotoW (.to target)) before.body trampoline middle)
      (replaced : Body.Replaces branch (.branch opposite (.to next)) middle body) :
      Extends branch opcode target before { before with body := body }
  | island {before : Edit} {pool : Pool} {middle body : Body} {context : MethodContext}
      {frames : List Frame} {entry state : FrameState} {site island : Handle}
      (narrow : opcode.widened? = none)
      (unframed : before.body.needsIsland branch = .ok true)
      (known : before.body.context = some context)
      (framed : before.body.frames? = some frames)
      (entered : context.entryFrame before.pool = .ok entry pool)
      (found : before.body.islandSite? branch = .ok (some site))
      (inserted : Body.Inserts site (.wideBranch .gotoW (.to target)) before.body island middle)
      (replaced : Body.Replaces branch (.branch opcode (.to island)) middle body)
      (described : (entry.expand frames)[frames.findIdx fun frame => frame.target = target]? =
        some state) :
      Extends branch opcode target before
        ⟨body.setFrames (Body.withIslandFrame frames (entry.expand frames)
          (body.framesBefore island frames) (.new island state.toFull)), pool⟩

/-- A branch over a trampoline that succeeds extends the branch. -/
theorem extends_of_branchOverTrampoline {branch target : Handle} {opcode : Opcode}
    {before : Edit} {events : Array Event} {after : Logged Edit} (narrow : opcode.widened? = none)
    (framed : before.body.needsIsland branch = .ok false)
    (ran : branchOverTrampoline branch opcode target ⟨before, events⟩ = .ok () after) :
    Extends branch opcode target before after.state := by
  simp only [branchOverTrampoline, Task.bind_eq_ok_iff, body!_eq_ok_iff,
    Task.ofExcept_eq_ok_iff] at ran
  obtain ⟨_, _, ⟨rfl, rfl⟩, next?, _, ⟨follows, rfl⟩, ran⟩ := ran
  cases inverts : opcode.inverted? with
  | none =>
    simp only [inverts] at ran
    exact (Task.throw_eq_ok_iff.mp ran).elim
  | some opposite =>
    cases next? with
    | none =>
      simp only [inverts] at ran
      exact (Task.throw_eq_ok_iff.mp ran).elim
    | some next =>
      simp only [inverts, Task.bind_eq_ok_iff, change_eq_ok_iff, replace_eq_ok_iff,
        Task.report_eq_ok_iff] at ran
      obtain ⟨trampoline, _, ⟨middle, inserted, rfl⟩, _, _, ⟨body, replaced, rfl⟩, rfl⟩ := ran
      exact .inverted narrow inverts framed follows (Body.inserts_of_insertAfter inserted)
        (Body.replaces_of_set replaced)

/-- An insertion and a replacement leave the frames as they are. -/
theorem frames?_of_inserts_replaces {anchor branch new : Handle} {first second : Instruction Jump}
    {before middle after : Body} (inserted : Body.Inserts anchor first before new middle)
    (replaced : Body.Replaces branch second middle after) : after.frames? = before.frames? := by
  rw [replaced.rest, inserted.rest]
  rfl

/-- A branch to an island that succeeds extends the branch. -/
theorem extends_of_branchToIsland {branch target : Handle} {opcode : Opcode}
    {before : Edit} {events : Array Event} {after : Logged Edit} (narrow : opcode.widened? = none)
    (unframed : before.body.needsIsland branch = .ok true)
    (ran : branchToIsland branch opcode target ⟨before, events⟩ = .ok () after) :
    Extends branch opcode target before after.state := by
  simp only [branchToIsland, Task.bind_eq_ok_iff, body!_eq_ok_iff] at ran
  obtain ⟨_, _, ⟨rfl, rfl⟩, ran⟩ := ran
  cases known : before.body.context with
  | none =>
    simp only [known] at ran
    exact (Task.throw_eq_ok_iff.mp ran).elim
  | some context =>
    cases framed : before.body.frames? with
    | none =>
      simp only [known, framed] at ran
      exact (Task.throw_eq_ok_iff.mp ran).elim
    | some frames =>
      simp only [known, framed, Task.bind_eq_ok_iff, onPool_eq_ok_iff,
        Task.ofExcept_eq_ok_iff] at ran
      obtain ⟨entry, _, ⟨pool, entered, rfl⟩, site?, _, ⟨found, rfl⟩, ran⟩ := ran
      cases site? with
      | none => exact (Task.throw_eq_ok_iff.mp ran).elim
      | some site =>
        simp only [Task.bind_eq_ok_iff, change_eq_ok_iff, replace_eq_ok_iff, frameIsland,
          body!_eq_ok_iff] at ran
        obtain ⟨island, _, ⟨middle, inserted, rfl⟩, _, _, ⟨body, replaced, rfl⟩, _, framing,
          ⟨_, _, ⟨rfl, rfl⟩, placed⟩, reported⟩ := ran
        replace inserted := Body.inserts_of_insertAfter inserted
        replace replaced := Body.replaces_of_set replaced
        have sameFrames : body.frames? = some frames := by
          rw [frames?_of_inserts_replaces inserted replaced, framed]
        simp only [sameFrames] at placed
        cases described : (entry.expand frames)[frames.findIdx fun frame => frame.target = target]? with
        | none =>
          simp only [described] at placed
          exact (Task.throw_eq_ok_iff.mp placed).elim
        | some state =>
          simp only [described, replace_eq_ok_iff, Except.ok.injEq] at placed
          obtain ⟨_, rfl, rfl⟩ := placed
          rw [Task.report_eq_ok_iff] at reported
          rw [← reported]
          exact .island narrow unframed known framed entered found inserted replaced described

/-- A successful extension is one of the three. -/
theorem extends_of_extendBranch {branch : Handle} {opcode : Opcode} {jump : Jump}
    {before after : Logged Edit} (ran : extendBranch branch opcode jump before = .ok () after) :
    Extends branch opcode jump.target before.state after.state := by
  simp only [extendBranch, Task.bind_eq_ok_iff, body!_eq_ok_iff, Task.ofExcept_eq_ok_iff,
    Task.report_eq_ok_iff] at ran
  obtain ⟨_, _, ⟨rfl, rfl⟩, bci, _, ⟨_, rfl⟩, _, _, rfl, ran⟩ := ran
  cases widens : opcode.widened? with
  | some wider =>
    simp only [widens, replace_eq_ok_iff] at ran
    obtain ⟨body, replaced, rfl⟩ := ran
    exact .widened widens (Body.replaces_of_set replaced)
  | none =>
    simp only [widens, Task.bind_eq_ok_iff, Task.ofExcept_eq_ok_iff] at ran
    obtain ⟨needed, _, ⟨decided, rfl⟩, ran⟩ := ran
    cases needed with
    | true =>
      rw [if_pos rfl] at ran
      exact extends_of_branchToIsland widens decided ran
    | false =>
      rw [if_neg (by simp)] at ran
      exact extends_of_branchOverTrampoline widens decided ran

end Edit

namespace Body

theorem index_lt_of_contains {body : Body} {handle : Handle} (present : body.contains handle = true) :
    handle.index < body.slots.size := by
  obtain ⟨slot, found⟩ := contains_iff.mp present
  exact lt_size_of_slot? found

/-- The frames around an island describe what they described before, and the island. -/
theorem target_of_withIslandFrame {frames : List Frame} {states : List FrameState} {before : Nat}
    {island frame : Frame} (present : frame ∈ withIslandFrame frames states before island) :
    frame.target = island.target ∨ ∃ other ∈ frames, other.target = frame.target := by
  rw [withIslandFrame, List.mem_append, List.mem_cons] at present
  rcases present with front | rfl | back
  · exact .inr ⟨frame, List.mem_of_mem_take front, rfl⟩
  · exact .inl rfl
  · right
    obtain ⟨index, inside, rfl⟩ := List.mem_mapIdx.mp back
    refine ⟨(frames.drop before)[index], List.mem_of_mem_drop (List.getElem_mem inside), ?_⟩
    split <;> rfl

/-- An extension changes one branch, may insert one `goto_w`, and leaves the rest of the layout and
the shapes of all other instructions alone. -/
structure Grows (branch : Handle) (now later : Body) : Prop where
  listed : later.Listed
  size : now.slots.size ≤ later.slots.size
  shape? : ∀ handle, handle ≠ branch → now.contains handle = true →
    later.shape? handle = now.shape? handle
  kept : ∀ handle, now.contains handle = true → later.contains handle = true
  added : ∀ handle, later.contains handle = true → now.contains handle = false →
    now.slots.size ≤ handle.index ∧ ∃ target, later.shape? handle = some (.wideBranch .gotoW target)
  order : ∀ keep : Handle → Bool, (∀ handle, now.slots.size ≤ handle.index → keep handle = false) →
    later.order.toList.filter keep = now.order.toList.filter keep
  successor? : ∀ handle, handle ≠ branch → now.contains handle = true →
    (now.frames? = none ∨ ¬now.TransferAt handle) →
      later.successor? handle = now.successor? handle
  framed : ∀ frames, later.frames? = some frames → ∃ old, now.frames? = some old ∧
    ∀ frame ∈ frames, (now.contains frame.target = false ∧ later.contains frame.target = true) ∨
      ∃ other ∈ old, other.target = frame.target
  unframed : later.frames? = none → now.frames? = none

/-- What was there without a frame is given none. -/
theorem Grows.target_ne {branch handle : Handle} {now later : Body} (grows : Grows branch now later)
    (present : now.contains handle = true)
    (unframed : ∀ frames, now.frames? = some frames → ∀ frame ∈ frames, frame.target ≠ handle)
    {frames : List Frame} (known : later.frames? = some frames) :
    ∀ frame ∈ frames, frame.target ≠ handle := by
  intro frame member
  obtain ⟨old, before, targets⟩ := grows.framed frames known
  rcases targets frame member with ⟨absent, _⟩ | ⟨earlier, earlierMember, same⟩
  · rintro rfl
    rw [present] at absent
    cases absent
  · rw [← same]
    exact unframed old before earlier earlierMember

/-- A replacement keeps all instructions in their order. -/
theorem Replaces.grows {branch : Handle} {instruction : Instruction Jump} {now later : Body}
    (replaced : Replaces branch instruction now later) (listed : now.Listed) :
    Grows branch now later := by
  have frames : later.frames? = now.frames? := by
    rw [replaced.rest]
    rfl
  refine ⟨replaced.listed listed, Nat.le_of_eq replaced.size.symm, ?_, ?_, ?_, ?_, ?_, ?_, ?_⟩
  · intro handle different _
    rw [replaced.shape?_of_ne different]
  · intro handle present
    rw [replaced.contains, present]
  · intro handle present absent
    rw [replaced.contains, absent] at present
    cases present
  · intro keep _
    rw [replaced.order]
  · intro handle _ _ _
    rw [Body.successor?, replaced.order, Body.successor?]
  · intro known same
    exact ⟨known, by rw [← frames, same], fun frame present => .inr ⟨frame, present, rfl⟩⟩
  · intro none
    rw [← frames, none]

/-- An insertion after a branch, or after a transfer of a body with frames, together with a
replacement of the branch. -/
theorem Inserts.grows {anchor branch new target : Handle} {second : Instruction Jump}
    {now middle later : Body}
    (inserted : Inserts anchor (.wideBranch .gotoW (.to target)) now new middle)
    (replaced : Replaces branch second middle later) (listed : now.Listed)
    (branching : now.contains branch = true)
    (anchored : anchor = branch ∨ now.frames? ≠ none ∧ now.TransferAt anchor) :
    Grows branch now later := by
  have frames := Edit.frames?_of_inserts_replaces inserted replaced
  have fresh := inserted.not_contains
  have different := (inserted.ne_new branching).symm
  have placed : new.index = now.slots.size := by rw [inserted.fresh, nextHandle]
  have present (handle : Handle) : later.contains handle = true ↔
      handle = new ∨ now.contains handle = true := by
    rw [replaced.contains, inserted.contains]
  refine ⟨replaced.listed (inserted.listed listed), ?_, ?_, ?_, ?_, ?_, ?_, ?_, ?_⟩
  · rw [replaced.size, inserted.size]
    exact Nat.le_succ _
  · intro handle apart alive
    have notNew := inserted.ne_new alive
    rw [replaced.shape?_of_ne apart, inserted.shape?, if_neg notNew]
  · intro handle alive
    exact (present handle).mpr (.inr alive)
  · intro handle alive dead
    rcases (present handle).mp alive with rfl | before
    · refine ⟨Nat.le_of_eq placed.symm, target, ?_⟩
      rw [replaced.shape?_of_ne different, inserted.shape?_new]
      rfl
    · rw [before] at dead
      cases dead
  · intro keep dropped
    rw [replaced.order, inserted.order]
    exact Layout.filter_insertAfter keep (dropped new (Nat.le_of_eq placed.symm))
  · intro handle apart alive straight
    have notNew := inserted.ne_new alive
    have notAnchor : handle ≠ anchor := by
      rintro rfl
      rcases anchored with same | ⟨known, transfers⟩
      · exact apart same
      · rcases straight with none | falls
        · exact known none
        · exact falls transfers
    rw [Body.successor?, replaced.order]
    exact inserted.successor?_other notAnchor notNew
  · intro known same
    exact ⟨known, by rw [← frames, same], fun frame present => .inr ⟨frame, present, rfl⟩⟩
  · intro none
    rw [← frames, none]

/-- New frames for some of the same instructions and for a new one change nothing else. -/
theorem Grows.setFrames {branch : Handle} {now later : Body} (grows : Grows branch now later)
    {old frames : List Frame} (known : now.frames? = some old)
    (targets : ∀ frame ∈ frames,
      (now.contains frame.target = false ∧ later.contains frame.target = true) ∨
        ∃ other ∈ old, other.target = frame.target) :
    Grows branch now (later.setFrames frames) := by
  obtain ⟨listed, size, shape?, kept, added, order, successor?, framed, unframed⟩ := grows
  have some : ∃ current, later.frames? = some current := by
    rw [← Option.isSome_iff_exists, Option.isSome_iff_ne_none]
    intro none
    rw [unframed none] at known
    cases known
  obtain ⟨current, knownLater⟩ := some
  have replaced := frames?_setFrames knownLater frames
  refine ⟨⟨listed.distinct, listed.live⟩, size, shape?, kept, added, order, successor?, ?_, ?_⟩
  · intro new same
    rw [replaced, Option.some.injEq] at same
    exact ⟨old, known, same ▸ targets⟩
  · intro none
    rw [replaced] at none
    cases none

end Body

namespace Edit

/-- An extension keeps all instructions in their order. -/
theorem Extends.grows {branch target : Handle} {opcode : Opcode} {before after : Edit}
    (extends' : Extends branch opcode target before after) (listed : before.body.Listed)
    (present : before.body.contains branch = true) : Body.Grows branch before.body after.body := by
  cases extends' with
  | widened widens replaced => exact replaced.grows listed
  | inverted narrow inverts framed follows inserted replaced =>
    exact inserted.grows replaced listed present (.inl rfl)
  | @island pool middle body context frames entry state site island narrow unframed known framed
      entered found inserted replaced described =>
    have transfers := Body.transferAt_of_islandSite? found
    have grows := inserted.grows replaced listed present (.inr ⟨by simp [framed], transfers⟩)
    apply grows.setFrames framed
    intro frame member
    rcases Body.target_of_withIslandFrame member with same | old
    · left
      rw [same]
      refine ⟨inserted.not_contains, ?_⟩
      rw [replaced.contains, inserted.contains]
      exact .inl rfl
    · exact .inr old

/-- The layout of the body is computed. -/
def Syncs (before after : Edit) : Prop :=
  ∃ events reported, onBody Body.sync ⟨before, events⟩ = .ok () ⟨after, reported⟩

/-- Computing the layout leaves the pool alone. -/
theorem Syncs.pool {before after : Edit} (syncs : Syncs before after) :
    after.pool = before.pool := by
  obtain ⟨events, reported, ran⟩ := syncs
  obtain ⟨inner, _, same⟩ := onBody_eq_ok_iff.mp ran
  simp only [Logged.mk.injEq] at same
  rw [← same.1]

/-- The layout of a body whose order lists its instructions is computed. -/
theorem Syncs.synced {before after : Edit} (syncs : Syncs before after)
    (listed : before.body.Listed) : Body.Synced before.body after.body := by
  obtain ⟨events, reported, ran⟩ := syncs
  obtain ⟨inner, computed, same⟩ := onBody_eq_ok_iff.mp ran
  have synced := @Body.Listed.synced_of_sync ⟨before.body, events⟩ inner listed computed
  simp only [Logged.mk.injEq] at same
  rw [← same.1]
  exact synced

/-- One round of relaxation: the layout is computed and all branches out of reach are extended. -/
def round : Task Edit Bool := do
  onBody Body.sync
  extendOversized

/-- A round extends the branches that are oversized after the layout, and tells whether there were
any. -/
theorem round_eq_ok_iff {changed : Bool} {before after : Logged Edit} :
    round before = .ok changed after ↔
      ∃ laidOut, onBody Body.sync before = .ok () laidOut ∧
        (laidOut.state.body.oversized.forM fun (branch, opcode, jump) =>
          extendBranch branch opcode jump) laidOut = .ok () after ∧
        changed = !laidOut.state.body.oversized.isEmpty := by
  have told (empty : Bool) : decide (¬empty = true) = !empty := by
    cases empty <;> rfl
  simp only [round, Task.bind_eq_ok_iff, extendOversized, body!_eq_ok_iff, Task.pure_eq_ok_iff, told]
  constructor
  · rintro ⟨_, laidOut, computed, _, _, ⟨rfl, rfl⟩, _, _, run, answer, rfl⟩
    exact ⟨laidOut, computed, run, answer.symm⟩
  · rintro ⟨laidOut, computed, run, rfl⟩
    exact ⟨_, laidOut, computed, _, _, ⟨rfl, rfl⟩, _, _, run, rfl, rfl⟩

/-- Relaxation goes on after a round that extends a branch. -/
theorem relaxRounds_succ (steps rounds : Nat) :
    relaxRounds (steps + 1) rounds =
      round >>= fun changed => if changed then relaxRounds steps (rounds + 1) else pure rounds := by
  rw [relaxRounds, round, bind_assoc]

section Run

variable (resting : Edit → Prop) (pending : List (Handle × Opcode × Jump) → Edit → Prop)

/-- What each extension passes on to the others holds after the last one. -/
theorem forM_extendBranch_induction
    (extended : ∀ branch opcode jump others before after,
      pending ((branch, opcode, jump) :: others) before →
        Extends branch opcode jump.target before after → pending others after)
    {oversized : List (Handle × Opcode × Jump)} {before after : Logged Edit}
    (holds : pending oversized before.state)
    (ran : (oversized.forM fun (branch, opcode, jump) => extendBranch branch opcode jump) before =
      .ok () after) : pending [] after.state := by
  induction oversized generalizing before with
  | nil =>
    cases ran
    exact holds
  | cons entry others inductionHypothesis =>
    obtain ⟨branch, opcode, jump⟩ := entry
    obtain ⟨middle, first, continued⟩ := Task.forM_cons_eq_ok_iff.mp ran
    exact inductionHypothesis
      (extended _ _ _ _ _ _ holds (extends_of_extendBranch first)) continued

/-- What every layout and every extension keeps holds when the last layout is computed, after which
no branch is oversized. -/
theorem relaxRounds_induction
    (started : ∀ before after, resting before → Syncs before after →
      pending after.body.oversized after)
    (extended : ∀ branch opcode jump others before after,
      pending ((branch, opcode, jump) :: others) before →
        Extends branch opcode jump.target before after → pending others after)
    (finished : ∀ edit, pending [] edit → resting edit)
    {steps rounds count : Nat} {before after : Logged Edit} (holds : resting before.state)
    (ran : relaxRounds steps rounds before = .ok count after) :
    ∃ last, resting last ∧ Syncs last after.state ∧ after.state.body.oversized = [] := by
  induction steps generalizing rounds before with
  | zero => exact (Task.throw_eq_ok_iff.mp ran).elim
  | succ steps inductionHypothesis =>
    rw [relaxRounds_succ, Task.bind_eq_ok_iff] at ran
    obtain ⟨changed, left, stepped, ran⟩ := ran
    obtain ⟨laidOut, computed, run, rfl⟩ := round_eq_ok_iff.mp stepped
    have syncs : Syncs before.state laidOut.state := ⟨before.events, laidOut.events, computed⟩
    have remaining := started _ _ holds syncs
    have rested := forM_extendBranch_induction pending extended remaining run
    cases oversized : laidOut.state.body.oversized with
    | nil =>
      rw [oversized] at run ran
      cases run
      rw [List.isEmpty_nil, Bool.not_true, if_neg (by simp), Task.pure_eq_ok_iff] at ran
      obtain ⟨-, rfl⟩ := ran
      exact ⟨before.state, holds, syncs, oversized⟩
    | cons entry others =>
      rw [oversized, List.isEmpty_cons, Bool.not_false, if_pos rfl] at ran
      exact inductionHypothesis (finished _ rested) ran

end Run

/-- Once the rounds of relaxation end, only the length of the code is checked. -/
theorem relax_of_rounds {before middle : Logged Edit} {rounds : Nat}
    (run : relaxRounds roundLimit 0 before = .ok rounds middle) :
    ∃ reported, (rounds = 0 → reported = middle.events) ∧ relax before =
      if maxCodeLength < middle.state.body.codeLength then
        .error (.codeTooLong middle.state.body.codeLength) ⟨middle.state, reported⟩
      else .ok () ⟨middle.state, reported⟩ := by
  have checked (reported : Array Event) : (if maxCodeLength < middle.state.body.codeLength then
        throw (.codeTooLong middle.state.body.codeLength)
      else pure () : Task Edit Unit) ⟨middle.state, reported⟩ =
        if maxCodeLength < middle.state.body.codeLength then
          .error (.codeTooLong middle.state.body.codeLength) ⟨middle.state, reported⟩
        else .ok () ⟨middle.state, reported⟩ := by
    split
    · rfl
    · rfl
  rw [relax, Task.bind_of_eq_ok run, Task.bind_of_eq_ok (run_body! middle.state middle.events)]
  split
  · rename_i several
    rw [Task.bind_of_eq_ok ((@Task.report_eq_ok_iff _ _ () _ _).mpr rfl)]
    exact ⟨_, fun none => absurd none (Nat.ne_of_gt several), checked _⟩
  · exact ⟨middle.events, fun _ => rfl, checked _⟩

/-- Relaxation ends as its rounds do, unless they leave code that is too long. -/
theorem ends_relax {before : Logged Edit} {between returns : Edit → Prop}
    {fails : Error → Edit → Prop}
    (rounds : Task.Ends (fun _ after => between after) fails (relaxRounds roundLimit 0 before))
    (short : ∀ edit, between edit → edit.body.codeLength ≤ maxCodeLength → returns edit)
    (long : ∀ edit, between edit → maxCodeLength < edit.body.codeLength →
      fails (.codeTooLong edit.body.codeLength) edit) :
    Task.Ends (fun _ after => returns after) fails (relax before) := by
  cases run : relaxRounds roundLimit 0 before with
  | error error after =>
    rw [run] at rounds
    rw [relax, Task.bind_of_eq_error run]
    exact rounds
  | ok count middle =>
    rw [run] at rounds
    obtain ⟨reported, -, relaxed⟩ := relax_of_rounds run
    rw [relaxed]
    split
    · rename_i exceeds
      exact long _ rounds exceeds
    · rename_i fits
      exact short _ rounds (Nat.le_of_not_lt fits)

/-- Relaxation is a run of rounds that leaves code of an allowed length. -/
theorem rounds_of_relax {before after : Logged Edit} (ran : relax before = .ok () after) :
    ∃ rounds middle, relaxRounds roundLimit 0 before = .ok rounds middle ∧
      middle.state = after.state ∧ after.state.body.codeLength ≤ maxCodeLength := by
  cases run : relaxRounds roundLimit 0 before with
  | error error middle =>
    rw [relax, Task.bind_of_eq_error run] at ran
    cases ran
  | ok rounds middle =>
    obtain ⟨reported, -, relaxed⟩ := relax_of_rounds run
    rw [ran] at relaxed
    split at relaxed
    · cases relaxed
    · rename_i short
      cases relaxed
      exact ⟨rounds, middle, rfl, rfl, Nat.le_of_not_lt short⟩

/-- Where every branch reaches its target once the layout is computed, there is nothing to relax, and
only the length of the code is checked. -/
theorem relax_of_settled {body placed : Body} (pool : Pool) {events reported : Array Event}
    (synced : Body.sync ⟨body, events⟩ = .ok () ⟨placed, reported⟩) (reached : placed.oversized = []) :
    relax ⟨⟨body, pool⟩, events⟩ =
      if maxCodeLength < placed.codeLength then
        .error (.codeTooLong placed.codeLength) ⟨⟨placed, pool⟩, reported⟩
      else .ok () ⟨⟨placed, pool⟩, reported⟩ := by
  have computed : onBody Body.sync ⟨⟨body, pool⟩, events⟩ = .ok () ⟨⟨placed, pool⟩, reported⟩ :=
    onBody_eq_ok_iff.mpr ⟨_, synced, rfl⟩
  have extended : extendOversized ⟨⟨placed, pool⟩, reported⟩ =
      .ok false ⟨⟨placed, pool⟩, reported⟩ := by
    have read : Edit.body! ⟨⟨placed, pool⟩, reported⟩ = .ok placed ⟨⟨placed, pool⟩, reported⟩ := rfl
    rw [extendOversized, Task.bind_of_eq_ok read, reached]
    rfl
  have rounds : relaxRounds roundLimit 0 ⟨⟨body, pool⟩, events⟩ = .ok 0 ⟨⟨placed, pool⟩, reported⟩ := by
    rw [roundLimit, relaxRounds, Task.bind_of_eq_ok computed, Task.bind_of_eq_ok extended]
    rfl
  obtain ⟨_, same, relaxed⟩ := relax_of_rounds rounds
  rw [relaxed, same rfl]

end Edit

end Classfile
