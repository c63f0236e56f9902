import Classfile.Code.Cursor
import Classfile.Proofs.Outcomes

/-!
Histories of a body.

A body is new or was read, and then it is changed by calls, each of which may fail, even halfway.
Wherever the calls lead, no reference of the body dangles: `dependable_of_legal` says what can be
relied on after any calls that name nothing but instructions of the body.
-/

namespace Classfile

/-- The calls by which a body is changed. -/
inductive Mutation where
  | insert (position : Nat) (instruction : Instruction Jump)
  | push (instruction : Instruction Jump)
  | insertBefore (anchor : Handle) (instruction : Instruction Jump)
  | insertAfter (anchor : Handle) (instruction : Instruction Jump)
  | pushAtCursor (position : Nat) (instruction : Instruction Jump)
  | remove (handle : Handle)
  | replaceTargets (old new : Handle)
  | sync
  | extendOversized
  | relax
  deriving DecidableEq

namespace Mutation

/-- What a call does. An insertion returns the handle of its instruction. -/
def run : Mutation → Task Edit (Option Handle)
  | .insert position instruction => do
    return some (← Edit.change fun body => body.insert position instruction)
  | .push instruction => do return some (← Edit.change fun body => .ok (body.push instruction))
  | .insertBefore anchor instruction => do
    return some (← Edit.change fun body => body.insertBefore anchor instruction)
  | .insertAfter anchor instruction => do
    return some (← Edit.change fun body => body.insertAfter anchor instruction)
  | .pushAtCursor position instruction => do
    return some (← Task.focus (fun edit => ⟨edit, position⟩) (fun _ cursor => cursor.edit)
      (Cursor.push instruction))
  | .remove handle => do
    let _ ← Edit.onBody (Body.remove handle)
    return none
  | .replaceTargets old new => do
    Edit.replace fun body => .ok (body.replaceTargets old new)
    return none
  | .sync => do
    Edit.onBody Body.sync
    return none
  | .extendOversized => do
    let _ ← Edit.extendOversized
    return none
  | .relax => do
    Edit.relax
    return none

/-- The instruction that a call inserts. -/
def inserted? : Mutation → Option (Instruction Jump)
  | .insert _ instruction | .push instruction | .insertBefore _ instruction
  | .insertAfter _ instruction | .pushAtCursor _ instruction => some instruction
  | _ => none

/-- References are redirected without removing what they led to. -/
def redirects : Mutation → Bool
  | .replaceTargets .. => true
  | _ => false

/-- A call names a position of the layout or instructions of the body. -/
def Placed (body : Body) : Mutation → Prop
  | .insert position _ | .pushAtCursor position _ => position ≤ body.order.size
  | .insertBefore handle _ | .insertAfter handle _ | .remove handle | .replaceTargets _ handle =>
    body.contains handle = true
  | _ => True

instance (body : Body) : (call : Mutation) → Decidable (call.Placed body)
  | .insert .. | .pushAtCursor .. => inferInstanceAs (Decidable (_ ≤ _))
  | .insertBefore .. | .insertAfter .. | .remove _ | .replaceTargets .. =>
    inferInstanceAs (Decidable (_ = _))
  | .push _ | .sync | .extendOversized | .relax => inferInstanceAs (Decidable True)

/-- A call is placed in the body, and the jumps of what it inserts lead to instructions. -/
def Valid (body : Body) (call : Mutation) : Prop :=
  call.Placed body ∧ ∀ instruction ∈ call.inserted?, ∀ jump ∈ instruction.labels,
    body.contains jump.target = true

instance (body : Body) (call : Mutation) : Decidable (call.Valid body) :=
  inferInstanceAs (Decidable (_ ∧ ∀ instruction ∈ call.inserted?, _))

/-- The state after a call, whether it returned or failed. -/
def apply (call : Mutation) (before : Logged Edit) : Logged Edit :=
  match call.run before with
  | .ok _ after | .error _ after => after

section Call

variable {call : Mutation} {before : Logged Edit}

/-- A valid insertion succeeds, and its instruction gets the next handle. -/
theorem exists_splice_of_inserted? {instruction : Instruction Jump}
    (inserts : call.inserted? = some instruction) (valid : call.Valid before.state.body)
    (listed : before.state.body.Listed) :
    ∃ position inside, call.run before = .ok (some before.state.body.nextHandle)
      ⟨{ before.state with body := before.state.body.splice position instruction inside },
        before.events⟩ := by
  obtain ⟨placed, -⟩ := valid
  cases call with
  | insert position other =>
    cases inserts
    refine ⟨position, placed, ?_⟩
    rw [run, Task.bind_of_eq_ok (Edit.change_eq_ok_iff.mpr
      ⟨_, Body.insert_of_le placed instruction, rfl⟩)]
    rfl
  | push other =>
    cases inserts
    refine ⟨before.state.body.order.size, Nat.le_refl _, ?_⟩
    rw [run, Task.bind_of_eq_ok (Edit.change_eq_ok_iff.mpr ⟨_, rfl, rfl⟩)]
    rfl
  | insertBefore anchor other =>
    cases inserts
    obtain ⟨position, inside, _, done⟩ :=
      Body.exists_splice_insertBefore ((listed.live anchor).mpr placed) instruction
    refine ⟨position, inside, ?_⟩
    rw [run, Task.bind_of_eq_ok (Edit.change_eq_ok_iff.mpr ⟨_, done, rfl⟩)]
    rfl
  | insertAfter anchor other =>
    cases inserts
    obtain ⟨position, inside, done⟩ :=
      Body.exists_splice_insertAfter ((listed.live anchor).mpr placed) instruction
    refine ⟨position, inside, ?_⟩
    rw [run, Task.bind_of_eq_ok (Edit.change_eq_ok_iff.mpr ⟨_, done, rfl⟩)]
    rfl
  | pushAtCursor position other =>
    cases inserts
    refine ⟨position, placed, ?_⟩
    rw [run, Task.bind_of_eq_ok (Task.focus_eq_ok_iff.mpr
      ⟨_, Cursor.run_push instruction placed, rfl⟩)]
    rfl
  | _ => cases inserts

/-- A call leaves an intact body, in which no handle was used again, and keeps frames in order unless
it redirects references. -/
structure Keeps (call : Mutation) (before after : Body) : Prop extends Body.Descends before after where
  intact : after.Intact
  sorted : call.redirects = false → before.Sorted → after.Sorted

/-- A call after which a body outgrows the earlier one keeps its promise. -/
theorem keeps_of_outgrows {earlier later : Body} (outgrows : Body.Outgrows earlier later) :
    call.Keeps earlier later :=
  ⟨outgrows.toDescends, outgrows.intact, fun _ => outgrows.sorted⟩

/-- A call that upholds a body keeps its promise. -/
theorem ends_of_upholds {A : Type} {result : EStateM.Result Error (Logged Edit) A}
    (upholds : Edit.Upholds before.state.body result) :
    Task.Ends (fun _ after => call.Keeps before.state.body after.body)
      (fun error after => error.isStale = false ∧ call.Keeps before.state.body after.body) result :=
  Task.Ends.imp upholds (fun _ _ outgrows => keeps_of_outgrows outgrows)
    fun _ _ failed => ⟨failed.1, keeps_of_outgrows failed.2⟩

/-- A call keeps its promise whether or not its result is used. -/
theorem ends_discard {A : Type} {task : Task Edit A}
    (ends : Task.Ends (fun _ after => call.Keeps before.state.body after.body)
      (fun error after => error.isStale = false ∧ call.Keeps before.state.body after.body)
      (task before)) :
    Task.Ends (fun _ after => call.Keeps before.state.body after.body)
      (fun error after => error.isStale = false ∧ call.Keeps before.state.body after.body)
      ((do let _ ← task; return none : Task Edit (Option Handle)) before) :=
  Task.Ends.bind ends fun _ _ kept => kept

/-- However a valid call ends, it keeps what it should and blames no handle. -/
theorem ends_run (intact : before.state.body.Intact) (valid : call.Valid before.state.body) :
    Task.Ends (fun _ after => call.Keeps before.state.body after.body)
      (fun error after => error.isStale = false ∧ call.Keeps before.state.body after.body)
      (call.run before) := by
  cases inserts : call.inserted? with
  | some instruction =>
    obtain ⟨position, inside, ran⟩ := exists_splice_of_inserted? inserts valid intact.listed
    rw [ran]
    exact keeps_of_outgrows (intact.splice inside (valid.2 instruction inserts))
  | none =>
    cases call with
    | remove handle =>
      have removed := intact.removes_of_remove (show _ = true from valid.1) before.events
      refine ends_discard (Task.Ends.imp (Edit.ends_onBody removed) (fun _ after removes => ?_)
        fun _ after failed => ⟨failed.1, ?_⟩)
      · exact ⟨removes.descends, removes.intact intact, fun _ => removes.sorted intact⟩
      · rw [failed.2]
        exact keeps_of_outgrows intact.outgrows
    | replaceTargets old new =>
      obtain ⟨whole, descends⟩ := intact.replaceTargets old (show _ = true from valid.1)
      have redirected : Edit.replace (fun body => .ok (body.replaceTargets old new)) before =
          .ok () ⟨{ before.state with body := before.state.body.replaceTargets old new },
            before.events⟩ :=
        Edit.replace_eq_ok_iff.mpr ⟨_, rfl, rfl⟩
      rw [run, Task.bind_of_eq_ok redirected]
      exact ⟨descends, whole, by rintro ⟨⟩⟩
    | sync =>
      exact ends_discard (ends_of_upholds (Edit.ends_onBody (intact.outgrows_of_sync before.events)))
    | extendOversized =>
      exact ends_discard (ends_of_upholds (Edit.upholds_extendOversized intact before.events))
    | relax => exact ends_discard (ends_of_upholds (Edit.upholds_relax intact before.events))
    | _ => cases inserts

/-- Every valid call on an intact body keeps its promise. -/
theorem keeps_apply (intact : before.state.body.Intact) (valid : call.Valid before.state.body) :
    call.Keeps before.state.body (call.apply before).state.body := by
  have ends := ends_run intact valid
  rw [apply]
  cases ran : call.run before with
  | ok value after =>
    rw [ran] at ends
    exact ends
  | error error after =>
    rw [ran] at ends
    exact ends.2

/-- A removed instruction is gone. -/
theorem not_contains_of_remove {handle : Handle} {value : Option Handle} {after : Logged Edit}
    (intact : before.state.body.Intact) (present : before.state.body.contains handle = true)
    (ran : (Mutation.remove handle).run before = .ok value after) :
    after.state.body.contains handle = false := by
  simp only [run, Task.bind_eq_ok_iff, Task.pure_eq_ok_iff] at ran
  obtain ⟨_, _, removed, -, rfl⟩ := ran
  have ends := @Edit.ends_onBody _ _ before.state _ _ _
    (intact.removes_of_remove present before.events)
  rw [removed] at ends
  by_contra alive
  exact ((ends.contains handle).mp (Bool.not_eq_false _ ▸ alive)).1 rfl

end Call

end Mutation

namespace Edit

/-- The state after some calls. -/
def replay (start : Logged Edit) : List Mutation → Logged Edit
  | [] => start
  | call :: calls => replay (call.apply start) calls

/-- Every call is valid where it is made. -/
def Legal (start : Logged Edit) : List Mutation → Prop
  | [] => True
  | call :: calls => call.Valid start.state.body ∧ Legal (call.apply start) calls

instance (start : Logged Edit) : (calls : List Mutation) → Decidable (Legal start calls)
  | [] => inferInstanceAs (Decidable True)
  | call :: calls =>
    have := instDecidableLegal (call.apply start) calls
    inferInstanceAs (Decidable (_ ∧ Legal (call.apply start) calls))

/-- Two histories are replayed one after the other. -/
theorem replay_append (start : Logged Edit) (first second : List Mutation) :
    replay start (first ++ second) = replay (replay start first) second := by
  induction first generalizing start with
  | nil => rfl
  | cons call calls inductionHypothesis => exact inductionHypothesis (call.apply start)

/-- A history is legal if its first part is, and the second is after it. -/
theorem legal_append {start : Logged Edit} {first second : List Mutation} :
    Legal start (first ++ second) ↔ Legal start first ∧ Legal (replay start first) second := by
  induction first generalizing start with
  | nil => simp [Legal, replay]
  | cons call calls inductionHypothesis =>
    rw [List.cons_append, Legal, Legal, inductionHypothesis, and_assoc, replay]

/-- What one call keeps, all of them keep. -/
theorem keeps_replay {start : Logged Edit} {calls : List Mutation}
    (intact : start.state.body.Intact) (legal : Legal start calls) :
    (replay start calls).state.body.Intact ∧
      Body.Descends start.state.body (replay start calls).state.body ∧
        ((∀ call ∈ calls, call.redirects = false) → start.state.body.Sorted →
          (replay start calls).state.body.Sorted) := by
  induction calls generalizing start with
  | nil => exact ⟨intact, Body.Descends.refl _, fun _ sorted => sorted⟩
  | cons call calls inductionHypothesis =>
    have kept := Mutation.keeps_apply intact legal.1
    obtain ⟨later, descends, sorted⟩ := inductionHypothesis kept.intact legal.2
    refine ⟨later, kept.toDescends.trans descends, fun direct ordered => ?_⟩
    refine sorted (fun other member => direct other (by simp [member])) ?_
    exact kept.sorted (direct call (by simp)) ordered

end Edit

/-- A new body, or one that was read. -/
inductive Body.Initial : Body → Prop
  | empty (nameIndex : ConstantIndex) (maxStack maxLocals : UInt16) :
      Initial (Body.empty nameIndex maxStack maxLocals)
  | read {nameIndex : ConstantIndex} {pool : Pool} {context : Option MethodContext}
      {input rest : Bytes} {body : Body}
      (done : Body.read nameIndex pool context input = .ok (body, rest)) : Initial body

/-- The bodies to start from are intact, and their frames sorted. -/
theorem Body.Initial.intact {body : Body} (initial : body.Initial) : body.Intact ∧ body.Sorted := by
  cases initial with
  | empty nameIndex maxStack maxLocals =>
    refine ⟨⟨⟨List.nodup_nil, fun handle => ?_⟩, fun handle mentioned => ?_⟩, .nil⟩
    · simp [Body.empty, Body.contains, Body.slot?]
    · simp [Body.references, Body.empty] at mentioned
  | read done =>
    obtain ⟨-, -, slots, code, ranges, attributes, formed, -⟩ := Body.read_eq_ok_iff.mp done
    exact ⟨formed.intact, formed.sorted⟩

/-- What can be relied on after some calls. -/
structure Dependable (start : Logged Edit) (calls : List Mutation) : Prop where
  /-- The layout lists the instructions, each of them once, and every reference leads to one. -/
  intact : (Edit.replay start calls).state.body.Intact
  /-- The size of the code is the size of all that is laid out. -/
  laidOut : (Edit.replay start calls).state.body.laidOut.map Prod.fst =
    (Edit.replay start calls).state.body.order.toList
  /-- Writing does not come upon a handle that names no instruction. -/
  written : NeverStale (Edit.replay start calls).state.body.toBytes
  /-- No further call comes upon one, the layout and relaxation included. -/
  called : ∀ call : Mutation, call.Valid (Edit.replay start calls).state.body → ∀ error after,
    call.run (Edit.replay start calls) = .error error after → error.isStale = false
  /-- Every insertion returned a handle that no instruction had had before. -/
  inserted : ∀ earlier call later, calls = earlier ++ call :: later → call.inserted?.isSome →
    ∃ handle after, call.run (Edit.replay start earlier) = .ok (some handle) after ∧
      after.state.body.contains handle = true ∧
      ∀ before, before <+: earlier → (Edit.replay start before).state.body.contains handle = false
  /-- What was removed is gone for good. -/
  removed : ∀ earlier handle later, calls = earlier ++ .remove handle :: later →
    (∃ value after, (Mutation.remove handle).run (Edit.replay start earlier) = .ok value after) →
      (Edit.replay start calls).state.body.contains handle = false
  /-- Unless references were redirected as such, frames are in order, and the layout can be
  computed. -/
  sorted : (∀ call ∈ calls, call.redirects = false) →
    (Edit.replay start calls).state.body.FramesOrdered (Edit.replay start calls).state.body.frames ∧
      ∃ after, Edit.onBody Body.sync (Edit.replay start calls) = .ok () after

/-- Every legal history of a body to start from is dependable. -/
theorem dependable_of_legal {start : Logged Edit} (initial : start.state.body.Initial)
    {calls : List Mutation} (legal : Edit.Legal start calls) : Dependable start calls := by
  obtain ⟨intact, ordered⟩ := initial.intact
  obtain ⟨whole, -, sorted⟩ := Edit.keeps_replay intact legal
  refine ⟨whole, whole.map_fst_laidOut, whole.neverStale_toBytes, ?_, ?_, ?_, ?_⟩
  · intro call valid error after failed
    have ends := Mutation.ends_run whole valid
    rw [failed] at ends
    exact ends.1
  · rintro earlier call later rfl inserts
    obtain ⟨instruction, inserts⟩ := Option.isSome_iff_exists.mp inserts
    obtain ⟨legalEarlier, valid, -⟩ := Edit.legal_append.mp legal
    obtain ⟨wholeEarlier, -, -⟩ := Edit.keeps_replay intact legalEarlier
    obtain ⟨position, inside, ran⟩ :=
      Mutation.exists_splice_of_inserted? inserts valid wholeEarlier.listed
    refine ⟨_, _, ran, (Body.contains_splice inside _).mpr (.inl rfl), ?_⟩
    rintro before ⟨rest, rfl⟩
    -- Handles are numbered by the size of the arena, which never shrinks.
    obtain ⟨legalBefore, legalRest⟩ := Edit.legal_append.mp legalEarlier
    obtain ⟨wholeBefore, -, -⟩ := Edit.keeps_replay intact legalBefore
    obtain ⟨-, descends, -⟩ := Edit.keeps_replay wholeBefore legalRest
    rw [Edit.replay_append]
    by_contra alive
    have below := Body.index_lt_of_contains (Bool.not_eq_false _ ▸ alive)
    exact Nat.not_lt.mpr descends.size below
  · rintro earlier handle later rfl ⟨value, after, ran⟩
    obtain ⟨legalEarlier, valid, legalLater⟩ := Edit.legal_append.mp legal
    obtain ⟨wholeEarlier, -, -⟩ := Edit.keeps_replay intact legalEarlier
    have present : (Edit.replay start earlier).state.body.contains handle = true := valid.1
    have kept := Mutation.keeps_apply wholeEarlier valid
    have gone := Mutation.not_contains_of_remove wholeEarlier present ran
    have same : (Mutation.remove handle).apply (Edit.replay start earlier) = after := by
      rw [Mutation.apply, ran]
    obtain ⟨-, descends, -⟩ := Edit.keeps_replay kept.intact legalLater
    rw [Edit.replay_append, Edit.replay]
    refine descends.gone handle ?_ (by rw [same]; exact gone)
    exact (Body.index_lt_of_contains present).trans_le kept.size
  · intro direct
    have frames := sorted direct ordered
    obtain ⟨after, ran⟩ := whole.exists_sync frames (Edit.replay start calls).events
    exact ⟨frames, _, Edit.onBody_eq_ok_iff.mpr ⟨after, ran, rfl⟩⟩

/-- A loop is built from its end and loses the instruction that it leads to. -/
def Mutation.loop : List Mutation :=
  [.push (.simple .nop), .push (.branch .goto (.to ⟨0⟩)), .insertBefore ⟨1⟩ (.simple .nop),
    .pushAtCursor 1 (.simple .nop), .remove ⟨0⟩, .insertAfter ⟨3⟩ (.branch .ifeq (.to ⟨3⟩)), .sync,
    .relax]

theorem dependable_of_legal_loop :
    Edit.Legal ⟨⟨.empty 1 1 0, .empty⟩, #[]⟩ Mutation.loop ∧
      Dependable ⟨⟨.empty 1 1 0, .empty⟩, #[]⟩ Mutation.loop :=
  ⟨by decide +kernel, dependable_of_legal (.empty 1 1 0) (by decide +kernel)⟩

end Classfile
