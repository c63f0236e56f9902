import Classfile.Proofs.Abandonment
import Classfile.Proofs.RelaxFixedPoint
import Classfile.Proofs.SingleExtension

/-!
Relaxation of code without frames.

Such code needs no islands. A branch that is widened is a 16-bit branch no longer, and a branch that is
inverted hops over its trampoline and nothing else, since nothing is ever inserted in between. So each
branch is extended once at most, and there are only two ways to fail: a conditional branch at the end
of the code cannot be inverted, as nothing follows that it could hop to, and the relaxed code may be
too long.
-/

namespace Classfile

/-- What is listed last has no successor, and only that. -/
theorem Layout.getLast?_of_successor? {order : List Handle} {handle : Handle} (present : handle ∈ order)
    (last : successor? order handle = none) : order.getLast? = some handle := by
  induction order with
  | nil => cases present
  | cons first rest inductionHypothesis =>
    rw [successor?] at last
    by_cases same : first = handle
    · rw [if_pos same, List.head?_eq_none_iff] at last
      rw [last, same, List.getLast?_singleton]
    · rw [if_neg same] at last
      have later := inductionHypothesis (List.mem_of_ne_of_mem (Ne.symm same) present) last
      rw [List.getLast?_cons, later, Option.getD_some]

/-- Instructions of three bytes or more take that much of the code. -/
theorem Laid.three_mul_countP_le {slots : Handle → Option Slot} {bci stop : Nat}
    {order : List Handle} (laid : Laid slots bci order stop) {chosen : Handle → Bool}
    (wide : ∀ handle slot, chosen handle = true → slots handle = some slot →
      3 ≤ slot.instruction.width) : bci + 3 * order.countP chosen ≤ stop := by
  induction order generalizing bci with
  | nil => exact Nat.le_of_eq laid
  | cons first rest inductionHypothesis =>
    obtain ⟨slot, found, _, _, continued⟩ := laid
    have later := inductionHypothesis continued
    rw [List.countP_cons]
    by_cases counted : chosen first = true
    · have large := wide first slot counted found
      rw [if_pos counted]
      omega
    · rw [if_neg counted]
      omega

namespace Body

/-- Each 16-bit branch takes three bytes of the code. -/
theorem Listed.three_mul_branchCount_le {body : Body} (listed : body.Listed) :
    3 * body.branchCount ≤ body.place.codeLength := by
  have wide (handle : Handle) (slot : Slot) (upright : body.isUpright body handle = true)
      (placed : body.place.slot? handle = some slot) : 3 ≤ slot.instruction.width := by
    obtain ⟨opcode, target, shaped⟩ := isUpright_self.mp upright
    obtain ⟨before, found, same⟩ := shape?_eq_some_iff.mp shaped
    obtain ⟨jump, branches, _⟩ := Instruction.eq_branch_of_shape same
    obtain ⟨bci, moved⟩ := listed.slot?_place handle
    rw [placed, found, Option.map_some, Option.some.injEq, branches] at moved
    rw [moved]
    exact Nat.le_refl 3
  have counted := listed.laid_place.three_mul_countP_le wide
  rw [Nat.zero_add] at counted
  exact counted

/-- A conditional branch is laid out last. -/
def EndsIn (body : Body) (branch : Handle) : Prop :=
  (∃ opcode jump, body.get branch = .ok (.branch opcode jump) ∧ opcode.inverted?.isSome = true) ∧
    body.order.toList.getLast? = some branch

/-- A conditional branch without a successor ends the code. -/
theorem endsIn_of_shape? {body : Body} {branch target : Handle} {opcode : Opcode}
    (listed : body.Listed) (shaped : body.shape? branch = some (.branch opcode target))
    (conditional : opcode.inverted?.isSome = true) (last : body.successor? branch = none) :
    body.EndsIn branch := by
  obtain ⟨slot, found, same⟩ := shape?_eq_some_iff.mp shaped
  obtain ⟨jump, branches, _⟩ := Instruction.eq_branch_of_shape same
  refine ⟨⟨opcode, jump, get_eq_ok_iff.mpr ⟨slot, found, branches⟩, conditional⟩, ?_⟩
  exact Layout.getLast?_of_successor? ((listed.live branch).mpr (contains_of_shape? shaped)) last

/-- Code without frames has none once the layout is computed. -/
theorem Synced.unframed_eq {now later : Body} (synced : Synced now later)
    (unframed : now.frames? = none) : later.frames? = none := by
  rw [frames?_of_attributes (synced.unframed unframed), unframed]

/-- Code without frames has none after an extension. -/
theorem Grows.unframed_eq {branch : Handle} {now later : Body} (grows : Grows branch now later)
    (unframed : now.frames? = none) : later.frames? = none := by
  rw [Option.eq_none_iff_forall_ne_some]
  intro frames known
  obtain ⟨old, before, _⟩ := grows.framed frames known
  rw [unframed] at before
  cases before

section Upright

variable {original : Body} {branch : Handle} {opcode : Opcode} {jump : Jump}
  {others : List (Handle × Opcode × Jump)}

/-- A branch that is oversized still tests its original condition. -/
theorem Pending.isUpright {entries : List (Handle × Opcode × Jump)} {now : Body}
    (pending : Pending original entries now) (unframed : now.frames? = none)
    (member : (branch, opcode, jump) ∈ entries) : original.isUpright now branch = true := by
  have branching := pending.shaped branch opcode jump member
  obtain ⟨before, target, originally⟩ := pending.rewired.lengthened.exists_original branching
  have same := pending.once unframed branch opcode jump member before target originally
  rw [isUpright_of_branch originally branching, same, decide_eq_true rfl]

/-- After its extension it does not. -/
theorem Pending.not_isUpright {before after : Edit} (listed : original.Listed)
    (pending : Pending original ((branch, opcode, jump) :: others) before.body)
    (unframed : before.body.frames? = none)
    (extends' : Edit.Extends branch opcode jump.target before after) :
    original.isUpright after.body branch = false := by
  have branching := pending.shaped branch opcode jump (by simp)
  obtain ⟨origin, target, originally⟩ := pending.rewired.lengthened.exists_original branching
  have grows := extends'.grows pending.rewired.listed (contains_of_shape? branching)
  have count := pending.rewired.uprightCount_grows listed grows (contains_of_shape? originally)
  have spent := (pending.spends listed extends').1
  have frames : before.body.frameCount = 0 ∧ after.body.frameCount = 0 := by
    rw [frameCount, unframed, frameCount, grows.unframed_eq unframed]
    exact ⟨rfl, rfl⟩
  rw [pending.isUpright unframed List.mem_cons_self, Bool.toNat_true] at count
  rw [← Bool.toNat_eq_zero]
  omega

end Upright

end Body

namespace Edit

section Rounds

variable {original : Body} {pool : Pool}

/-- What rounds keep of code without frames. -/
structure Frameless (original : Body) (pool : Pool) (edit : Edit) : Prop where
  rewired : original.Rewired edit.body
  intact : edit.body.Intact
  unframed : edit.body.frames? = none
  pool : edit.pool = pool

/-- Code without frames that was relaxed. -/
structure RelaxedUnframed (original : Body) (pool : Pool) (edit : Edit) : Prop where
  pool : edit.pool = pool
  /-- An inverted branch hops over its trampoline. -/
  hops : ∀ branch opcode opposite old new, original.get branch = .ok (.branch opcode old) →
    opcode.inverted? = some opposite → edit.body.get branch = .ok (.branch opposite new) →
      new.offset = 8

/-- The ways in which relaxation of code without frames fails. -/
inductive UnrelaxedUnframed (original : Body) (edit : Edit) : Error → Prop
  /-- A conditional branch ended the code and still does. -/
  | ending {branch : Handle} (before : original.EndsIn branch) (now : edit.body.EndsIn branch) :
    UnrelaxedUnframed original edit (.unrelaxableBranch branch)
  /-- The code is relaxed, and too long. -/
  | long (length : 65535 < edit.body.codeLength) (relaxed : original.Relaxed edit.body)
      (near : edit.body.BranchesNear)
      (settled : ∀ events, Body.sync ⟨edit.body, events⟩ = .ok () ⟨edit.body, events⟩) :
    UnrelaxedUnframed original edit (.codeTooLong edit.body.codeLength)

/-- An extension of code without frames leaves the pool alone. -/
theorem Extends.pool_of_unframed {branch target : Handle} {opcode : Opcode} {before after : Edit}
    (extends' : Extends branch opcode target before after) (unframed : before.body.frames? = none) :
    after.pool = before.pool := by
  cases extends' with
  | widened => rfl
  | inverted => rfl
  | island _ _ _ framed =>
    rw [unframed] at framed
    cases framed

section Extension

variable {edit : Edit} {branch : Handle} {opcode : Opcode} {jump : Jump}
  {others : List (Handle × Opcode × Jump)}

/-- What an extension keeps of code without frames while others are pending. -/
theorem ends_extendBranch (listed : original.Listed) (wellFormed : original.WellFormed)
    (pending : original.Pending ((branch, opcode, jump) :: others) edit.body)
    (frameless : Frameless original pool edit) (events : Array Event) :
    Task.Ends (fun _ after => original.Pending others after.body ∧ Frameless original pool after)
      (fun error after => after.pool = pool ∧ UnrelaxedUnframed original after error)
      (extendBranch branch opcode jump ⟨edit, events⟩) := by
  obtain ⟨rewired, intact, unframed, pooled⟩ := frameless
  have branching := pending.shaped branch opcode jump (by simp)
  have present := Body.contains_of_shape? branching
  have targeted := intact.contains_target branching
  obtain ⟨before, origin, originally⟩ := rewired.lengthened.exists_original branching
  obtain rfl := pending.once unframed branch opcode jump (by simp) before origin originally
  have conditional (narrow : opcode.widened? = none) : ∃ opposite, opcode.inverted? = some opposite := by
    have formed := Body.wellFormed_iff.mp wellFormed branch _ originally
    exact Opcode.exists_inverted? (by simpa [Instruction.isWellFormed] using formed) narrow
  cases ran : extendBranch branch opcode jump ⟨edit, events⟩ with
  | ok value after =>
    have extends' := extends_of_extendBranch ran
    have pendingAfter := pending.extends listed (Body.wellFormed_iff.mp wellFormed) extends'
    have grows := extends'.grows rewired.listed present
    exact ⟨pendingAfter, pendingAfter.rewired, (extends'.outgrows intact targeted).intact,
      grows.unframed_eq unframed,
      (extends'.pool_of_unframed unframed).trans pooled⟩
  | error error after =>
    -- Islands are needed where there are frames, which leaves one way to fail.
    have islandless : edit.body.needsIsland branch ≠ .ok true := fun needed =>
      Body.frames?_of_needsIsland needed unframed
    have abandons := abandons_of_extendBranch intact present ran
    change after.state.pool = pool ∧ UnrelaxedUnframed original after.state error
    generalize after.state = left at abandons
    cases abandons with
    | unknown _ needed | refused _ needed | confined _ needed | unframed _ needed =>
      exact absurd needed islandless
    | stuck narrow straight lacks =>
      obtain ⟨opposite, inverts⟩ := conditional narrow
      have invertible : opcode.inverted?.isSome = true := by rw [inverts]; rfl
      have last : edit.body.successor? branch = none := by
        refine lacks.resolve_left fun unconditional => ?_
        rw [inverts] at unconditional
        cases unconditional
      refine ⟨pooled, .ending ?_ (Body.endsIn_of_shape? rewired.listed branching invertible last)⟩
      refine Body.endsIn_of_shape? listed originally invertible ?_
      rcases (rewired.branches branch opcode origin originally).cases_of_branch branching with
        ⟨_, _, straight⟩ | ⟨_, _, twice, _⟩
      · rw [← straight (Opcode.widened?_of_inverted? inverts).2.2.2.1, last]
      · exact absurd rfl (Opcode.widened?_of_inverted? twice).2.2.1

end Extension

/-- Extending branches of code without frames fails only for one that ends the code. -/
theorem ends_forM_extendBranch (listed : original.Listed) (wellFormed : original.WellFormed)
    {oversized : List (Handle × Opcode × Jump)} {before : Logged Edit}
    (pending : original.Pending oversized before.state.body)
    (frameless : Frameless original pool before.state) :
    Task.Ends (fun _ after => Frameless original pool after)
      (fun error after => after.pool = pool ∧ UnrelaxedUnframed original after error)
      ((oversized.forM fun (branch, opcode, jump) => extendBranch branch opcode jump) before) := by
  refine (Task.ends_forM
    (fun entries edit => original.Pending entries edit.body ∧ Frameless original pool edit) ?_ oversized
    ⟨pending, frameless⟩).imp (fun _ _ last => last.2) fun _ _ failed => failed
  rintro ⟨branch, opcode, jump⟩ others ⟨edit, events⟩ ⟨remaining, kept⟩
  exact ends_extendBranch listed wellFormed remaining kept events

/-- The layout of code without frames can be computed. -/
theorem Frameless.ends_sync {edit : Edit} (frameless : Frameless original pool edit)
    (events : Array Event) :
    ∃ laidOut, onBody Body.sync ⟨edit, events⟩ = .ok () laidOut := by
  obtain ⟨inner, computed⟩ := frameless.intact.listed.exists_sync frameless.intact.jumpsLive
    (fun frames known => by
      rw [frameless.unframed] at known
      cases known) events
  exact ⟨_, onBody_eq_ok_iff.mpr ⟨inner, computed, rfl⟩⟩

/-- Code without frames is still such once the layout is computed. -/
theorem Frameless.synced {before laidOut : Logged Edit}
    (frameless : Frameless original pool before.state)
    (computed : onBody Body.sync before = .ok () laidOut) :
    Frameless original pool laidOut.state ∧ Body.Synced before.state.body laidOut.state.body := by
  have syncs : Syncs before.state laidOut.state := ⟨before.events, laidOut.events, computed⟩
  have synced := syncs.synced frameless.rewired.listed
  have settles := ends_onBody (frameless.intact.settles_of_sync before.events)
  rw [computed] at settles
  exact ⟨⟨frameless.rewired.synced synced, settles.intact, synced.unframed_eq frameless.unframed,
    syncs.pool.trans frameless.pool⟩, synced⟩

/-- However a round over code without frames ends. After a round that extends nothing, every branch is
in reach. -/
theorem Frameless.ends_round (listed : original.Listed) (wellFormed : original.WellFormed)
    {before : Logged Edit} (frameless : Frameless original pool before.state) :
    Task.Ends
      (fun changed after => Frameless original pool after ∧ (changed = false →
        Body.Synced before.state.body after.body ∧ after.body.oversized = []))
      (fun error after => after.pool = pool ∧ UnrelaxedUnframed original after error)
      (round before) := by
  obtain ⟨laidOut, computed⟩ := frameless.ends_sync before.events
  obtain ⟨settled, synced⟩ := frameless.synced computed
  have extended := ends_forM_extendBranch listed wellFormed (frameless.rewired.pending synced) settled
  rw [round, Task.bind_of_eq_ok computed, extendOversized,
    Task.bind_of_eq_ok (run_body! laidOut.state laidOut.events)]
  cases oversized : laidOut.state.body.oversized with
  | nil => exact ⟨settled, fun _ => ⟨synced, oversized⟩⟩
  | cons entry others =>
    rw [oversized] at extended
    refine extended.bind fun _ after kept => ⟨kept, fun unchanged => ?_⟩
    simp at unchanged

end Rounds

section Once

variable {original : Body} {pool : Pool} {events : Array Event}

/-- An extension leaves no branch on its original condition that is not pending anymore. -/
theorem turned_of_forM_extendBranch (listed : original.Listed) (wellFormed : original.WellFormed)
    {branches : List Handle} (alive : ∀ branch ∈ branches, original.contains branch = true)
    {oversized : List (Handle × Opcode × Jump)} {before after : Logged Edit}
    (pending : original.Pending oversized before.state.body)
    (unframed : before.state.body.frames? = none)
    (turned : ∀ branch ∈ branches, branch ∉ oversized.map Prod.fst →
      original.isUpright before.state.body branch = false)
    (ran : (oversized.forM fun (branch, opcode, jump) => extendBranch branch opcode jump) before =
      .ok () after) :
    ∀ branch ∈ branches, original.isUpright after.state.body branch = false := by
  have left := forM_extendBranch_induction
    (fun entries edit => original.Pending entries edit.body ∧ edit.body.frames? = none ∧
      ∀ branch ∈ branches, branch ∉ entries.map Prod.fst → original.isUpright edit.body branch = false)
    ?_ ⟨pending, unframed, turned⟩ ran
  · intro branch member
    exact left.2.2 branch member List.not_mem_nil
  · rintro branch opcode jump others edit later ⟨remaining, frameless, turnedBefore⟩ extends'
    have branching := remaining.shaped branch opcode jump (by simp)
    have grows := extends'.grows remaining.rewired.listed (Body.contains_of_shape? branching)
    refine ⟨remaining.extends listed (Body.wellFormed_iff.mp wellFormed) extends',
      grows.unframed_eq frameless, fun other member absent => ?_⟩
    by_cases same : other = branch
    · rw [same]
      exact remaining.not_isUpright listed frameless extends'
    · have present := remaining.rewired.contains listed (alive other member)
      rw [Body.isUpright, grows.shape? other same present, ← Body.isUpright]
      exact turnedBefore other member (by simp [same, absent])

/-- Code without frames stays so, and a branch that was extended does not test its original condition
as a 16-bit branch anymore. -/
theorem Extended.frameless (intact : original.Intact) (wellFormed : original.WellFormed)
    (unframed : original.frames? = none) {count : Nat}
    {done : List (Handle × Option (Instruction Handle))} {after : Logged Edit}
    (extended : Extended ⟨⟨original, pool⟩, events⟩ count done after) :
    Frameless original pool after.state ∧ (done.map Prod.fst).Nodup ∧
      ∀ branch ∈ done.map Prod.fst, original.isUpright after.state.body branch = false := by
  induction extended with
  | initial =>
    exact ⟨⟨Body.Rewired.refl intact.listed intact.jumpsLive, intact, unframed, rfl⟩, .nil, by simp⟩
  | @next _ done middle laidOut after earlier computed far ran inductionHypothesis =>
    obtain ⟨frameless, distinct, turned⟩ := inductionHypothesis
    obtain ⟨settled, synced⟩ := frameless.synced computed
    have pending := frameless.rewired.pending synced
    have kept := ends_forM_extendBranch intact.listed wellFormed pending settled
    rw [ran] at kept
    have upright (branch : Handle) (before : branch ∈ done.map Prod.fst) :
        original.isUpright laidOut.state.body branch = false := by
      rw [Body.isUpright, synced.shape?, ← Body.isUpright]
      exact turned branch before
    have alive := (earlier.next computed far ran).branches intact.listed wellFormed intact.jumpsLive
    rw [map_fst_append_extended] at alive ⊢
    refine ⟨kept, ?_, ?_⟩
    · refine distinct.append pending.distinct fun branch before now => ?_
      obtain ⟨⟨_, opcode, jump⟩, member, rfl⟩ := List.mem_map.mp now
      have same := upright _ before
      rw [pending.isUpright settled.unframed member] at same
      cases same
    · refine turned_of_forM_extendBranch intact.listed wellFormed (fun branch member =>
        (alive branch member).1) pending settled.unframed (fun branch member absent => ?_) ran
      exact upright branch ((List.mem_append.mp member).resolve_right absent)

/-- No branch of code without frames is extended twice. -/
theorem noneTwice_of_unframed (intact : original.Intact) (wellFormed : original.WellFormed)
    (unframed : original.frames? = none) : NoneTwice ⟨⟨original, pool⟩, events⟩ := by
  intro count done middle laidOut extended computed
  obtain ⟨frameless, distinct, turned⟩ := extended.frameless intact wellFormed unframed
  obtain ⟨settled, synced⟩ := frameless.synced computed
  have pending := frameless.rewired.pending synced
  refine distinct.append pending.distinct fun branch before now => ?_
  -- A branch that was extended is turned for good, and one that is out of reach still stands upright.
  obtain ⟨⟨_, opcode, jump⟩, member, rfl⟩ := List.mem_map.mp now
  have upright := pending.isUpright settled.unframed member
  rw [Body.isUpright, synced.shape?, ← Body.isUpright, turned _ before] at upright
  cases upright

end Once

section Result

variable {original : Body} {pool : Pool} {events : Array Event}

/-- An inverted branch of code without frames hops over its trampoline exactly. -/
theorem Frameless.offset_of_inverted {last : Body} {after : Edit}
    (frameless : Frameless original pool after) (synced : Body.Synced last after.body)
    {branch : Handle} {opcode opposite : Opcode}
    {old new : Jump} (originally : original.get branch = .ok (.branch opcode old))
    (inverts : opcode.inverted? = some opposite)
    (now : after.body.get branch = .ok (.branch opposite new)) : new.offset = 8 := by
  obtain ⟨before, foundBefore, branchesBefore⟩ := Body.get_eq_ok_iff.mp originally
  obtain ⟨slot, found, branches⟩ := Body.get_eq_ok_iff.mp now
  have shapedBefore : original.shape? branch = some (.branch opcode old.target) :=
    Body.shape?_eq_some_iff.mpr ⟨before, foundBefore, by rw [branchesBefore]; rfl⟩
  have shaped : after.body.shape? branch = some (.branch opposite new.target) :=
    Body.shape?_eq_some_iff.mpr ⟨slot, found, by rw [branches]; rfl⟩
  cases frameless.rewired.branches branch opcode old.target shapedBefore with
  | same shapedNow =>
    rw [shaped, Option.some.injEq, Instruction.branch.injEq] at shapedNow
    exact absurd shapedNow.1 (Opcode.widened?_of_inverted? inverts).2.2.1
  | widened _ shapedNow =>
    rw [shaped] at shapedNow
    cases shapedNow
  | inverted _ _ shapedNow _ follows added _ adjacent _ =>
    rw [shaped, Option.some.injEq, Instruction.branch.injEq] at shapedNow
    obtain ⟨landing, next⟩ := adjacent frameless.unframed
    have alive := (frameless.rewired.listed.live _).mp (Layout.mem_of_successor? follows)
    obtain ⟨onward, wide⟩ := frameless.rewired.inserted _ alive added
    exact Body.offset_of_adjacent synced.laid synced.measured found branches
      (shapedNow.2.trans landing) follows wide next

/-- However relaxation of code without frames ends. -/
theorem ends_relaxRounds_of_unframed (intact : original.Intact) (wellFormed : original.WellFormed)
    (unframed : original.frames? = none) (few : original.branchCount < roundLimit) :
    Task.Ends
      (fun _ after => Frameless original pool after ∧ ∃ last, Body.Synced last after.body ∧
        after.body.oversized = [])
      (fun error after => after.pool = pool ∧ UnrelaxedUnframed original after error)
      (relaxRounds roundLimit 0 ⟨⟨original, pool⟩, events⟩) := by
  have extendsOnce := extendsOnce_of_nodup intact.listed wellFormed intact.jumpsLive few
    (@noneTwice_of_unframed original pool events intact wellFormed unframed)
  -- No branch is extended twice, so there is a last round, and it is the one that decides.
  obtain ⟨count, done, last, extended, _, final, ran⟩ := extendsOnce.rounds
  have ends := (extended.frameless intact wellFormed unframed).1.ends_round intact.listed wellFormed
  rw [ran]
  cases finished : round last with
  | error error after =>
    rw [finished] at ends
    have failed : discard round last = .error error after := Task.bind_of_eq_error finished
    rw [Task.bind_of_eq_error failed]
    exact ends
  | ok changed after =>
    rw [finished] at ends
    have succeeded : discard round last = .ok () after := Task.bind_of_eq_ok finished
    have stopped : changed = false := by
      cases changed with
      | true => exact absurd finished (final after)
      | false => rfl
    rw [Task.bind_of_eq_ok succeeded]
    exact ⟨ends.1, _, ends.2 stopped⟩

/-- Relaxation of code without frames is complete. Each branch is extended once at most, and the pool is
never touched. If relaxation returns, every branch that it inverted has an offset of eight. It fails
only for a conditional branch that ends the code, or because the relaxed code is too long. -/
theorem relax_complete_of_unframed {body : Body} (intact : body.Intact) (wellFormed : body.WellFormed)
    (unframed : body.frames? = none) (small : body.place.codeLength < 0x80000000) (pool : Pool)
    (events : Array Event) :
    ExtendsOnce ⟨⟨body, pool⟩, events⟩ ∧
    Task.Ends (fun _ after => RelaxedUnframed body pool after)
      (fun error after => after.pool = pool ∧ UnrelaxedUnframed body after error)
      (relax ⟨⟨body, pool⟩, events⟩) := by
  have few : body.branchCount < roundLimit := by
    have counted := intact.listed.three_mul_branchCount_le
    rw [roundLimit]
    omega
  refine ⟨extendsOnce_of_nodup intact.listed wellFormed intact.jumpsLive few
    (noneTwice_of_unframed intact wellFormed unframed), ?_⟩
  apply ends_relax (ends_relaxRounds_of_unframed intact wellFormed unframed few)
  · intro relaxed settled short
    obtain ⟨frameless, last, synced, reached⟩ := settled
    exact ⟨frameless.pool, fun _ _ _ _ _ originally inverts now =>
      frameless.offset_of_inverted synced originally inverts now⟩
  · intro relaxed settled long
    obtain ⟨frameless, last, synced, reached⟩ := settled
    have near := frameless.rewired.listed.oversized_eq_nil_iff.mp reached
    exact ⟨frameless.pool, .long long (frameless.rewired.relaxed intact.listed) near synced.sync_again⟩

set_option maxRecDepth 20000 in
theorem relax_complete_of_unframed_farBranch :
    Body.farBranch.Intact ∧ Body.farBranch.WellFormed ∧ Body.farBranch.frames? = none ∧
      Body.farBranch.place.codeLength < 0x80000000 ∧
      ExtendsOnce ⟨⟨Body.farBranch, Pool.empty⟩, #[]⟩ ∧
      ∃ after, relax ⟨⟨Body.farBranch, Pool.empty⟩, #[]⟩ = .ok () after ∧
        RelaxedUnframed Body.farBranch Pool.empty after.state ∧
        after.state.body.slot? ⟨0⟩ = some ⟨.branch .ifne ⟨⟨1⟩, 8⟩, 0⟩ := by
  have runs : relaxesWithin 2 (fun edit => edit.body.slot? ⟨0⟩ = some ⟨.branch .ifne ⟨⟨1⟩, 8⟩, 0⟩)
      ⟨⟨Body.farBranch, Pool.empty⟩, #[]⟩ = true := by
    decide +kernel
  have intact : Body.farBranch.Intact := ⟨by decide, by decide +kernel⟩
  have wellFormed : Body.farBranch.WellFormed := by decide +kernel
  have small : Body.farBranch.place.codeLength < 0x80000000 := by decide +kernel
  obtain ⟨once, ends⟩ := relax_complete_of_unframed intact wellFormed rfl small Pool.empty #[]
  obtain ⟨after, ran, inverted⟩ := exists_relax (by decide) runs
  rw [ran] at ends
  exact ⟨intact, wellFormed, rfl, small, once, after, ran, ends, inverted⟩

end Result

end Edit

end Classfile
