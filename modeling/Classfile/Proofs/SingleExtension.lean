import Classfile.Proofs.RoundBound

/-!
Relaxation that extends no branch twice.

A round extends all branches that do not reach their targets. Where no round comes upon a branch of an
earlier one, an extended branch keeps the form and the target it was given, and if it is still a
16-bit branch, it reaches that target at every later layout. Then there are no more rounds that
extend a branch than there are branches.
-/

namespace Classfile

namespace Edit

/-- A number of rounds follow each other, and each of them extends a branch. The branches are listed
in the order in which they are extended, with the shapes they have when their rounds end. -/
inductive Extended (start : Logged Edit) :
    Nat → List (Handle × Option (Instruction Handle)) → Logged Edit → Prop
  | initial : Extended start 0 [] start
  | next {count : Nat} {done : List (Handle × Option (Instruction Handle))}
      {middle laidOut after : Logged Edit} (earlier : Extended start count done middle)
      (computed : onBody Body.sync middle = .ok () laidOut)
      (far : laidOut.state.body.oversized ≠ [])
      (ran : (laidOut.state.body.oversized.forM fun (branch, opcode, jump) =>
        extendBranch branch opcode jump) laidOut = .ok () after) :
      Extended start (count + 1)
        (done ++ laidOut.state.body.oversized.map fun entry =>
          (entry.1, after.state.body.shape? entry.1)) after

/-- Whatever rounds there were, the branches that they extended and the branches that are oversized
after them are all different. -/
def NoneTwice (start : Logged Edit) : Prop :=
  ∀ count done middle laidOut, Extended start count done middle →
    onBody Body.sync middle = .ok () laidOut →
      (done.map Prod.fst ++ laidOut.state.body.oversized.map Prod.fst).Nodup

/-- Relaxation extends each branch once at most. -/
structure ExtendsOnce (start : Logged Edit) : Prop where
  once : NoneTwice start
  /-- An extended branch keeps its form and its target. -/
  kept : ∀ {count done middle laidOut}, Extended start count done middle →
    onBody Body.sync middle = .ok () laidOut →
      ∀ branch shape, (branch, shape) ∈ done → laidOut.state.body.shape? branch = shape
  /-- An extended branch that still is a 16-bit branch reaches its target at every later layout. -/
  near : ∀ {count done middle laidOut}, Extended start count done middle →
    onBody Body.sync middle = .ok () laidOut → ∀ branch shape, (branch, shape) ∈ done →
      ∀ opcode jump, laidOut.state.body.get branch = .ok (.branch opcode jump) →
        isNear jump.offset = true
  /-- At most as many rounds as there are 16-bit branches extend one, and the round after them is the
  last one. -/
  rounds : ∃ count done last, Extended start count done last ∧
    count ≤ start.state.body.branchCount ∧ (∀ later, round last ≠ .ok true later) ∧
      relaxRounds roundLimit 0 start = (do discard round; return count) last

/-- The branches of a round join those of the rounds before it. -/
theorem map_fst_append_extended (done : List (Handle × Option (Instruction Handle)))
    (oversized : List (Handle × Opcode × Jump)) (shape? : Handle → Option (Instruction Handle)) :
    (done ++ oversized.map fun entry => (entry.1, shape? entry.1)).map Prod.fst =
      done.map Prod.fst ++ oversized.map Prod.fst := by
  rw [List.map_append, List.map_map]
  rfl

section Rounds

variable {start : Logged Edit}

/-- Rounds of which the extended branches are recorded are rounds. -/
theorem Extended.rounds {count : Nat} {done : List (Handle × Option (Instruction Handle))}
    {after : Logged Edit} (extended : Extended start count done after) : Rounds start count after := by
  induction extended with
  | initial => exact .none
  | next _ computed far ran inductionHypothesis =>
    refine inductionHypothesis.next (round_eq_ok_iff.mpr ⟨_, computed, ran, ?_⟩)
    simp [far]

/-- The branches that rounds extend can be recorded. -/
theorem Rounds.exists_extended {count : Nat} {after : Logged Edit} (rounds : Rounds start count after) :
    ∃ done, Extended start count done after := by
  induction rounds with
  | none => exact ⟨[], .initial⟩
  | next _ extended inductionHypothesis =>
    obtain ⟨done, earlier⟩ := inductionHypothesis
    obtain ⟨laidOut, computed, ran, some⟩ := round_eq_ok_iff.mp extended
    refine ⟨_, earlier.next computed (fun empty => ?_) ran⟩
    rw [empty] at some
    cases some

/-- The result of the last round is that of relaxation. -/
theorem Rounds.relaxRounds_last {count : Nat} {last : Logged Edit} (rounds : Rounds start count last)
    (ends : ∀ later, round last ≠ .ok true later) {steps : Nat} (more : count < steps)
    (initial : Nat) :
    Edit.relaxRounds steps initial start = (do discard round; return initial + count) last := by
  obtain ⟨spare, rfl⟩ := Nat.exists_eq_add_of_lt more
  rw [Nat.add_assoc, rounds.relaxRounds, relaxRounds_succ]
  cases finished : round last with
  | error error later =>
    rw [Task.bind_of_eq_error finished]
    have failed : discard round last = .error error later := Task.bind_of_eq_error finished
    exact (Task.bind_of_eq_error failed).symm
  | ok changed later =>
    have stopped : changed = false := by
      cases changed with
      | true => exact absurd finished (ends later)
      | false => rfl
    have succeeded : discard round last = .ok () later := Task.bind_of_eq_ok finished
    rw [Task.bind_of_eq_ok finished, Task.bind_of_eq_ok succeeded, stopped]
    rfl

end Rounds

section Branches

variable {original : Body} {pool : Pool} {events : Array Event} {count : Nat}
  {done : List (Handle × Option (Instruction Handle))} {middle laidOut after : Logged Edit}

/-- Every round extends a branch. -/
theorem Extended.length_le (extended : Extended ⟨⟨original, pool⟩, events⟩ count done after) :
    count ≤ done.length := by
  induction extended with
  | initial => exact Nat.le_refl 0
  | next _ _ far _ inductionHypothesis =>
    have some := List.length_pos_iff.mpr far
    rw [List.length_append, List.length_map]
    omega

/-- Some rounds of relaxation leave rewired code. -/
theorem Extended.rewired (listed : original.Listed) (wellFormed : original.WellFormed)
    (live : original.JumpsLive) (extended : Extended ⟨⟨original, pool⟩, events⟩ count done after) :
    original.Rewired after.state.body :=
  (extended.rounds.bounds listed wellFormed live).1

/-- What a round computes is the layout of the body that the earlier rounds left. -/
theorem Extended.synced (listed : original.Listed) (wellFormed : original.WellFormed)
    (live : original.JumpsLive) (extended : Extended ⟨⟨original, pool⟩, events⟩ count done after)
    (computed : onBody Body.sync after = .ok () laidOut) :
    Body.Synced after.state.body laidOut.state.body := by
  have syncs : Syncs after.state laidOut.state := ⟨after.events, laidOut.events, computed⟩
  exact syncs.synced (extended.rewired listed wellFormed live).listed

/-- An oversized branch of rewired code is a branch of the original. -/
theorem mem_branches_of_mem_oversized {now : Body} (rewired : original.Rewired now) {branch : Handle}
    (far : branch ∈ now.oversized.map Prod.fst) :
    original.contains branch = true ∧ original.isUpright original branch = true := by
  obtain ⟨⟨_, opcode, jump⟩, member, rfl⟩ := List.mem_map.mp far
  obtain ⟨before, target, shaped⟩ :=
    rewired.lengthened.exists_original (Body.shape?_of_mem_oversized member)
  exact ⟨Body.contains_of_shape? shaped, Body.isUpright_self.mpr ⟨before, target, shaped⟩⟩

/-- Only branches of the original body are extended. -/
theorem Extended.branches (listed : original.Listed) (wellFormed : original.WellFormed)
    (live : original.JumpsLive) (extended : Extended ⟨⟨original, pool⟩, events⟩ count done after) :
    ∀ branch ∈ done.map Prod.fst,
      original.contains branch = true ∧ original.isUpright original branch = true := by
  induction extended with
  | initial => simp
  | @next _ _ middle laidOut _ earlier computed _ _ inductionHypothesis =>
    have rewired := earlier.rewired listed wellFormed live
    have synced := earlier.synced listed wellFormed live computed
    intro branch present
    rw [map_fst_append_extended, List.mem_append] at present
    rcases present with before | far
    · exact inductionHypothesis branch before
    · exact mem_branches_of_mem_oversized (rewired.synced synced) far

/-- Different branches of the original body are no more than it has. -/
theorem length_le_branchCount (listed : original.Listed) {branches : List Handle}
    (distinct : branches.Nodup) (present : ∀ branch ∈ branches,
      original.contains branch = true ∧ original.isUpright original branch = true) :
    branches.length ≤ original.branchCount := by
  rw [Body.branchCount, Body.uprightCount, List.countP_eq_length_filter]
  apply (List.subperm_of_subset distinct _).length_le
  intro branch member
  obtain ⟨alive, upright⟩ := present branch member
  exact List.mem_filter.mpr ⟨(listed.live branch).mpr alive, upright⟩

/-- Extensions change no shape but those of the extended branches. -/
theorem shape?_of_forM_extendBranch (listed : original.Listed) (wellFormed : original.WellFormed)
    {oversized : List (Handle × Opcode × Jump)} {before after : Logged Edit}
    (pending : original.Pending oversized before.state.body) {handle : Handle}
    (present : before.state.body.contains handle = true) (apart : handle ∉ oversized.map Prod.fst)
    (ran : (oversized.forM fun (branch, opcode, jump) => extendBranch branch opcode jump) before =
      .ok () after) : after.state.body.shape? handle = before.state.body.shape? handle := by
  induction oversized generalizing before with
  | nil =>
    cases ran
    rfl
  | cons entry others inductionHypothesis =>
    obtain ⟨branch, opcode, jump⟩ := entry
    obtain ⟨between, first, continued⟩ := Task.forM_cons_eq_ok_iff.mp ran
    have extends' := extends_of_extendBranch first
    rw [List.map_cons, List.mem_cons, not_or] at apart
    have branching := pending.shaped branch opcode jump (by simp)
    have grows := extends'.grows pending.rewired.listed (Body.contains_of_shape? branching)
    rw [inductionHypothesis (pending.extends listed (Body.wellFormed_iff.mp wellFormed) extends')
      (grows.kept handle present) apart.2 continued, grows.shape? handle apart.1 present]

end Branches

section Main

variable {original : Body} {pool : Pool} {events : Array Event}

/-- A round that comes upon no branch of an earlier one leaves the earlier branches as they are. -/
theorem Extended.shape?_eq (listed : original.Listed) (wellFormed : original.WellFormed)
    (live : original.JumpsLive)
    (once : NoneTwice ⟨⟨original, pool⟩, events⟩)
    {count : Nat} {done : List (Handle × Option (Instruction Handle))} {after : Logged Edit}
    (extended : Extended ⟨⟨original, pool⟩, events⟩ count done after) :
    ∀ branch shape, (branch, shape) ∈ done → after.state.body.shape? branch = shape := by
  induction extended with
  | initial => simp
  | @next _ done middle laidOut after earlier computed _ ran inductionHypothesis =>
    have rewired := earlier.rewired listed wellFormed live
    have synced := earlier.synced listed wellFormed live computed
    intro branch shape present
    rcases List.mem_append.mp present with before | now
    -- A branch of an earlier round is none of those that this round extends.
    · have member : branch ∈ done.map Prod.fst := List.mem_map.mpr ⟨_, before, rfl⟩
      have apart : branch ∉ laidOut.state.body.oversized.map Prod.fst := fun far =>
        List.disjoint_of_nodup_append (once _ _ _ _ earlier computed) member far
      have alive := (earlier.branches listed wellFormed live branch member).1
      rw [shape?_of_forM_extendBranch listed wellFormed (rewired.pending synced)
        ((rewired.synced synced).contains listed alive) apart ran, synced.shape?,
        inductionHypothesis branch shape before]
    · obtain ⟨entry, _, same⟩ := List.mem_map.mp now
      rw [Prod.mk.injEq] at same
      rw [← same.1, same.2]

/-- If no branch is extended twice, there are at most as many rounds as branches. -/
theorem Extended.count_le (listed : original.Listed) (wellFormed : original.WellFormed)
    (live : original.JumpsLive)
    (once : NoneTwice ⟨⟨original, pool⟩, events⟩)
    {count : Nat} {done : List (Handle × Option (Instruction Handle))} {after : Logged Edit}
    (extended : Extended ⟨⟨original, pool⟩, events⟩ count done after) :
    count ≤ original.branchCount := by
  have distinct : (done.map Prod.fst).Nodup := by
    cases extended with
    | initial => exact .nil
    | next earlier computed _ _ =>
      rw [map_fst_append_extended]
      exact once _ _ _ _ earlier computed
  have fewer := length_le_branchCount listed distinct (extended.branches listed wellFormed live)
  rw [List.length_map] at fewer
  exact extended.length_le.trans fewer

/-- Where no round comes upon a branch of an earlier one, branches keep what they were given, and the
branches bound the rounds. -/
theorem extendsOnce_of_nodup (listed : original.Listed) (wellFormed : original.WellFormed)
    (live : original.JumpsLive) (few : original.branchCount < roundLimit)
    (once : NoneTwice ⟨⟨original, pool⟩, events⟩) :
    ExtendsOnce ⟨⟨original, pool⟩, events⟩ := by
  refine ⟨once, ?_, ?_, ?_⟩
  · intro count done middle laidOut extended computed branch shape present
    rw [(extended.synced listed wellFormed live computed).shape?]
    exact extended.shape?_eq listed wellFormed live once branch shape present
  · intro count done middle laidOut extended computed branch shape present opcode jump found
    have rewired := extended.rewired listed wellFormed live
    have synced := extended.synced listed wellFormed live computed
    have member : branch ∈ done.map Prod.fst := List.mem_map.mpr ⟨_, present, rfl⟩
    have alive := (extended.branches listed wellFormed live branch member).1
    by_contra far
    have oversized : (branch, opcode, jump) ∈ laidOut.state.body.oversized :=
      Body.mem_oversized_iff.mpr
        ⟨((synced.listed rewired.listed).live branch).mpr
            ((rewired.synced synced).contains listed alive),
          Bool.eq_false_of_not_eq_true far, Body.get_eq_ok_iff.mp found⟩
    exact List.disjoint_of_nodup_append (once _ _ _ _ extended computed) member
      (List.mem_map.mpr ⟨_, oversized, rfl⟩)
  -- One round more than there are branches would extend some branch a second time.
  · have ends : ¬Endless ⟨⟨original, pool⟩, events⟩ := by
      intro endless
      obtain ⟨after, rounds⟩ := endless (original.branchCount + 1)
      obtain ⟨done, extended⟩ := rounds.exists_extended
      exact Nat.not_succ_le_self _ (extended.count_le listed wellFormed live once)
    obtain ⟨count, last, rounds, final⟩ := exists_last_of_not_endless ends
    obtain ⟨done, extended⟩ := rounds.exists_extended
    have bounded := extended.count_le listed wellFormed live once
    refine ⟨count, done, last, extended, bounded, final, ?_⟩
    rw [rounds.relaxRounds_last final (bounded.trans_lt few), Nat.zero_add]

end Main

end Edit

end Classfile
