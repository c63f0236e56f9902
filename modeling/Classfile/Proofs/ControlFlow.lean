import Classfile.Proofs.Evaluation

/-!
Relaxation keeps the control flow of a body.

Control may take a detour through the `goto_w` instructions that relaxation inserts, but from every
branch it arrives where it arrived before. The invariant `Body.Rewired` says for each original
branch which of three states it is in: it still tests its condition, it was widened, or it tests the
opposite condition and hops over a trampoline. A branch is never inverted twice. Where the body has
frames, its trampoline has none, so that an island is used instead. Where it has no frames, nothing
ever comes between the branch, its trampoline and the instruction after them.
-/

namespace Classfile

namespace Opcode

/-- A condition has no wide form, and the opposite of its opposite is the condition. -/
theorem widened?_of_inverted? {opcode opposite : Opcode} (inverts : opcode.inverted? = some opposite) :
    opposite.widened? = none ∧ opposite.isTransfer = false ∧ opposite ≠ opcode ∧
      opcode.isTransfer = false ∧ opposite.inverted? = some opcode := by
  cases opcode <;> simp only [inverted?, reduceCtorEq] at inverts <;> cases inverts <;> decide

/-- An opcode with a wide form is no condition, and neither is the wide form. -/
theorem inverted?_of_widened? {opcode wider : Opcode} (widens : opcode.widened? = some wider) :
    opcode.inverted? = none ∧ wider.inverted? = none ∧ wider.isTransfer = opcode.isTransfer := by
  cases opcode <;> simp only [widened?, reduceCtorEq] at widens <;> cases widens <;> decide

/-- A 16-bit branch that cannot be widened is conditional. -/
theorem exists_inverted? {opcode : Opcode} (branches : opcode.format = .branch)
    (narrow : opcode.widened? = none) : ∃ opposite, opcode.inverted? = some opposite := by
  rw [← Option.isSome_iff_exists]
  cases opcode <;> revert branches narrow <;> decide

end Opcode

/-- The outcomes of all conditions, where a branch tests the negation of its opposite and an
unconditional branch is always taken. -/
structure Outcome where
  holds : Opcode → Bool
  unconditional : ∀ opcode, opcode.inverted? = none → holds opcode = true
  opposite : ∀ opcode other, opcode.inverted? = some other → holds other = !holds opcode

namespace Body

/-- Where control goes from a branch. -/
def destination? (body : Body) (outcome : Outcome) (handle : Handle) : Option Handle :=
  match body.shape? handle with
  | some (.branch opcode target) | some (.wideBranch opcode target) =>
    if outcome.holds opcode then some target else body.successor? handle
  | _ => none

/-- Control arrives at an original instruction and passes only through inserted `goto_w`
instructions on its way. -/
inductive Arrives (original now : Body) : Handle → Handle → Prop
  | here {handle : Handle} (kept : original.contains handle = true) : Arrives original now handle handle
  | through {handle target last : Handle} (inserted : original.contains handle = false)
      (leads : now.shape? handle = some (.wideBranch .gotoW target))
      (onward : Arrives original now target last) : Arrives original now handle last

/-- Control arrives at the same original instruction, or leaves the code in both cases. -/
def Delivers (original now : Body) : Option Handle → Option Handle → Prop
  | some first, some last => Arrives original now first last
  | none, none => True
  | _, _ => False

/-- What relaxation keeps of a body. -/
structure Relaxed (original now : Body) : Prop where
  /-- The layout lists exactly the instructions. -/
  listed : now.Listed
  /-- The original instructions keep their handles and their order. -/
  order : now.order.toList.filter original.contains = original.order.toList
  /-- All other instructions are `goto_w`. -/
  inserted : ∀ handle ∈ now.order.toList, original.contains handle = false →
    ∃ jump, now.get handle = .ok (.wideBranch .gotoW jump)
  /-- Instructions other than 16-bit branches keep their operands and targets. -/
  kept : ∀ handle instruction, original.get handle = .ok instruction →
    (∀ opcode jump, instruction ≠ .branch opcode jump) →
      ∃ new, now.get handle = .ok new ∧ new.shape = instruction.shape
  /-- From a branch control arrives where it arrived before, whatever the outcome. -/
  delivered : ∀ handle opcode jump, original.get handle = .ok (.branch opcode jump) →
    ∀ outcome, Delivers original now (now.destination? outcome handle)
      (original.destination? outcome handle)
  /-- Only an inverted branch falls through into an inserted instruction. -/
  straight : ∀ handle instruction, original.contains handle = true →
    now.get handle = .ok instruction → instruction.isTransfer = false →
      now.successor? handle = original.successor? handle ∨
        ∃ opcode jump opposite new, original.get handle = .ok (.branch opcode jump) ∧
          opcode.inverted? = some opposite ∧ instruction = .branch opposite new

/-- The state of an original branch. -/
inductive BranchState (original now : Body) (handle : Handle) (opcode : Opcode) (target : Handle) :
    Prop
  | same {current : Handle} (shaped : now.shape? handle = some (.branch opcode current))
      (arrives : Arrives original now current target)
      (straight : opcode.isTransfer = false → now.successor? handle = original.successor? handle)
  | widened {wider : Opcode} {current : Handle} (widens : opcode.widened? = some wider)
      (shaped : now.shape? handle = some (.wideBranch wider current))
      (arrives : Arrives original now current target)
      (straight : opcode.isTransfer = false → now.successor? handle = original.successor? handle)
  | inverted {opposite : Opcode} {next current trampoline : Handle}
      (inverts : opcode.inverted? = some opposite)
      (followed : original.successor? handle = some next)
      (shaped : now.shape? handle = some (.branch opposite current))
      (arrives : Arrives original now current next)
      (follows : now.successor? handle = some trampoline)
      (added : original.contains trampoline = false)
      (hops : Arrives original now trampoline target)
      (adjacent : now.frames? = none → current = next ∧ now.successor? trampoline = some next)
      (unframed : ∀ frames, now.frames? = some frames → ∀ frame ∈ frames, frame.target ≠ trampoline)

/-- Branches may have been extended, and `goto_w` instructions may have been inserted. -/
structure Lengthened (original now : Body) : Prop where
  listed : now.Listed
  size : original.slots.size ≤ now.slots.size
  order : now.order.toList.filter original.contains = original.order.toList
  inserted : ∀ handle, now.contains handle = true → original.contains handle = false →
    ∃ target, now.shape? handle = some (.wideBranch .gotoW target)
  kept : ∀ handle shape, original.shape? handle = some shape →
    (∀ opcode target, shape ≠ .branch opcode target) → now.shape? handle = some shape
  branches : ∀ handle opcode target, original.shape? handle = some (.branch opcode target) →
    ∃ other current, now.shape? handle = some (.branch other current) ∨
      now.shape? handle = some (.wideBranch other current)

/-- The invariant of relaxation. -/
structure Rewired (original now : Body) : Prop where
  listed : now.Listed
  size : original.slots.size ≤ now.slots.size
  order : now.order.toList.filter original.contains = original.order.toList
  inserted : ∀ handle, now.contains handle = true → original.contains handle = false →
    ∃ target, now.shape? handle = some (.wideBranch .gotoW target)
  kept : ∀ handle shape, original.shape? handle = some shape →
    (∀ opcode target, shape ≠ .branch opcode target) → now.shape? handle = some shape ∧
      (shape.isTransfer = false → now.successor? handle = original.successor? handle)
  branches : ∀ handle opcode target, original.shape? handle = some (.branch opcode target) →
    BranchState original now handle opcode target

section Rewired

variable {original now later : Body}

/-- Rewired code has all instructions of the original. -/
theorem Rewired.contains (rewired : Rewired original now) (listed : original.Listed)
    {handle : Handle} (present : original.contains handle = true) : now.contains handle = true := by
  rw [← listed.live, ← rewired.order, List.mem_filter] at present
  exact (rewired.listed.live handle).mp present.1

/-- A jump arrives where it did if the inserted instructions stay. -/
theorem Arrives.mono {first last : Handle} (arrives : Arrives original now first last)
    (same : ∀ handle target, original.contains handle = false →
      now.shape? handle = some (.wideBranch .gotoW target) →
        later.shape? handle = some (.wideBranch .gotoW target)) :
    Arrives original later first last := by
  induction arrives with
  | here kept => exact .here kept
  | through inserted leads _ inductionHypothesis =>
    exact .through inserted (same _ _ inserted leads) inductionHypothesis

/-- The successor of an original instruction is original. -/
theorem Listed.contains_successor? (listed : original.Listed) {handle next : Handle}
    (follows : original.successor? handle = some next) : original.contains next = true :=
  (listed.live next).mp (Layout.mem_of_successor? follows)

/-- A handle with a shape is in use. -/
theorem contains_of_shape? {body : Body} {handle : Handle} {shape : Instruction Handle}
    (shaped : body.shape? handle = some shape) : body.contains handle = true :=
  contains_iff_shape?.mpr ⟨shape, shaped⟩

/-- Every body is a lengthened form of itself. -/
theorem Lengthened.refl (listed : original.Listed) : Lengthened original original where
  listed := listed
  size := Nat.le_refl _
  order := List.filter_eq_self.mpr fun handle present => (listed.live handle).mp present
  inserted := by
    intro handle present absent
    rw [present] at absent
    cases absent
  kept := fun _ _ shaped _ => shaped
  branches := fun _ opcode target shaped => ⟨opcode, target, .inl shaped⟩

/-- Whatever became of a branch, it is a branch. -/
theorem BranchState.shaped {opcode : Opcode} {handle target : Handle}
    (state : BranchState original now handle opcode target) :
    ∃ other current, now.shape? handle = some (.branch other current) ∨
      now.shape? handle = some (.wideBranch other current) := by
  cases state with
  | same shaped => exact ⟨_, _, .inl shaped⟩
  | widened _ shaped => exact ⟨_, _, .inr shaped⟩
  | inverted _ _ shaped => exact ⟨_, _, .inl shaped⟩

/-- A rewired body is lengthened, whatever its branches do. -/
theorem Rewired.lengthened (rewired : Rewired original now) : Lengthened original now where
  listed := rewired.listed
  size := rewired.size
  order := rewired.order
  inserted := rewired.inserted
  kept := fun handle shape shaped plain => (rewired.kept handle shape shaped plain).1
  branches := fun handle opcode target shaped =>
    (rewired.branches handle opcode target shaped).shaped

/-- Every body is a rewired form of itself. -/
theorem Rewired.refl (listed : original.Listed) (live : original.JumpsLive) :
    Rewired original original where
  listed := listed
  size := Nat.le_refl _
  order := (Lengthened.refl listed).order
  inserted := (Lengthened.refl listed).inserted
  kept := fun handle shape shaped _ => ⟨shaped, fun _ => rfl⟩
  branches := by
    intro handle opcode target shaped
    refine .same shaped (.here ?_) fun _ => rfl
    obtain ⟨slot, found, same⟩ := shape?_eq_some_iff.mp shaped
    obtain ⟨jump, branches, rfl⟩ := Instruction.eq_branch_of_shape same
    exact live handle slot found jump (by rw [branches]; simp [Instruction.labels])

/-- A branch of the current body was a branch of the original one. -/
theorem Lengthened.exists_original (lengthened : Lengthened original now) {handle current : Handle}
    {opcode : Opcode} (shaped : now.shape? handle = some (.branch opcode current)) :
    ∃ before target, original.shape? handle = some (.branch before target) := by
  cases originally : original.shape? handle with
  | none =>
    have absent : original.contains handle = false := by
      rw [Body.contains, ← Option.isSome_map]
      change (original.shape? handle).isSome = false
      rw [originally]
      rfl
    obtain ⟨target, wide⟩ := lengthened.inserted handle (contains_of_shape? shaped) absent
    rw [shaped] at wide
    cases wide
  | some shape =>
    by_cases branches : ∃ before target, shape = .branch before target
    · obtain ⟨before, target, rfl⟩ := branches
      exact ⟨before, target, rfl⟩
    · have unchanged := lengthened.kept handle shape originally
        fun before target same => branches ⟨before, target, same⟩
      rw [shaped] at unchanged
      exact (branches ⟨_, _, (Option.some.inj unchanged).symm⟩).elim

/-- Lengthened code is still such once the layout is computed. -/
theorem Lengthened.synced (lengthened : Lengthened original now) (synced : Synced now later) :
    Lengthened original later where
  listed := synced.listed lengthened.listed
  size := by
    rw [synced.size]
    exact lengthened.size
  order := by rw [synced.order, lengthened.order]
  inserted := by
    intro handle present absent
    rw [synced.contains] at present
    rw [synced.shape?]
    exact lengthened.inserted handle present absent
  kept := by
    intro handle shape shaped plain
    rw [synced.shape?]
    exact lengthened.kept handle shape shaped plain
  branches := by
    intro handle opcode target shaped
    rw [synced.shape?]
    exact lengthened.branches handle opcode target shaped

/-- Computing the layout moves no branch to another state. -/
theorem BranchState.synced {handle target : Handle} {opcode : Opcode}
    (state : BranchState original now handle opcode target) (synced : Synced now later) :
    BranchState original later handle opcode target := by
  have arrival {first last : Handle} (arrives : Arrives original now first last) :
      Arrives original later first last :=
    arrives.mono fun other onward _ shaped => by rw [synced.shape?, shaped]
  cases state with
  | same shaped arrives straight =>
    refine .same (by rw [synced.shape?, shaped]) (arrival arrives) fun falls => ?_
    rw [synced.successor?, straight falls]
  | widened widens shaped arrives straight =>
    refine .widened widens (by rw [synced.shape?, shaped]) (arrival arrives) fun falls => ?_
    rw [synced.successor?, straight falls]
  | inverted inverts followed shaped arrives follows added hops adjacent unframed =>
    refine .inverted inverts followed (by rw [synced.shape?, shaped]) (arrival arrives)
      (by rw [synced.successor?, follows]) added (arrival hops) ?_ ?_
    · intro frameless
      rcases synced.frames?_eq with ⟨before, _⟩ | ⟨_, _, _, after, _⟩
      · obtain ⟨same, next⟩ := adjacent before
        exact ⟨same, by rw [synced.successor?, next]⟩
      · rw [frameless] at after
        cases after
    · intro frames known frame present
      rcases synced.frames?_eq with ⟨_, after⟩ | ⟨old, new, before, after, settledFrames⟩
      · rw [known] at after
        cases after
      · rw [known, Option.some.injEq] at after
        rw [after] at present
        obtain ⟨_, other, member, same⟩ := settledFrames.target present
        rw [← same]
        exact unframed old before other member

/-- Rewired code is still such once the layout is computed. -/
theorem Rewired.synced (rewired : Rewired original now) (synced : Synced now later) :
    Rewired original later where
  listed := (rewired.lengthened.synced synced).listed
  size := (rewired.lengthened.synced synced).size
  order := (rewired.lengthened.synced synced).order
  inserted := (rewired.lengthened.synced synced).inserted
  kept := by
    intro handle shape shaped other
    rw [synced.shape?, synced.successor?]
    exact rewired.kept handle shape shaped other
  branches := fun handle opcode target shaped =>
    (rewired.branches handle opcode target shaped).synced synced

/-- Control falls through an instruction that does not transfer it. -/
theorem not_transferAt {handle : Handle} {shape : Instruction Handle}
    (shaped : now.shape? handle = some shape) (falls : shape.isTransfer = false) :
    ¬now.TransferAt handle := by
  rintro ⟨_, slot, found, transfers⟩
  obtain ⟨other, foundOther, rfl⟩ := shape?_eq_some_iff.mp shaped
  rw [found, Option.some.injEq] at foundOther
  rw [Instruction.isTransfer_shape, ← foundOther, transfers] at falls
  cases falls

section Grows

variable {branch : Handle}

/-- A jump arrives where it did when another branch is extended. -/
theorem Arrives.grows {opcode : Opcode} {current first last : Handle}
    (arrives : Arrives original now first last) (grows : Grows branch now later)
    (branching : now.shape? branch = some (.branch opcode current)) :
    Arrives original later first last := by
  apply arrives.mono
  intro handle target _ shaped
  have different : handle ≠ branch := by
    rintro rfl
    rw [branching] at shaped
    cases shaped
  rw [grows.shape? handle different (contains_iff_shape?.mpr ⟨_, shaped⟩), shaped]

/-- Extending one branch moves no other branch to another state. -/
theorem BranchState.grows {opcode other : Opcode} {handle target current : Handle}
    (state : BranchState original now handle opcode target) (rewired : Rewired original now)
    (grows : Grows branch now later) (originally : original.contains branch = true)
    (branching : now.shape? branch = some (.branch other current)) (different : handle ≠ branch) :
    BranchState original later handle opcode target := by
  cases state with
  | same shaped arrives straight =>
    have alive := contains_iff_shape?.mpr ⟨_, shaped⟩
    refine .same (by rw [grows.shape? handle different alive, shaped])
      (arrives.grows grows branching) fun falls => ?_
    rw [grows.successor? handle different alive (.inr (not_transferAt shaped falls)), straight falls]
  | widened widens shaped arrives straight =>
    have alive := contains_iff_shape?.mpr ⟨_, shaped⟩
    refine .widened widens (by rw [grows.shape? handle different alive, shaped])
      (arrives.grows grows branching) fun falls => ?_
    have through := (Opcode.inverted?_of_widened? widens).2.2
    rw [grows.successor? handle different alive
      (.inr (not_transferAt shaped (by rw [← falls]; exact through))), straight falls]
  | @inverted opposite next hop trampoline inverts followed shaped arrives follows added hops adjacent
      unframed =>
    have alive := contains_iff_shape?.mpr ⟨_, shaped⟩
    have falls := (Opcode.widened?_of_inverted? inverts).2.1
    have present : now.contains trampoline = true :=
      (rewired.listed.live trampoline).mp (Layout.mem_of_successor? follows)
    have apart : trampoline ≠ branch := by
      rintro rfl
      rw [originally] at added
      cases added
    refine .inverted inverts followed (by rw [grows.shape? handle different alive, shaped])
      (arrives.grows grows branching) ?_ added (hops.grows grows branching) ?_ ?_
    · rw [grows.successor? handle different alive (.inr (not_transferAt shaped falls)), follows]
    · intro frameless
      have before := grows.unframed frameless
      obtain ⟨same, next⟩ := adjacent before
      exact ⟨same, by rw [grows.successor? trampoline apart present (.inl before), next]⟩
    · exact fun frames known => grows.target_ne present unframed known

/-- Extending a branch adds what may be added if the branch stays one. -/
theorem Lengthened.grows (lengthened : Lengthened original now) (grows : Grows branch now later)
    {opcode : Opcode} {target : Handle}
    (originally : original.shape? branch = some (.branch opcode target))
    (extended : ∃ other current, later.shape? branch = some (.branch other current) ∨
      later.shape? branch = some (.wideBranch other current)) : Lengthened original later := by
  have unchanged {handle : Handle} {shape : Instruction Handle} (different : handle ≠ branch)
      (shaped : now.shape? handle = some shape) : later.shape? handle = some shape := by
    rw [grows.shape? handle different (contains_of_shape? shaped), shaped]
  refine ⟨grows.listed, lengthened.size.trans grows.size, ?_, ?_, ?_, ?_⟩
  · rw [grows.order original.contains, lengthened.order]
    intro handle beyond
    by_contra present
    have inside := index_lt_of_contains (Bool.eq_true_of_not_eq_false present)
    have := lengthened.size
    omega
  · intro handle present absent
    by_cases before : now.contains handle = true
    · obtain ⟨onward, shaped⟩ := lengthened.inserted handle before absent
      refine ⟨onward, unchanged ?_ shaped⟩
      rintro rfl
      rw [contains_of_shape? originally] at absent
      cases absent
    · exact (grows.added handle present (Bool.eq_false_of_not_eq_true before)).2
  · intro handle shape shaped plain
    refine unchanged ?_ (lengthened.kept handle shape shaped plain)
    rintro rfl
    rw [originally, Option.some.injEq] at shaped
    exact plain _ _ shaped.symm
  · intro handle opcode' target' shaped
    by_cases same : handle = branch
    · rw [same]
      exact extended
    · obtain ⟨other, current, states⟩ := lengthened.branches handle opcode' target' shaped
      exact ⟨other, current, states.imp (unchanged same) (unchanged same)⟩

/-- Extending a branch keeps the invariant if it does so for the branch itself. -/
theorem Rewired.grows (rewired : Rewired original now)
    (grows : Grows branch now later) {opcode other : Opcode} {target current : Handle}
    (originally : original.shape? branch = some (.branch opcode target))
    (branching : now.shape? branch = some (.branch other current))
    (state : BranchState original later branch opcode target) : Rewired original later := by
  have lengthened := rewired.lengthened.grows grows originally state.shaped
  refine ⟨lengthened.listed, lengthened.size, lengthened.order, lengthened.inserted, ?_, ?_⟩
  · intro handle shape shaped plain
    have different : handle ≠ branch := by
      rintro rfl
      rw [originally, Option.some.injEq] at shaped
      exact plain _ _ shaped.symm
    obtain ⟨same, straight⟩ := rewired.kept handle shape shaped plain
    have alive := contains_of_shape? same
    refine ⟨lengthened.kept handle shape shaped plain, fun falls => ?_⟩
    rw [grows.successor? handle different alive (.inr (not_transferAt same falls)), straight falls]
  · intro handle opcode' target' shaped
    by_cases same : handle = branch
    · rw [same, originally, Option.some.injEq, Instruction.branch.injEq] at shaped
      rw [same, ← shaped.1, ← shaped.2]
      exact state
    · exact (rewired.branches handle opcode' target' shaped).grows rewired grows
        (contains_of_shape? originally) branching same

end Grows

/-- Where no island is needed in code with frames, the next instruction has a frame. -/
theorem frames_at_next {next branch : Handle} {frames : List Frame}
    (framed : now.needsIsland branch = .ok false) (follows : now.next? branch = .ok (some next))
    (known : now.frames? = some frames) : ∃ frame ∈ frames, frame.target = next := by
  simp only [needsIsland, known, follows] at framed
  change Except.ok _ = Except.ok false at framed
  simp only [Except.ok.injEq] at framed
  simpa using framed

/-- A branch that is extended still tests its original condition, or it is inverted and its body
has frames. -/
theorem BranchState.cases_of_branch {opcode other : Opcode} {handle target current : Handle}
    (state : BranchState original now handle opcode target)
    (branching : now.shape? handle = some (.branch other current)) :
    (other = opcode ∧ Arrives original now current target ∧
      (opcode.isTransfer = false → now.successor? handle = original.successor? handle)) ∨
    ∃ next trampoline, opcode.inverted? = some other ∧ original.successor? handle = some next ∧
      Arrives original now current next ∧ now.successor? handle = some trampoline ∧
      original.contains trampoline = false ∧ Arrives original now trampoline target ∧
      ∀ frames, now.frames? = some frames → ∀ frame ∈ frames, frame.target ≠ trampoline := by
  cases state with
  | same shaped arrives straight =>
    rw [branching, Option.some.injEq, Instruction.branch.injEq] at shaped
    obtain ⟨rfl, rfl⟩ := shaped
    exact .inl ⟨rfl, arrives, straight⟩
  | widened widens shaped arrives straight =>
    rw [branching] at shaped
    cases shaped
  | inverted inverts followed shaped arrives follows added hops adjacent unframed =>
    rw [branching, Option.some.injEq, Instruction.branch.injEq] at shaped
    obtain ⟨rfl, rfl⟩ := shaped
    exact .inr ⟨_, _, inverts, followed, arrives, follows, added, hops, unframed⟩

/-- A handle that is new to the current body is new to the original one. -/
theorem Rewired.not_contains (rewired : Rewired original now) {anchor new : Handle}
    {instruction : Instruction Jump} (inserted : Inserts anchor instruction now new later) :
    original.contains new = false := by
  by_contra present
  have inside := index_lt_of_contains (Bool.eq_true_of_not_eq_false present)
  have placed : new.index = now.slots.size := by rw [inserted.fresh, nextHandle]
  have := rewired.size
  omega

/-- A branch that gets its wide form leads where it did. -/
theorem BranchState.widens {branch target current : Handle} {opcode other wider : Opcode}
    (state : BranchState original now branch opcode target)
    (branching : now.shape? branch = some (.branch other current))
    (widens : other.widened? = some wider)
    (replaced : Replaces branch (.wideBranch wider (.to current)) now later)
    (grows : Grows branch now later) : BranchState original later branch opcode target := by
  rcases state.cases_of_branch branching with ⟨rfl, arrives, straight⟩ | ⟨_, _, inverts, _⟩
  · refine .widened widens ?_ (arrives.grows grows branching) fun falls => ?_
    · exact replaced.shape?_self
    · rw [Body.successor?, replaced.order]
      exact straight falls
  · rw [(Opcode.widened?_of_inverted? inverts).1] at widens
    cases widens

/-- A branch whose successor has the frame that a trampoline asks for has no trampoline yet. -/
theorem BranchState.upright {branch target current next : Handle} {opcode other : Opcode}
    (state : BranchState original now branch opcode target)
    (branching : now.shape? branch = some (.branch other current))
    (once : now.frames? = none → other = opcode) (framed : now.needsIsland branch = .ok false)
    (follows : now.next? branch = .ok (some next)) :
    other = opcode ∧ Arrives original now current target ∧
      (opcode.isTransfer = false → now.successor? branch = original.successor? branch) := by
  rcases state.cases_of_branch branching with
    upright | ⟨_, trampoline, inverted, _, _, hopping, _, _, unframed⟩
  · exact upright
  -- A branch that is inverted already is followed by its trampoline, which has no frame.
  · exfalso
    cases known : now.frames? with
    | none => exact (Opcode.widened?_of_inverted? inverted).2.2.1 (once known)
    | some frames =>
      obtain ⟨frame, member, same⟩ := frames_at_next framed follows known
      have successor := (next?_eq_ok_iff.mp follows).2
      rw [hopping, Option.some.injEq] at successor
      exact unframed frames known frame member (by rw [same, successor])

/-- A branch that hops over a trampoline leads where it did. -/
theorem BranchState.inverts {branch target current next trampoline : Handle} {middle : Body}
    {opcode other opposite : Opcode} (state : BranchState original now branch opcode target)
    (rewired : Rewired original now) (listed : original.Listed)
    (branching : now.shape? branch = some (.branch other current))
    (framesLive : ∀ frames, now.frames? = some frames →
      ∀ frame ∈ frames, now.contains frame.target = true)
    (once : now.frames? = none → other = opcode)
    (inverts : other.inverted? = some opposite) (framed : now.needsIsland branch = .ok false)
    (follows : now.next? branch = .ok (some next))
    (inserted : Inserts branch (.wideBranch .gotoW (.to current)) now trampoline middle)
    (replaced : Replaces branch (.branch opposite (.to next)) middle later)
    (grows : Grows branch now later) : BranchState original later branch opcode target := by
  obtain ⟨rfl, arrives, straight⟩ := state.upright branching once framed follows
  have successor := (next?_eq_ok_iff.mp follows).2
  have added := rewired.not_contains inserted
  have different := (inserted.ne_new (contains_of_shape? branching)).symm
  have followed : original.successor? branch = some next := by
    rw [← straight (Opcode.widened?_of_inverted? inverts).2.2.2.1, successor]
  refine .inverted inverts followed ?_ (.here (listed.contains_successor? followed)) ?_ added
    (.through added ?_ (arrives.grows grows branching)) ?_ ?_
  · exact replaced.shape?_self
  · rw [Body.successor?, replaced.order]
    exact inserted.successor?_anchor
  · exact (replaced.shape?_of_ne different).trans inserted.shape?_new
  · intro _
    refine ⟨rfl, ?_⟩
    rw [Body.successor?, replaced.order, ← successor]
    exact inserted.successor?_new rewired.listed
  · rintro frames known frame member rfl
    rw [Edit.frames?_of_inserts_replaces inserted replaced] at known
    exact inserted.ne_new (framesLive frames known frame member) rfl

/-- A branch that is pointed at an island leads where it did. -/
theorem BranchState.islands {branch target current site island : Handle} {middle body : Body}
    {opcode other : Opcode} {old frames : List Frame}
    (state : BranchState original now branch opcode target) (rewired : Rewired original now)
    (branching : now.shape? branch = some (.branch other current))
    (conditional : ∃ opposite, other.inverted? = some opposite)
    (known : now.frames? = some old) (found : now.islandSite? branch = .ok (some site))
    (inserted : Inserts site (.wideBranch .gotoW (.to current)) now island middle)
    (replaced : Replaces branch (.branch other (.to island)) middle body)
    (grows : Grows branch now (body.setFrames frames)) :
    BranchState original (body.setFrames frames) branch opcode target := by
  obtain ⟨opposite, inverts⟩ := conditional
  have falls := (Opcode.widened?_of_inverted? inverts).2.2.2.1
  have added := rewired.not_contains inserted
  have alive := contains_of_shape? branching
  have fresh := inserted.not_contains
  have apart : island ≠ branch := by
    rintro rfl
    rw [alive] at fresh
    cases fresh
  have elsewhere : branch ≠ site := by
    rintro rfl
    exact not_transferAt branching falls (transferAt_of_islandSite? found)
  have shaped : (body.setFrames frames).shape? branch = some (.branch other island) := by
    change body.shape? branch = _
    rw [replaced.shape?_self]
    rfl
  have leads : (body.setFrames frames).shape? island = some (.wideBranch .gotoW current) := by
    change body.shape? island = _
    rw [replaced.shape?_of_ne apart, inserted.shape?_new]
    rfl
  have successor : (body.setFrames frames).successor? branch = now.successor? branch := by
    change body.successor? branch = _
    rw [Body.successor?, replaced.order]
    exact inserted.successor?_other elsewhere (Ne.symm apart)
  -- The branch arrives where it arrived before, by way of the island.
  rcases state.cases_of_branch branching with
    ⟨rfl, arrives, straight⟩ | ⟨next, trampoline, inverted, followed, arrives, follows, newer, hops,
      unframed⟩
  · refine .same shaped (.through added leads (arrives.grows grows branching)) fun _ => ?_
    rw [successor, straight falls]
  · refine .inverted inverted followed shaped (.through added leads (arrives.grows grows branching))
      (by rw [successor, follows]) newer (hops.grows grows branching) ?_ ?_
    · intro frameless
      rw [grows.unframed frameless] at known
      cases known
    · have present : now.contains trampoline = true :=
        (rewired.listed.live trampoline).mp (Layout.mem_of_successor? follows)
      exact fun new knownNew => grows.target_ne present unframed knownNew

end Rewired

/-- Names of chosen items are a sublist of all names. -/
theorem sublist_of_filterMap {A B : Type} {choose : A → Option B} {name : B → A}
    (named : ∀ item result, choose item = some result → name result = item) (items : List A) :
    ((items.filterMap choose).map name).Sublist items := by
  induction items with
  | nil => exact .slnil
  | cons item items inductionHypothesis =>
    rw [List.filterMap_cons]
    cases chosen : choose item with
    | none => exact inductionHypothesis.cons _
    | some result =>
      rw [List.map_cons, named item result chosen]
      exact inductionHypothesis.cons_cons _

/-- Oversized branches come in layout order, each of them once. -/
theorem oversized_sublist (body : Body) :
    (body.oversized.map Prod.fst).Sublist body.order.toList := by
  rw [oversized, laidOut, List.filterMap_filterMap]
  apply sublist_of_filterMap
  intro handle entry chosen
  obtain ⟨_, found, chosen⟩ := Option.bind_eq_some_iff.mp chosen
  obtain ⟨slot, _, rfl⟩ := Option.map_eq_some_iff.mp found
  dsimp only at chosen
  split at chosen
  · split at chosen
    · cases chosen
    · cases chosen
      rfl
  · cases chosen

/-- What holds within a round while branches are left to extend. -/
structure Pending (original : Body) (entries : List (Handle × Opcode × Jump)) (now : Body) :
    Prop where
  rewired : Rewired original now
  distinct : (entries.map Prod.fst).Nodup
  shaped : ∀ branch opcode jump, (branch, opcode, jump) ∈ entries →
    now.shape? branch = some (.branch opcode jump.target)
  once : now.frames? = none → ∀ branch opcode jump, (branch, opcode, jump) ∈ entries →
    ∀ before target, original.shape? branch = some (.branch before target) → opcode = before
  framesLive : ∀ frames, now.frames? = some frames →
    ∀ frame ∈ frames, now.contains frame.target = true

/-- An inverted branch next to its trampoline and its target hops over the trampoline exactly. -/
theorem offset_of_adjacent {body : Body} (synced : Laid body.slot? 0 body.order.toList body.codeLength)
    (measured : body.JumpsMeasured) {branch trampoline next target : Handle} {slot : Slot}
    {opcode : Opcode} {jump : Jump} (found : body.slot? branch = some slot)
    (branching : slot.instruction = .branch opcode jump) (leads : jump.target = next)
    (follows : body.successor? branch = some trampoline)
    (shaped : body.shape? trampoline = some (.wideBranch .gotoW target))
    (adjacent : body.successor? trampoline = some next) : jump.offset = 8 := by
  obtain ⟨hop, foundHop, hopStarts⟩ := synced.successor? found follows
  obtain ⟨landing, foundLanding, landingStarts⟩ := synced.successor? foundHop adjacent
  obtain ⟨other, foundOther, same⟩ := shape?_eq_some_iff.mp shaped
  rw [foundHop, Option.some.injEq] at foundOther
  rw [← foundOther] at same
  obtain ⟨onward, wide, _⟩ := Instruction.eq_wideBranch_of_shape same
  obtain ⟨reached, foundReached, distance⟩ :=
    measured branch slot found jump (by rw [branching]; simp [Instruction.labels])
  rw [leads, foundLanding, Option.some.injEq] at foundReached
  rw [wide] at landingStarts
  rw [branching] at hopStarts
  simp only [Instruction.width] at landingStarts hopStarts
  rw [distance, ← foundReached, landingStarts, hopStarts, jumpOffset]
  omega

/-- The oversized branches of rewired code can all be extended. -/
theorem Rewired.pending {original now later : Body} (rewired : Rewired original now)
    (synced : Synced now later) : Pending original later.oversized later := by
  have kept := rewired.synced synced
  refine ⟨kept, later.oversized_sublist.nodup kept.listed.distinct, ?_, ?_, ?_⟩
  · intro branch opcode jump member
    exact shape?_of_mem_oversized member
  · intro frameless branch opcode jump member before target shaped
    obtain ⟨_, far, slot, found, same⟩ := mem_oversized_iff.mp member
    have current := shape?_of_mem_oversized member
    cases kept.branches branch before target shaped with
    | same shapedNow _ _ =>
      rw [current, Option.some.injEq, Instruction.branch.injEq] at shapedNow
      exact shapedNow.1
    | widened _ shapedNow _ _ =>
      rw [current] at shapedNow
      cases shapedNow
    -- Without frames such a branch hops over its trampoline alone, and that is never out of reach.
    | inverted _ _ shapedNow _ follows added hops adjacent _ =>
      rw [current, Option.some.injEq, Instruction.branch.injEq] at shapedNow
      obtain ⟨landing, next⟩ := adjacent frameless
      have alive := (kept.listed.live _).mp (Layout.mem_of_successor? follows)
      obtain ⟨onward, wide⟩ := kept.inserted _ alive added
      rw [offset_of_adjacent synced.laid synced.measured found same (shapedNow.2.trans landing) follows
        wide next] at far
      cases far
  · intro frames known frame member
    rcases synced.frames?_eq with ⟨_, after⟩ | ⟨old, new, _, after, settledFrames⟩
    · rw [known] at after
      cases after
    · rw [known, Option.some.injEq] at after
      exact (settledFrames.target (after ▸ member)).1

/-- An extension leaves the other oversized branches to be extended. -/
theorem Pending.extends {original : Body} (listed : original.Listed)
    (wellFormed : ∀ handle shape, original.shape? handle = some shape → shape.isWellFormed = true)
    {branch : Handle} {opcode : Opcode} {jump : Jump} {others : List (Handle × Opcode × Jump)}
    {before after : Edit}
    (pending : Pending original ((branch, opcode, jump) :: others) before.body)
    (extends' : Edit.Extends branch opcode jump.target before after) :
    Pending original others after.body := by
  obtain ⟨rewired, distinct, shaped, once, framesLive⟩ := pending
  have branching := shaped branch opcode jump (by simp)
  obtain ⟨origin, target, originally⟩ := rewired.lengthened.exists_original branching
  have state := rewired.branches branch origin target originally
  have grows := extends'.grows rewired.listed (contains_of_shape? branching)
  -- Only the branch itself changes its state; to the others the extension is growth.
  have extended : BranchState original after.body branch origin target := by
    cases extends' with
    | widened widens replaced => exact state.widens branching widens replaced grows
    | inverted narrow inverts framed follows inserted replaced =>
      exact state.inverts rewired listed branching framesLive
        (fun frameless => once frameless branch opcode jump (by simp) origin target originally)
        inverts framed follows inserted replaced grows
    | island narrow unframed known framed entered found inserted replaced described =>
      refine state.islands rewired branching ?_ framed found inserted replaced grows
      rcases state.cases_of_branch branching with ⟨rfl, _⟩ | ⟨_, _, inverted, _⟩
      · have formed := wellFormed branch _ originally
        exact Opcode.exists_inverted? (by simpa [Instruction.isWellFormed] using formed) narrow
      · exact ⟨origin, (Opcode.widened?_of_inverted? inverted).2.2.2.2⟩
  rw [List.map_cons, List.nodup_cons] at distinct
  have apart {other : Handle} {opcode' : Opcode} {jump' : Jump}
      (member : (other, opcode', jump') ∈ others) : other ≠ branch := by
    rintro rfl
    exact distinct.1 (List.mem_map.mpr ⟨_, member, rfl⟩)
  refine ⟨rewired.grows grows originally branching extended, distinct.2, ?_, ?_, ?_⟩
  · intro other opcode' jump' member
    have shapedOther := shaped other opcode' jump' (by simp [member])
    rw [grows.shape? other (apart member) (contains_of_shape? shapedOther), shapedOther]
  · intro frameless other opcode' jump' member
    exact once (grows.unframed frameless) other opcode' jump' (by simp [member])
  · intro frames known frame member
    obtain ⟨old, knownBefore, targets⟩ := grows.framed frames known
    rcases targets frame member with ⟨_, alive⟩ | ⟨earlier, earlierMember, same⟩
    · exact alive
    · rw [← same]
      exact grows.kept _ (framesLive old knownBefore earlier earlierMember)

/-- What follows an instruction is delivered to itself. -/
theorem Listed.delivers_successor? {original now : Body} (listed : original.Listed)
    (handle : Handle) :
    Delivers original now (original.successor? handle) (original.successor? handle) := by
  cases follows : original.successor? handle with
  | none => trivial
  | some next => exact Arrives.here (listed.contains_successor? follows)

/-- In each of the three states control arrives where it arrived before. -/
theorem BranchState.delivers {original now : Body} (listed : original.Listed) {handle target : Handle}
    {opcode : Opcode} (originally : original.shape? handle = some (.branch opcode target))
    (state : BranchState original now handle opcode target) (outcome : Outcome) :
    Delivers original now (now.destination? outcome handle)
      (original.destination? outcome handle) := by
  have before : original.destination? outcome handle =
      if outcome.holds opcode then some target else original.successor? handle := by
    rw [destination?, originally]
  rw [before]
  cases state with
  | @same current shaped arrives straight =>
    have after : now.destination? outcome handle =
        if outcome.holds opcode then some current else now.successor? handle := by
      rw [destination?, shaped]
    rw [after]
    by_cases holds : outcome.holds opcode = true
    · rw [if_pos holds, if_pos holds]
      exact arrives
    · have conditional : ∃ opposite, opcode.inverted? = some opposite := by
        rw [← Option.isSome_iff_exists, Option.isSome_iff_ne_none]
        exact fun none => holds (outcome.unconditional opcode none)
      obtain ⟨opposite, inverts⟩ := conditional
      rw [if_neg holds, if_neg holds, straight (Opcode.widened?_of_inverted? inverts).2.2.2.1]
      exact listed.delivers_successor? handle
  | @widened wider current widens shaped arrives straight =>
    obtain ⟨narrow, wide, _⟩ := Opcode.inverted?_of_widened? widens
    have after : now.destination? outcome handle =
        if outcome.holds wider then some current else now.successor? handle := by
      rw [destination?, shaped]
    rw [after, if_pos (outcome.unconditional opcode narrow), if_pos (outcome.unconditional wider wide)]
    exact arrives
  | @inverted opposite next current trampoline inverts followed shaped arrives follows added hops
      adjacent unframed =>
    have after : now.destination? outcome handle =
        if outcome.holds opposite then some current else now.successor? handle := by
      rw [destination?, shaped]
    rw [after, outcome.opposite opcode opposite inverts, followed, follows]
    cases outcome.holds opcode with
    | true => exact hops
    | false => exact arrives

/-- An original instruction keeps its layout successor unless control never gets there or it is an
inverted branch. -/
theorem Rewired.straight {original now : Body} (rewired : Rewired original now) {handle : Handle}
    {instruction : Instruction Jump} (present : original.contains handle = true)
    (found : now.get handle = .ok instruction) (falls : instruction.isTransfer = false) :
    now.successor? handle = original.successor? handle ∨
      ∃ opcode jump opposite new, original.get handle = .ok (.branch opcode jump) ∧
        opcode.inverted? = some opposite ∧ instruction = .branch opposite new := by
  obtain ⟨slot, foundSlot, rfl⟩ := get_eq_ok_iff.mp found
  obtain ⟨shape, shaped⟩ := contains_iff_shape?.mp present
  have current : now.shape? handle = some slot.instruction.shape := by
    rw [Body.shape?, foundSlot]
    rfl
  by_cases branches : ∃ opcode target, shape = .branch opcode target
  · obtain ⟨opcode, target, rfl⟩ := branches
    cases rewired.branches handle opcode target shaped with
    | same shapedNow _ straight =>
      rw [current, Option.some.injEq] at shapedNow
      rw [← Instruction.isTransfer_shape, shapedNow] at falls
      exact .inl (straight falls)
    | widened widens shapedNow _ straight =>
      rw [current, Option.some.injEq] at shapedNow
      rw [← Instruction.isTransfer_shape, shapedNow] at falls
      exact .inl (straight ((Opcode.inverted?_of_widened? widens).2.2 ▸ falls))
    | inverted inverts _ shapedNow _ _ _ _ _ _ =>
      rw [current, Option.some.injEq] at shapedNow
      obtain ⟨new, same, _⟩ := Instruction.eq_branch_of_shape shapedNow
      obtain ⟨before, foundBefore, shapedBefore⟩ := shape?_eq_some_iff.mp shaped
      obtain ⟨jump, branching, _⟩ := Instruction.eq_branch_of_shape shapedBefore
      exact .inr ⟨opcode, jump, _, new, get_eq_ok_iff.mpr ⟨before, foundBefore, branching⟩, inverts,
        same⟩
  · obtain ⟨same, straight⟩ := rewired.kept handle shape shaped
      fun opcode target equal => branches ⟨opcode, target, equal⟩
    rw [current, Option.some.injEq] at same
    rw [← Instruction.isTransfer_shape, same] at falls
    exact .inl (straight falls)

/-- Rewired code does what the original does. -/
theorem Rewired.relaxed {original now : Body} (rewired : Rewired original now)
    (listed : original.Listed) : Relaxed original now where
  listed := rewired.listed
  order := rewired.order
  inserted := by
    intro handle present absent
    obtain ⟨target, shaped⟩ :=
      rewired.inserted handle ((rewired.listed.live handle).mp present) absent
    obtain ⟨slot, found, same⟩ := shape?_eq_some_iff.mp shaped
    obtain ⟨jump, wide, _⟩ := Instruction.eq_wideBranch_of_shape same
    exact ⟨jump, get_eq_ok_iff.mpr ⟨slot, found, wide⟩⟩
  kept := by
    intro handle instruction found plain
    obtain ⟨slot, foundSlot, rfl⟩ := get_eq_ok_iff.mp found
    have shaped : original.shape? handle = some slot.instruction.shape := by
      rw [Body.shape?, foundSlot]
      rfl
    have unchanged := (rewired.kept handle _ shaped fun opcode target same => by
      obtain ⟨jump, branching, _⟩ := Instruction.eq_branch_of_shape same
      exact plain opcode jump branching).1
    obtain ⟨new, foundNew, same⟩ := shape?_eq_some_iff.mp unchanged
    exact ⟨new.instruction, get_eq_ok_iff.mpr ⟨new, foundNew, rfl⟩, same⟩
  delivered := by
    intro handle opcode jump found outcome
    obtain ⟨slot, foundSlot, same⟩ := get_eq_ok_iff.mp found
    have shaped : original.shape? handle = some (.branch opcode jump.target) := by
      rw [Body.shape?, foundSlot, Option.map_some, same]
      rfl
    exact (rewired.branches handle opcode jump.target shaped).delivers listed shaped outcome
  straight := fun handle instruction present found falls => rewired.straight present found falls

end Body

/-- Relaxation keeps the control flow of a body, however many rounds it takes. -/
theorem Edit.relaxed_of_relax {body : Body} {pool : Pool} {events : Array Event}
    {after : Logged Edit} (listed : body.Listed) (wellFormed : body.WellFormed)
    (live : body.JumpsLive) (ran : Edit.relax ⟨⟨body, pool⟩, events⟩ = .ok () after) :
    body.Relaxed after.state.body := by
  obtain ⟨rounds, middle, run, same, _⟩ := rounds_of_relax ran
  obtain ⟨last, rewired, syncs, _⟩ := relaxRounds_induction
    (fun edit => body.Rewired edit.body) (fun entries edit => body.Pending entries edit.body)
    (fun before after rewired syncs => Body.Rewired.pending rewired (syncs.synced rewired.listed))
    (fun branch opcode jump others before after pending extends' =>
      Body.Pending.extends listed (Body.wellFormed_iff.mp wellFormed) pending extends')
    (fun edit pending => Body.Pending.rewired pending)
    (Body.Rewired.refl listed live) run
  rw [← same]
  exact (rewired.synced (syncs.synced rewired.listed)).relaxed listed

/-- A conditional branch over a switch that is too wide for it. -/
def Body.farBranch : Body where
  nameIndex := 1
  maxStack := 1
  maxLocals := 1
  slots := #[some ⟨.branch .ifeq (.to ⟨2⟩), 0⟩,
    some ⟨.tableSwitch 0 (.to ⟨2⟩) 0 (List.replicate 8190 (.to ⟨2⟩)), 0⟩, some ⟨.simple .returnVoid, 0⟩]
  order := #[⟨0⟩, ⟨1⟩, ⟨2⟩]
  codeLength := 0
  ranges := []
  attributes := []
  context := none

set_option maxRecDepth 20000 in
theorem Edit.relaxed_of_relax_farBranch :
    ∃ after, Edit.relax ⟨⟨Body.farBranch, Pool.empty⟩, #[]⟩ = .ok () after ∧
      after.state.body.size = 4 ∧ Body.farBranch.Relaxed after.state.body := by
  have runs : relaxesWithin 2 (fun edit => edit.body.size = 4)
      ⟨⟨Body.farBranch, Pool.empty⟩, #[]⟩ = true := by decide +kernel
  obtain ⟨after, ran, size⟩ := exists_relax (by decide) runs
  refine ⟨after, ran, size, relaxed_of_relax ?_ ?_ ?_ ran⟩
  · decide
  · decide +kernel
  · decide +kernel

end Classfile
