import Classfile.Proofs.References
import Classfile.Proofs.Rereading

/-!
Bodies that are ready to be relaxed, and what keeps them so.

A body that was read is ready. It stays ready while instructions without jumps are spliced in and
constants are interned, and a run of relaxation that returns leaves it finished.
-/

namespace Classfile

namespace Task

variable {S A B : Type} {relation : S → S → Prop}

/-- Every run that returns leads from a state to a related one. -/
def Leads (relation : S → S → Prop) (task : Task S A) : Prop :=
  ∀ before value after, task before = .ok value after → relation before.state after.state

/-- Two tasks lead from one state to another one after the other. -/
theorem Leads.bind {task : Task S A} {next : A → Task S B} (leads : task.Leads relation)
    (continued : ∀ value, (next value).Leads relation)
    (transitive : ∀ first second third, relation first second → relation second third →
      relation first third) : (task >>= next).Leads relation := by
  intro before value after ran
  obtain ⟨first, middle, ranFirst, ranNext⟩ := bind_eq_ok_iff.mp ran
  exact transitive _ _ _ (leads _ _ _ ranFirst) (continued first _ _ _ ranNext)

/-- A task succeeds whether or not its result is used. -/
theorem discard_eq_ok_iff {task : Task S A} {before after : Logged S} {result : PUnit} :
    Functor.discard task before = .ok result after ↔ ∃ value, task before = .ok value after := by
  change EStateM.map _ task before = _ ↔ _
  cases ran : task before with
  | ok value middle => simp [EStateM.map, ran]
  | error error middle => simp [EStateM.map, ran]

/-- A task leads to the same states whether or not its result is used. -/
theorem Leads.discard {task : Task S A} (leads : task.Leads relation) :
    (Functor.discard task).Leads relation := by
  intro before result after ran
  obtain ⟨value, ranTask⟩ := discard_eq_ok_iff.mp ran
  exact leads _ _ _ ranTask

end Task

namespace Body

/-- The states that the frames of a body describe can be written, whatever pool names their
classes. -/
def StatesCounted (body : Body) : Prop :=
  ∀ frames, body.frames? = some frames → ∀ origin, StatesSmall origin body.context frames

/-- A body that can be relaxed and then written. -/
structure Ready (pool : Pool) (body : Body) : Prop where
  intact : body.Intact
  sorted : body.Sorted
  wellFormed : body.WellFormed
  encodable : body.Encodable pool
  counted : body.StatesCounted

section Ready

variable {body : Body} {pool grown : Pool}

/-- The instructions of a body in its form are well formed. -/
theorem Form.wellFormed {slots : List Slot} {code ranges attributes : Bytes}
    (formed : body.Form pool slots code ranges attributes) : body.WellFormed := by
  intro handle slot found
  rw [slot?_of_slots formed.compact.filled] at found
  obtain ⟨_, bytes, written⟩ := aligned_of_form 0 slots formed.compact.consecutive formed.codeForm slot
    (List.mem_of_getElem? found)
  have fine := written.wellFormed
  rwa [Slot.encoded, Instruction.isWellFormed_mapLabels] at fine

/-- A body that was read is ready, if it has one table of frames at most. -/
theorem Form.ready {slots : List Slot} {code ranges attributes : Bytes}
    (formed : body.Form pool slots code ranges attributes)
    (single : body.attributes.countP (fun entry => entry.table.isFrames) ≤ 1)
    (counted : body.StatesCounted) : body.Ready pool := by
  refine ⟨formed.intact, formed.sorted, formed.wellFormed, ?_, counted⟩
  refine ⟨fun range present => formed.range_sound present, formed.rangeCount,
    fun entry present => formed.table_sound present, ?_, formed.attributeCount, single⟩
  intro entry present
  obtain ⟨bytes, _, writable⟩ := formed.attributeForms.exists_form present
  exact writable.named

/-- A body stays encodable when the pool is extended. -/
theorem Encodable.extends (encodable : body.Encodable pool) (built : pool.Built)
    (extended : pool.Extends grown) : body.Encodable grown :=
  encodable.keeps ⟨fun _ present => present, fun _ _ _ _ before => before⟩ built extended rfl rfl

theorem Ready.extends (ready : body.Ready pool) (built : pool.Built) (extended : pool.Extends grown) :
    body.Ready grown :=
  ⟨ready.intact, ready.sorted, ready.wellFormed, ready.encodable.extends built extended, ready.counted⟩

theorem Finished.extends (finished : body.Finished pool) (built : pool.Built)
    (extended : pool.Extends grown) : body.Finished grown :=
  ⟨finished.listed, finished.wellFormed, finished.encodable.extends built extended, finished.reached,
    finished.short, finished.laidOut⟩

/-- A splice keeps all instructions in their order. -/
theorem keeps_splice (body : Body) {position : Nat} (instruction : Instruction Jump)
    (inside : position ≤ body.order.size) : Keeps body (body.splice position instruction inside) := by
  refine ⟨fun other present => (contains_splice inside other).mpr (.inr present), ?_⟩
  intro first second presentFirst presentSecond before
  -- Ranks are compared in the old instructions alone, among which nothing was inserted.
  have same : (body.splice position instruction inside).order.toList.filter body.contains =
      body.order.toList.filter body.contains := by
    rw [order_splice]
    exact Layout.filter_insertIdx (not_contains_nextHandle body)
  have reversed := rank_lt_iff_of_filter body.contains same presentSecond presentFirst
  omega

/-- An instruction without jumps can be spliced in anywhere. -/
theorem Ready.splice (ready : body.Ready pool) (built : pool.Built) {position : Nat}
    {instruction : Instruction Jump} (inside : position ≤ body.order.size)
    (straight : instruction.labels = []) (fine : instruction.isWellFormed = true) :
    (body.splice position instruction inside).Ready pool := by
  have outgrows : Outgrows body (body.splice position instruction inside) :=
    ready.intact.splice inside (by simp [straight])
  refine ⟨outgrows.intact, outgrows.sorted ready.sorted, ?_, ?_, ready.counted⟩
  · intro handle slot found
    rw [slot?_splice] at found
    split at found
    · cases found
      exact fine
    · exact ready.wellFormed handle slot found
  · exact ready.encodable.keeps (body.keeps_splice instruction inside) built (Pool.Extends.refl _) rfl rfl

/-- A body stays ready with another size of the stack. -/
theorem Ready.setMaxStack (ready : body.Ready pool) (built : pool.Built) (size : UInt16) :
    { body with maxStack := size }.Ready pool := by
  have same : Keeps body { body with maxStack := size } :=
    ⟨fun _ present => present, fun _ _ _ _ before => before⟩
  exact ⟨⟨⟨ready.intact.listed.distinct, ready.intact.listed.live⟩, ready.intact.live⟩, ready.sorted,
    ready.wellFormed, ready.encodable.keeps same built (Pool.Extends.refl _) rfl rfl, ready.counted⟩

end Ready

end Body

namespace Edit

/-- The name and the method of a body stay, and the pool only grows. -/
structure Retains (before after : Edit) : Prop where
  grown : before.pool.Extends after.pool
  named : after.body.nameIndex = before.body.nameIndex
  owned : after.body.context = before.body.context

theorem Retains.refl (edit : Edit) : Retains edit edit := ⟨Pool.Extends.refl _, rfl, rfl⟩

theorem Retains.trans {before middle after : Edit} (first : Retains before middle)
    (second : Retains middle after) : Retains before after :=
  ⟨first.grown.trans second.grown, second.named.trans first.named, second.owned.trans first.owned⟩

/-- A body that was ready still is. -/
structure Prepares (before after : Edit) : Prop extends Retains before after where
  ready : before.pool.Built → before.body.Ready before.pool → after.body.Ready after.pool

theorem Prepares.trans {before middle after : Edit} (first : Prepares before middle)
    (second : Prepares middle after) : Prepares before after :=
  ⟨first.toRetains.trans second.toRetains,
    fun built ready => second.ready (first.grown built).1 (first.ready built ready)⟩

/-- An extension retains what is known of the code. -/
theorem Extends.retains {branch target : Handle} {opcode : Opcode} {before after : Edit}
    (extends' : Extends branch opcode target before after) : Retains before after := by
  cases extends' with
  | widened widens replaced =>
    exact ⟨Pool.Extends.refl _, by rw [replaced.rest], by rw [replaced.rest]⟩
  | inverted narrow inverts framed follows inserted replaced =>
    refine ⟨Pool.Extends.refl _, ?_, ?_⟩
    · rw [replaced.rest, inserted.rest]
    · rw [replaced.rest, inserted.rest]
  | @island pool middle body context frames entry state site island narrow unframed known framed
      entered found inserted replaced described =>
    refine ⟨(MethodContext.spec_of_entryFrame entered).1, ?_, ?_⟩
    · change body.nameIndex = _
      rw [replaced.rest, inserted.rest]
    · change body.context = _
      rw [replaced.rest, inserted.rest]

theorem Syncs.retains {before after : Edit} (syncs : Syncs before after)
    (listed : before.body.Listed) : Retains before after := by
  have synced := syncs.synced listed
  refine ⟨by rw [syncs.pool]; exact Pool.Extends.refl _, ?_, ?_⟩
  · rw [synced.rest]
  · rw [synced.rest]

/-- Relaxation retains what is known of the code. -/
theorem Resting.retains {body : Body} {pool : Pool} {events : Array Event} {relaxed : Logged Edit}
    (resting : Resting pool ⟨body, pool⟩)
    (ran : relax ⟨⟨body, pool⟩, events⟩ = .ok () relaxed) : Retains ⟨body, pool⟩ relaxed.state := by
  obtain ⟨rounds, middle, run, same, -⟩ := rounds_of_relax ran
  -- A layout has to be listed for its sync to keep the rest, so both are carried together.
  obtain ⟨last, ⟨rested, retained⟩, syncs, -⟩ := relaxRounds_induction
    (fun edit => Resting pool edit ∧ Retains ⟨body, pool⟩ edit)
    (fun entries edit => Underway pool entries edit ∧ Retains ⟨body, pool⟩ edit)
    (fun before after ⟨resting, retained⟩ syncs =>
      ⟨resting.underway syncs, retained.trans (syncs.retains resting.listed)⟩)
    (fun branch opcode jump others before after ⟨underway, retained⟩ extends' =>
      ⟨underway.extends extends', retained.trans extends'.retains⟩)
    (fun edit ⟨underway, retained⟩ => ⟨underway.resting, retained⟩)
    ⟨resting, Retains.refl _⟩ run
  rw [← same]
  exact retained.trans (syncs.retains rested.listed)

end Edit

/-- The states in layout order are the ones that are listed. -/
theorem Body.Ready.resting {body : Body} {pool : Pool} (ready : body.Ready pool) (built : pool.Built) :
    Edit.Resting pool ⟨body, pool⟩ := by
  refine ⟨⟨ready.intact.listed, ready.wellFormed, built, ready.encodable, .inl rfl⟩, ?_⟩
  intro frames arranged known permuted ordered
  have sorted := ready.sorted
  rw [Body.Sorted, Body.frames_of_frames? known] at sorted
  rw [sorted.unique ordered permuted]
  exact ready.counted frames known pool

/-- Relaxation that reports does the same as relaxation alone. -/
theorem Edit.relax_of_relaxReporting {before after : Logged Edit}
    (ran : relaxReporting before = .ok () after) :
    ∃ middle, relax before = .ok () middle ∧ after.state = middle.state := by
  simp only [relaxReporting, Task.bind_eq_ok_iff, body!_eq_ok_iff] at ran
  obtain ⟨_, _, ⟨rfl, rfl⟩, _, middle, run, _, _, ⟨rfl, rfl⟩, reported⟩ := ran
  refine ⟨middle, run, ?_⟩
  split at reported
  · rw [Task.report_eq_ok_iff] at reported
    rw [← reported]
  · obtain ⟨_, rfl⟩ := Task.pure_eq_ok_iff.mp reported
    rfl

/-- A ready body that is relaxed is finished. -/
theorem Edit.finished_of_relaxReporting {body : Body} {pool : Pool} {events : Array Event}
    {relaxed : Logged Edit} (ready : body.Ready pool) (built : pool.Built)
    (ran : relaxReporting ⟨⟨body, pool⟩, events⟩ = .ok () relaxed) :
    Retains ⟨body, pool⟩ relaxed.state ∧ relaxed.state.body.Finished relaxed.state.pool := by
  obtain ⟨middle, run, same⟩ := relax_of_relaxReporting ran
  have resting := ready.resting built
  obtain ⟨relaxable, reached, short, last, synced⟩ := resting.relaxed run
  rw [same]
  exact ⟨resting.retains run, relaxable.listed, relaxable.wellFormed, relaxable.encodable, reached,
    short, last, synced⟩

end Classfile
