import Classfile.Proofs.Outcomes

/-!
A prologue stays at the start of its body.

Relaxation inserts after branches and after instructions that control never falls through, and it
refers to what was referred to before, to what follows a branch, or to what it has just inserted. So
instructions at the start of the layout that have no targets, that control falls through and that
nothing refers to stay where they are, and nothing comes to refer to them.
-/

namespace Classfile

/-- An instruction without targets is known by its shape. -/
theorem Instruction.eq_of_shape_eq {first second : Instruction Jump} (straight : second.labels = [])
    (same : first.shape = second.shape) : first = second := by
  have restored {instruction : Instruction Jump} (straight : instruction.labels = []) :
      instruction.shape.mapLabels Jump.to = instruction := by
    cases instruction with
    | branch opcode jump | wideBranch opcode jump => cases straight
    | tableSwitch padding default low targets => cases straight
    | lookupSwitch padding default pairs => cases straight
    | _ => rfl
  have straightFirst : first.labels = [] := by
    have labels := congrArg Instruction.labels same
    rw [labels_shape, labels_shape, straight, List.map_nil] at labels
    exact List.map_eq_nil_iff.mp labels
  rw [← restored straightFirst, same, restored straight]

namespace Layout

variable {front order : List Handle} {anchor handle new : Handle}

/-- An insertion after what does not belong to the front of a layout leaves the front alone. -/
theorem prefix_insertAfter (leads : front <+: order) (absent : anchor ∉ front) :
    front <+: insertAfter order anchor new := by
  obtain ⟨back, rfl⟩ := leads
  induction front with
  | nil => exact List.nil_prefix
  | cons first front inductionHypothesis =>
    rw [List.mem_cons, not_or] at absent
    rw [List.cons_append, insertAfter, if_neg (Ne.symm absent.1)]
    exact (List.prefix_cons_inj first).mpr (inductionHypothesis absent.2)

/-- What follows right before a member of the front belongs to the front as well. -/
theorem mem_of_successor?_mem (leads : front <+: order) (distinct : order.Nodup)
    (follows : successor? order anchor = some handle) (present : handle ∈ front) : anchor ∈ front := by
  obtain ⟨back, rfl⟩ := leads
  induction front with
  | nil => cases present
  | cons first front inductionHypothesis =>
    obtain ⟨fresh, distinct⟩ := List.nodup_cons.mp distinct
    rw [List.cons_append, successor?] at follows
    by_cases same : first = anchor
    · exact same ▸ List.mem_cons_self
    · rw [if_neg same] at follows
      rcases List.mem_cons.mp present with rfl | later
      · exact absurd (mem_of_successor? follows) fresh
      · exact List.mem_cons_of_mem _ (inductionHypothesis later distinct follows)

end Layout

/-- An extended encoding mentions the same types. -/
theorem FrameKind.types_promoted (delta : UInt16) (kind : FrameKind) :
    ((Frame.promotion? delta kind).getD kind).types = kind.types := by
  rw [Frame.promotion?]
  split
  · rfl
  · cases kind <;> rfl

/-- Settling keeps the handles that frames refer to. -/
theorem Frame.handles_settled {previous : Option Nat} {arranged : List (Nat × Frame)} {frame : Frame}
    (present : frame ∈ settled previous arranged) :
    ∃ entry ∈ arranged, entry.2.handles = frame.handles := by
  induction arranged generalizing previous with
  | nil => cases present
  | cons entry arranged inductionHypothesis =>
    obtain ⟨bci, first⟩ := entry
    rw [settled] at present
    rcases List.mem_cons.mp present with rfl | later
    · exact ⟨(bci, first), List.mem_cons_self, by simp only [handles, FrameKind.types_promoted]⟩
    · obtain ⟨entry, member, same⟩ := inductionHypothesis later
      exact ⟨entry, List.mem_cons_of_mem _ member, same⟩

namespace Body

variable {before after : Body} {handle : Handle}

/-- Computing the layout adds no reference. -/
theorem Synced.references (synced : Synced before after) (mentioned : handle ∈ after.references) :
    handle ∈ before.references := by
  have ranges : after.ranges = before.ranges := by rw [synced.rest]
  rcases mem_references_iff.mp mentioned with ⟨source, shape, shaped, labelled⟩ | range | table
  · rw [synced.shape?] at shaped
    exact mem_references_iff.mpr (.inl ⟨source, shape, shaped, labelled⟩)
  · rw [ranges] at range
    exact mem_references_iff.mpr (.inr (.inl range))
  · obtain ⟨entry, present, mentions⟩ := table
    cases known : before.frames? with
    | none =>
      rw [synced.unframed known] at present
      exact mem_references_iff.mpr (.inr (.inr ⟨entry, present, mentions⟩))
    | some old =>
      obtain ⟨new, ⟨arranged, permuted, -, -, rfl⟩, attributes⟩ := synced.framed old known
      rw [attributes] at present
      rcases mem_references_replaceFrames present mentions with ⟨frame, settled, inside⟩ | kept
      · obtain ⟨placed, member, same⟩ := Frame.handles_settled settled
        exact mem_references_of_frame known (permuted.mem_iff.mp (List.mem_map_of_mem member))
          (same ▸ inside)
      · exact mem_references_iff.mpr (.inr (.inr kept))

end Body

namespace Edit

/-- An extension refers to what was referred to, to what follows the branch, and to what is new. -/
theorem Extends.references {branch target : Handle} {opcode : Opcode} {before after : Edit}
    (extends' : Extends branch opcode target before after)
    (branching : before.body.shape? branch = some (.branch opcode target)) {handle : Handle}
    (mentioned : handle ∈ after.body.references) :
    handle ∈ before.body.references ∨ before.body.successor? branch = some handle ∨
      before.body.contains handle = false := by
  have targeted : target ∈ before.body.references :=
    Body.mem_references_iff.mpr (.inl ⟨branch, _, branching, by simp [Instruction.labels]⟩)
  cases extends' with
  | widened widens replaced =>
    rcases replaced.references mentioned with new | old
    · obtain rfl : handle = target := by simpa [Instruction.labels, Jump.to] using new
      exact .inl targeted
    · exact .inl old
  | @inverted middle body opposite next trampoline narrow inverts framed follows inserted replaced =>
    rcases replaced.references mentioned with new | old
    · obtain rfl : handle = next := by simpa [Instruction.labels, Jump.to] using new
      exact .inr (.inl (Body.next?_eq_ok_iff.mp follows).2)
    · rcases inserted.references old with new | old
      · obtain rfl : handle = target := by simpa [Instruction.labels, Jump.to] using new
        exact .inl targeted
      · exact .inl old
  | @island pool middle body context frames entry state site island narrow unframed owned framed
      entered found inserted replaced described =>
    let known (other : Handle) : Prop :=
      other ∈ before.body.references ∨ before.body.contains other = false
    have fresh : known island := .inr inserted.not_contains
    have frameless (other : Handle) (mentioned : other ∈ body.references) : known other := by
      rcases replaced.references mentioned with new | old
      · obtain rfl : other = island := by simpa [Instruction.labels, Jump.to] using new
        exact fresh
      · rcases inserted.references old with new | old
        · obtain rfl : other = target := by simpa [Instruction.labels, Jump.to] using new
          exact .inl targeted
        · exact .inl old
    have answer : known handle := by
      rcases Body.mem_references_setFrames mentioned with ⟨frame, present, inside⟩ | old
      · obtain ⟨-, -, empty, unnamed⟩ := MethodContext.spec_of_entryFrame entered
        refine live_withIslandFrame ?_ (List.mem_of_getElem? described) fresh ?_ _ frame present handle
          inside
        · rwa [empty, List.append_nil]
        · intro other member mentioned inside
          exact .inl (Body.mem_references_of_frame framed member inside)
      · exact frameless handle old
    exact answer.imp_right .inr

/-- An extension inserts one instruction at most, after a branch or after a transfer of control. -/
theorem Extends.order {branch target : Handle} {opcode : Opcode} {before after : Edit}
    (extends' : Extends branch opcode target before after) :
    after.body.order.toList = before.body.order.toList ∨
      ∃ anchor new, (anchor = branch ∨ before.body.TransferAt anchor) ∧
        after.body.order.toList = Layout.insertAfter before.body.order.toList anchor new := by
  cases extends' with
  | widened widens replaced => exact .inl (by rw [replaced.order])
  | inverted narrow inverts framed follows inserted replaced =>
    exact .inr ⟨_, _, .inl rfl, by rw [replaced.order, inserted.order]⟩
  | island narrow unframed known framed entered found inserted replaced described =>
    have order := inserted.order
    rw [← replaced.order] at order
    exact .inr ⟨_, _, .inr (Body.transferAt_of_islandSite? found), order⟩

end Edit

namespace Body

/-- The parts of a body that relaxation does not touch. -/
def fixed (body : Body) : ConstantIndex × UInt16 × UInt16 × List ExceptionRange × Option MethodContext :=
  (body.nameIndex, body.maxStack, body.maxLocals, body.ranges, body.context)

/-- Computing the layout keeps what relaxation does not touch. -/
theorem Synced.fixed (synced : Synced before after) : after.fixed = before.fixed := by
  rw [synced.rest]
  rfl

/-- Instructions at the start of the layout that nothing refers to. -/
structure Prologue (block : List (Handle × Instruction Jump)) (body : Body) : Prop where
  leads : block.map Prod.fst <+: body.order.toList
  shaped : ∀ entry ∈ block, body.shape? entry.1 = some entry.2.shape
  unreferenced : ∀ entry ∈ block, entry.1 ∉ body.references

/-- Control falls through the instructions, and they have no targets. -/
def Straight (block : List (Handle × Instruction Jump)) : Prop :=
  ∀ entry ∈ block, entry.2.isTransfer = false ∧ entry.2.labels = []

section Prologue

variable {block : List (Handle × Instruction Jump)} {now later : Body}

/-- Computing the layout keeps a prologue in place. -/
theorem Prologue.synced (prologue : now.Prologue block) (synced : Synced now later) :
    later.Prologue block := by
  refine ⟨?_, fun entry member => ?_, fun entry member mentioned => ?_⟩
  · rw [synced.order]
    exact prologue.leads
  · rw [synced.shape?]
    exact prologue.shaped entry member
  · exact prologue.unreferenced entry member (synced.references mentioned)

/-- A branch does not belong to the prologue. -/
theorem Prologue.ne_branch (prologue : now.Prologue block) (straight : Straight block)
    {branch target : Handle} {opcode : Opcode}
    (branching : now.shape? branch = some (.branch opcode target)) : branch ∉ block.map Prod.fst := by
  intro present
  obtain ⟨entry, member, rfl⟩ := List.mem_map.mp present
  rw [prologue.shaped entry member, Option.some.injEq] at branching
  obtain ⟨jump, same, -⟩ := Instruction.eq_branch_of_shape branching
  have labels := (straight entry member).2
  rw [same] at labels
  cases labels

/-- What stops control does not belong to the prologue. -/
theorem Prologue.ne_transfer (prologue : now.Prologue block) (straight : Straight block)
    {anchor : Handle} (transfers : now.TransferAt anchor) : anchor ∉ block.map Prod.fst := by
  intro present
  obtain ⟨entry, member, rfl⟩ := List.mem_map.mp present
  refine not_transferAt (prologue.shaped entry member) ?_ transfers
  rw [Instruction.isTransfer_shape]
  exact (straight entry member).1

end Prologue

end Body

namespace Edit

variable {branch target : Handle} {opcode : Opcode} {before after : Edit}

/-- An extended branch still is a branch. -/
theorem Extends.branches (extends' : Extends branch opcode target before after) :
    ∃ other current, after.body.shape? branch = some (.branch other current) ∨
      after.body.shape? branch = some (.wideBranch other current) := by
  cases extends' with
  | widened widens replaced =>
    exact ⟨_, _, .inr (by rw [replaced.shape?_self, Instruction.shape_wideBranch])⟩
  | inverted narrow inverts framed follows inserted replaced =>
    exact ⟨_, _, .inl (by rw [replaced.shape?_self, Instruction.shape_branch])⟩
  | island narrow unframed known framed entered found inserted replaced described =>
    have shaped := replaced.shape? branch
    rw [if_pos rfl, Instruction.shape_branch] at shaped
    exact ⟨_, _, .inl shaped⟩

/-- An extension keeps what relaxation does not touch. -/
theorem Extends.fixed (extends' : Extends branch opcode target before after) :
    after.body.fixed = before.body.fixed := by
  cases extends' with
  | widened widens replaced =>
    rw [replaced.rest]
    rfl
  | inverted narrow inverts framed follows inserted replaced =>
    rw [replaced.rest, inserted.rest]
    rfl
  | @island pool middle body context frames entry state site island narrow unframed owned framed
      entered found inserted replaced described =>
    change body.fixed = _
    rw [replaced.rest, inserted.rest]
    rfl

end Edit

namespace Body

section Extends

variable {block : List (Handle × Instruction Jump)} {branch target : Handle} {opcode : Opcode}
  {before after : Edit}

/-- An extension neither splits the prologue nor refers to it. -/
theorem Prologue.extends (prologue : before.body.Prologue block) (straight : Straight block)
    (listed : before.body.Listed)
    (branching : before.body.shape? branch = some (.branch opcode target))
    (extends' : Edit.Extends branch opcode target before after) : after.body.Prologue block := by
  have apart := prologue.ne_branch straight branching
  have grows := extends'.grows listed (contains_of_shape? branching)
  refine ⟨?_, fun entry member => ?_, fun entry member mentioned => ?_⟩
  · rcases extends'.order with same | ⟨anchor, new, anchored, same⟩
    · rw [same]
      exact prologue.leads
    · rw [same]
      refine Layout.prefix_insertAfter prologue.leads ?_
      rcases anchored with rfl | transfers
      · exact apart
      · exact prologue.ne_transfer straight transfers
  · have shaped := prologue.shaped entry member
    rw [grows.shape? entry.1 ?_ (contains_of_shape? shaped), shaped]
    intro same
    exact apart (same ▸ List.mem_map_of_mem member)
  · have present : entry.1 ∈ block.map Prod.fst := List.mem_map_of_mem member
    rcases extends'.references branching mentioned with old | follows | fresh
    · exact prologue.unreferenced entry member old
    · exact apart (Layout.mem_of_successor?_mem prologue.leads listed.distinct follows present)
    · rw [contains_of_shape? (prologue.shaped entry member)] at fresh
      cases fresh

end Extends

/-- A lengthened body with its prologue, whose branches are still to be extended. -/
structure Prefaced (original : Body) (block : List (Handle × Instruction Jump))
    (entries : List (Handle × Opcode × Jump)) (now : Body) : Prop where
  lengthened : Lengthened original now
  fixed : now.fixed = original.fixed
  prologue : now.Prologue block
  distinct : (entries.map Prod.fst).Nodup
  shaped : ∀ branch opcode jump, (branch, opcode, jump) ∈ entries →
    now.shape? branch = some (.branch opcode jump.target)

section Prefaced

variable {original now later : Body} {block : List (Handle × Instruction Jump)}

/-- Computing the layout keeps code prefaced. -/
theorem Prefaced.synced (prefaced : Prefaced original block [] now) (synced : Synced now later) :
    Prefaced original block later.oversized later := by
  have lengthened := prefaced.lengthened.synced synced
  refine ⟨lengthened, synced.fixed.trans prefaced.fixed, prefaced.prologue.synced synced, ?_, ?_⟩
  · exact later.oversized_sublist.nodup lengthened.listed.distinct
  · exact fun branch opcode jump member => shape?_of_mem_oversized member

/-- An extension keeps code prefaced. -/
theorem Prefaced.extends {branch : Handle} {opcode : Opcode} {jump : Jump}
    {others : List (Handle × Opcode × Jump)} {before after : Edit} (straight : Straight block)
    (prefaced : Prefaced original block ((branch, opcode, jump) :: others) before.body)
    (extends' : Edit.Extends branch opcode jump.target before after) :
    Prefaced original block others after.body := by
  obtain ⟨lengthened, fixed, prologue, distinct, shaped⟩ := prefaced
  obtain ⟨fresh, distinct⟩ := List.nodup_cons.mp distinct
  have branching := shaped branch opcode jump List.mem_cons_self
  obtain ⟨_, _, originally⟩ := lengthened.exists_original branching
  have grows := extends'.grows lengthened.listed (contains_of_shape? branching)
  refine ⟨lengthened.grows grows originally extends'.branches, extends'.fixed.trans fixed,
    prologue.extends straight lengthened.listed branching extends', distinct, ?_⟩
  intro other opcode' jump' member
  have shapedOther := shaped other opcode' jump' (List.mem_cons_of_mem _ member)
  have different : other ≠ branch := by
    rintro rfl
    exact fresh (List.mem_map.mpr ⟨_, member, rfl⟩)
  rw [grows.shape? other different (contains_of_shape? shapedOther), shapedOther]

end Prefaced

end Body

/-- Relaxation extends branches and keeps a prologue, however many rounds it takes. -/
theorem Edit.prefaced_of_relax {body : Body} {pool : Pool} {events : Array Event}
    {after : Logged Edit} {block : List (Handle × Instruction Jump)} (listed : body.Listed)
    (straight : Body.Straight block) (prologue : body.Prologue block)
    (ran : relax ⟨⟨body, pool⟩, events⟩ = .ok () after) :
    body.Lengthened after.state.body ∧ after.state.body.fixed = body.fixed ∧
      after.state.body.Prologue block := by
  obtain ⟨rounds, middle, run, same, _⟩ := rounds_of_relax ran
  obtain ⟨last, prefaced, syncs, _⟩ := relaxRounds_induction
    (fun edit => body.Prefaced block [] edit.body)
    (fun entries edit => body.Prefaced block entries edit.body)
    (fun before after prefaced syncs => prefaced.synced (syncs.synced prefaced.lengthened.listed))
    (fun branch opcode jump others before after prefaced extends' => prefaced.extends straight extends')
    (fun edit prefaced => prefaced) ⟨.refl listed, rfl, prologue, .nil, by simp⟩ run
  have synced := syncs.synced prefaced.lengthened.listed
  rw [← same]
  exact ⟨prefaced.lengthened.synced synced, synced.fixed.trans prefaced.fixed,
    prefaced.prologue.synced synced⟩

end Classfile
