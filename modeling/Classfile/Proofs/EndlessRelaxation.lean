import Classfile.Proofs.Progress
import Classfile.Proofs.RoundBound

/-!
A body on which relaxation never ends.

Many branches crowd one island site that is nearly out of their reach. Every new island goes to the
front of the pile after the site and pushes the older ones five bytes further away, and the pile
never has room for an island of each branch within reach. So there is always a branch that has lost
its island, and it gets a new one to which the next rounds will do the same. Relaxation goes on
forever exactly when it places islands forever, as it does here.
-/

namespace Classfile

/-- Code that is laid out can be divided at every instruction. -/
theorem Laid.append {slots : Handle → Option Slot} {bci stop : Nat} {front back : List Handle}
    (laid : Laid slots bci (front ++ back) stop) :
    ∃ middle, Laid slots bci front middle ∧ Laid slots middle back stop := by
  induction front generalizing bci with
  | nil => exact ⟨bci, rfl, laid⟩
  | cons handle front inductionHypothesis =>
    obtain ⟨slot, found, starts, padded, continued⟩ := laid
    obtain ⟨middle, first, second⟩ := inductionHypothesis continued
    exact ⟨middle, ⟨slot, found, starts, padded, first⟩, second⟩

/-- Instructions of one width start at multiples of it. -/
theorem Laid.uniform {slots : Handle → Option Slot} {bci stop width : Nat} {order : List Handle}
    (laid : Laid slots bci order stop)
    (widths : ∀ handle ∈ order, ∀ slot, slots handle = some slot → slot.instruction.width = width) :
    stop = bci + width * order.length ∧ ∀ index handle, order[index]? = some handle →
      ∃ slot, slots handle = some slot ∧ slot.bci = bci + width * index := by
  induction order generalizing bci with
  | nil =>
    refine ⟨laid.symm, ?_⟩
    intro index handle found
    simp at found
  | cons first rest inductionHypothesis =>
    obtain ⟨slot, found, starts, _, continued⟩ := laid
    have here := widths first (by simp) slot found
    rw [here] at continued
    obtain ⟨ends, positions⟩ := inductionHypothesis continued
      (fun handle member => widths handle (by simp [member]))
    constructor
    · rw [ends, List.length_cons, Nat.mul_add]
      omega
    · intro index handle selected
      cases index with
      | zero =>
        rw [List.getElem?_cons_zero, Option.some.injEq] at selected
        exact ⟨slot, selected ▸ found, starts⟩
      | succ index =>
        rw [List.getElem?_cons_succ] at selected
        obtain ⟨other, foundOther, startsOther⟩ := positions index handle selected
        refine ⟨other, foundOther, ?_⟩
        rw [startsOther, Nat.mul_add]
        omega

namespace Body

/-- The transfer after which islands are placed. -/
def crowdSite : Handle := ⟨515⟩

/-- The switch that keeps the goal out of reach. -/
def crowdWall : Handle := ⟨516⟩

/-- The target of all branches. -/
def crowdGoal : Handle := ⟨517⟩

/-- The branches and the site after them. -/
def crowdFront : List Handle := (List.range 516).map Handle.mk

/-- A switch that leads to the goal. -/
def crowdSwitch (count : Nat) : Instruction Jump :=
  .tableSwitch 0 (.to crowdGoal) 0 (List.replicate count (.to crowdGoal))

/-- A static method without parameters. -/
def crowdContext : MethodContext where
  classIndex := 1
  descriptor := "()V"
  isStatic := true
  isConstructor := false

/-- The instructions of the crowd. -/
def crowdSlots : List Slot :=
  List.replicate 515 ⟨.branch .ifeq (.to crowdGoal), 0⟩ ++
    [⟨crowdSwitch 7545, 0⟩, ⟨crowdSwitch 700, 0⟩, ⟨.simple .returnVoid, 0⟩]

/-- Conditional branches to a goal that is out of their reach, and a site that is just within. -/
def crowded : Body where
  nameIndex := 1
  maxStack := 1
  maxLocals := 0
  slots := (crowdSlots.map some).toArray
  order := ((List.range 518).map Handle.mk).toArray
  codeLength := 0
  ranges := []
  attributes := [⟨2, .frames [.new crowdGoal .same]⟩]
  context := some crowdContext

/-- The state on entry is empty and needs no constants. -/
theorem entryFrame_crowdContext (pool : Pool) :
    crowdContext.entryFrame pool = .ok ⟨[], []⟩ pool := by
  have parsed : MethodDescriptor.parse "()V" = .ok ⟨[], none⟩ := by decide +kernel
  rw [MethodContext.entryFrame, crowdContext, parsed]
  rfl

/-- The width of a switch depends on its position and the number of its targets. -/
theorem width_of_crowdSwitch {instruction : Instruction Jump} {count bci : Nat}
    (shaped : instruction.shape = (crowdSwitch count).shape)
    (padded : instruction.alignedAt bci = instruction) :
    instruction.width = 1 + (3 - bci % 4) + 4 * (3 + count) := by
  cases instruction with
  | tableSwitch padding default low targets =>
    simp only [Instruction.alignedAt, Instruction.tableSwitch.injEq, and_true] at padded
    have lengths := congrArg (fun shape => (Instruction.labels shape).length) shaped
    simp only [Instruction.labels_shape, List.length_map, crowdSwitch] at lengths
    simp only [Instruction.labels, List.length_cons, List.length_replicate,
      Nat.add_right_cancel_iff] at lengths
    have padding : (switchPadding bci).toNat = 3 - bci % 4 := by
      unfold switchPadding
      rw [UInt8.toNat_ofNat']
      omega
    rw [Instruction.width, ← padded, padding, lengths]
  | _ => cases shaped

/-- What the crowd has in common from round to round, with the islands after the site in layout
order. -/
structure Crowded (pile : List Handle) (body : Body) : Prop where
  listed : body.Listed
  order : body.order.toList = crowdFront ++ (pile ++ [crowdWall, crowdGoal])
  branches : ∀ index < 515, ∃ current ∈ pile ++ [crowdGoal],
    body.shape? ⟨index⟩ = some (.branch .ifeq current)
  apart : ∀ first < 515, ∀ second < 515, ∀ island ∈ pile,
    body.shape? ⟨first⟩ = some (.branch .ifeq island) →
      body.shape? ⟨second⟩ = some (.branch .ifeq island) → first = second
  site : body.shape? crowdSite = some (crowdSwitch 7545).shape
  wall : body.shape? crowdWall = some (crowdSwitch 700).shape
  goal : body.shape? crowdGoal = some (.simple .returnVoid)
  islands : ∀ island ∈ pile, ∃ onward ∈ pile ++ [crowdGoal],
    body.shape? island = some (.wideBranch .gotoW onward)
  framed : ∃ frames, body.frames? = some frames ∧
    (frames.map Frame.target).Perm (pile ++ [crowdGoal])
  context : body.context = some crowdContext
  ranges : body.ranges = []

/-- Where the crowd was when positions were last computed. -/
structure Spread (pile : List Handle) (body : Body) : Prop where
  branches : ∀ index < 515, ∃ slot, body.slot? ⟨index⟩ = some slot ∧ slot.bci = 3 * index
  site : ∃ slot, body.slot? crowdSite = some slot ∧ slot.bci + slot.instruction.width = 31740
  behind : ∀ handle ∈ pile ++ [crowdWall, crowdGoal],
    ∃ slot, body.slot? handle = some slot ∧ 31740 ≤ slot.bci

theorem mem_crowdFront {handle : Handle} : handle ∈ crowdFront ↔ handle.index < 516 := by
  simp only [crowdFront, List.mem_map, List.mem_range]
  constructor
  · intro present
    obtain ⟨index, inside, same⟩ := present
    rw [← same]
    exact inside
  · intro inside
    exact ⟨handle.index, inside, rfl⟩

/-- The slots are in the order of their handles. -/
theorem slot?_crowded (handle : Handle) : crowded.slot? handle = crowdSlots[handle.index]? := by
  unfold slot? crowded
  rw [List.getElem?_toArray, List.getElem?_map]
  cases crowdSlots[handle.index]? with
  | none => rfl
  | some slot => rfl

theorem length_crowdSlots : crowdSlots.length = 518 := by
  rw [crowdSlots, List.length_append, List.length_replicate]
  rfl

/-- The site, the wall and the goal come after the branches. -/
theorem slot?_crowded_back (index : Nat) :
    crowded.slot? ⟨515 + index⟩ =
      [⟨crowdSwitch 7545, 0⟩, ⟨crowdSwitch 700, 0⟩, ⟨.simple .returnVoid, 0⟩][index]? := by
  have beyond : (List.replicate 515 (⟨.branch .ifeq (.to crowdGoal), 0⟩ : Slot)).length ≤ 515 + index := by
    rw [List.length_replicate]
    omega
  rw [slot?_crowded, crowdSlots, List.getElem?_append_right beyond, List.length_replicate,
    Nat.add_sub_cancel_left]

theorem order_crowded : crowded.order.toList = (List.range 518).map Handle.mk := by
  unfold crowded
  rw [List.toList_toArray]

/-- The order lists all instructions. -/
theorem listed_crowded : crowded.Listed := by
  constructor
  · rw [order_crowded]
    apply List.nodup_range.map
    intro first second same
    exact (Handle.mk.injEq _ _).mp same
  · intro handle
    rw [order_crowded, contains, slot?_crowded, isSome_getElem?, length_crowdSlots, List.mem_map]
    constructor
    · intro present
      obtain ⟨index, inside, same⟩ := present
      rw [← same]
      exact List.mem_range.mp inside
    · intro inside
      exact ⟨handle.index, List.mem_range.mpr inside, rfl⟩

/-- No island has been inserted at first. -/
theorem crowded_crowded : Crowded [] crowded := by
  have site : crowded.shape? crowdSite = some (crowdSwitch 7545).shape := by
    rw [shape?, show crowdSite = ⟨515 + 0⟩ from rfl, slot?_crowded_back]
    rfl
  have wall : crowded.shape? crowdWall = some (crowdSwitch 700).shape := by
    rw [shape?, show crowdWall = ⟨515 + 1⟩ from rfl, slot?_crowded_back]
    rfl
  have goal : crowded.shape? crowdGoal = some (.simple .returnVoid) := by
    rw [shape?, show crowdGoal = ⟨515 + 2⟩ from rfl, slot?_crowded_back]
    rfl
  refine ⟨listed_crowded, ?_, ?_, ?_, site, wall, goal, ?_, ?_, rfl, rfl⟩
  · rw [order_crowded, crowdFront, show 518 = 516 + 2 from rfl, List.range_add, List.map_append]
    rfl
  · intro index inside
    refine ⟨crowdGoal, by simp, ?_⟩
    have selected : crowdSlots[index]? = some ⟨.branch .ifeq (.to crowdGoal), 0⟩ := by
      rw [crowdSlots, List.getElem?_append_left (by rw [List.length_replicate]; exact inside),
        List.getElem?_replicate, if_pos inside]
    rw [shape?, slot?_crowded, selected]
    rfl
  · intro first _ second _ island present
    cases present
  · intro island present
    cases present
  · exact ⟨[.new crowdGoal .same], rfl, .refl _⟩

section Crowded

variable {pile : List Handle} {body later : Body}

/-- The handles of the front, the islands, the wall and the goal are all different. -/
theorem Crowded.disjoint (crowd : Crowded pile body) :
    pile.Nodup ∧ (∀ island ∈ pile, 516 ≤ island.index) ∧ crowdGoal ∉ pile := by
  have distinct := crowd.listed.distinct
  rw [crowd.order] at distinct
  obtain ⟨_, back, front⟩ := List.nodup_append.mp distinct
  obtain ⟨islands, _, last⟩ := List.nodup_append.mp back
  refine ⟨islands, ?_, ?_⟩
  · intro island member
    by_contra inside
    have first : island ∈ crowdFront := mem_crowdFront.mpr (by omega)
    exact front island first island (by simp [member]) rfl
  · intro member
    exact last crowdGoal member crowdGoal (by simp) rfl

/-- The instructions of the crowd, one kind after the other. -/
theorem Crowded.cases (crowd : Crowded pile body) {handle : Handle}
    (present : body.contains handle = true) :
    (∃ index < 515, handle = ⟨index⟩) ∨ handle = crowdSite ∨ handle ∈ pile ∨ handle = crowdWall ∨
      handle = crowdGoal := by
  have listed := (crowd.listed.live handle).mpr present
  rw [crowd.order, List.mem_append, List.mem_append, mem_crowdFront] at listed
  rcases listed with front | pile | back
  · by_cases branch : handle.index < 515
    · exact .inl ⟨handle.index, branch, rfl⟩
    · right
      left
      have last : handle.index = 515 := by omega
      cases handle
      exact congrArg Handle.mk last
  · exact .inr (.inr (.inl pile))
  · simp only [List.mem_cons, List.not_mem_nil, or_false] at back
    exact .inr (.inr (.inr back))

/-- The islands and the goal are in use. -/
theorem Crowded.contains (crowd : Crowded pile body) {handle : Handle}
    (member : handle ∈ pile ++ [crowdGoal]) : body.contains handle = true := by
  rw [← crowd.listed.live, crowd.order]
  simp only [List.mem_append, List.mem_cons, List.not_mem_nil, or_false] at member ⊢
  rcases member with island | goal
  · exact .inr (.inl island)
  · exact .inr (.inr (.inr goal))

/-- All labels of a switch lead to the goal. -/
theorem labels_crowdSwitch {count : Nat} {target : Handle}
    (member : target ∈ (crowdSwitch count).shape.labels) : target = crowdGoal := by
  rw [Instruction.labels_shape, crowdSwitch, Instruction.labels, List.map_cons, List.map_replicate,
    List.mem_cons, List.mem_replicate] at member
  rcases member with first | ⟨_, rest⟩
  · exact first
  · exact rest

/-- All jumps lead to instructions in use. -/
theorem Crowded.jumpsLive (crowd : Crowded pile body) : body.JumpsLive := by
  intro handle slot found jump member
  have shaped : body.shape? handle = some slot.instruction.shape := by
    rw [shape?, found]
    rfl
  have target : jump.target ∈ slot.instruction.shape.labels := by
    rw [Instruction.labels_shape]
    exact List.mem_map_of_mem member
  apply crowd.contains
  rcases crowd.cases (contains_iff.mpr ⟨slot, found⟩) with
    ⟨index, inside, same⟩ | same | island | same | same
  · obtain ⟨current, known, branching⟩ := crowd.branches index inside
    rw [same, branching, Option.some.injEq] at shaped
    rw [← shaped, Instruction.labels, List.mem_singleton] at target
    exact target ▸ known
  · rw [same, crowd.site, Option.some.injEq] at shaped
    rw [← shaped] at target
    rw [labels_crowdSwitch target]
    simp
  · obtain ⟨onward, known, leads⟩ := crowd.islands handle island
    rw [leads, Option.some.injEq] at shaped
    rw [← shaped, Instruction.labels, List.mem_singleton] at target
    exact target ▸ known
  · rw [same, crowd.wall, Option.some.injEq] at shaped
    rw [← shaped] at target
    rw [labels_crowdSwitch target]
    simp
  · rw [same, crowd.goal, Option.some.injEq] at shaped
    rw [← shaped] at target
    cases target

/-- A switch with some targets is well formed if they are few enough. -/
theorem isWellFormed_crowdSwitch {count : Nat} (positive : 1 ≤ count) (few : count ≤ 10000) :
    (crowdSwitch count).isWellFormed = true := by
  show (switchHigh? 0 (List.replicate count (Jump.to crowdGoal)).length).isSome = true
  have room : 1 ≤ count ∧ count ≤ 0x80000000 ∧ (0 : Int32).toInt + count ≤ 0x80000000 := by
    rw [Int32.toInt_zero]
    omega
  rw [List.length_replicate, switchHigh?, if_pos room]
  rfl

/-- All instructions are well formed. -/
theorem Crowded.wellFormed (crowd : Crowded pile body) : body.WellFormed := by
  apply wellFormed_iff.mpr
  intro handle shape shaped
  rcases crowd.cases (contains_of_shape? shaped) with
    ⟨index, inside, same⟩ | same | island | same | same
  · obtain ⟨current, _, branching⟩ := crowd.branches index inside
    rw [same, branching, Option.some.injEq] at shaped
    rw [← shaped]
    rfl
  · rw [same, crowd.site, Option.some.injEq] at shaped
    rw [← shaped, Instruction.isWellFormed_shape]
    exact isWellFormed_crowdSwitch (by decide) (by decide)
  · obtain ⟨onward, _, leads⟩ := crowd.islands handle island
    rw [leads, Option.some.injEq] at shaped
    rw [← shaped]
    rfl
  · rw [same, crowd.wall, Option.some.injEq] at shaped
    rw [← shaped, Instruction.isWellFormed_shape]
    exact isWellFormed_crowdSwitch (by decide) (by decide)
  · rw [same, crowd.goal, Option.some.injEq] at shaped
    rw [← shaped]
    rfl

/-- The layout can be computed in any round. -/
theorem Crowded.exists_sync (crowd : Crowded pile body) (events : Array Event) :
    ∃ after, Body.sync ⟨body, events⟩ = .ok () after := by
  apply crowd.listed.exists_sync crowd.jumpsLive
  intro frames known
  obtain ⟨others, knownOthers, targets⟩ := crowd.framed
  rw [known, Option.some.injEq] at knownOthers
  rw [← knownOthers] at targets
  obtain ⟨islands, _, goal⟩ := crowd.disjoint
  constructor
  · rw [targets.nodup_iff, List.nodup_append]
    refine ⟨islands, by simp, ?_⟩
    intro island member other last
    rw [List.mem_singleton] at last
    intro same
    exact goal (last ▸ same ▸ member)
  · intro frame member
    exact crowd.contains (targets.mem_iff.mp (List.mem_map_of_mem member))

/-- Computing the layout keeps the islands where they are. -/
theorem Crowded.synced (crowd : Crowded pile body) (synced : Synced body later) :
    Crowded pile later := by
  obtain ⟨frames, known, targets⟩ := crowd.framed
  have framed : ∃ new, later.frames? = some new ∧ (new.map Frame.target).Perm (pile ++ [crowdGoal]) := by
    rcases synced.frames?_eq with ⟨unknown, _⟩ | ⟨old, new, knownOld, knownNew, settledFrames⟩
    · rw [known] at unknown
      cases unknown
    · refine ⟨new, knownNew, ?_⟩
      rw [known, Option.some.injEq] at knownOld
      obtain ⟨arranged, permuted, _, _, same⟩ := settledFrames
      rw [same, targets_settled]
      have permutedTargets := permuted.map Frame.target
      rw [List.map_map, ← knownOld] at permutedTargets
      exact permutedTargets.trans targets
  refine ⟨synced.listed crowd.listed, ?_, ?_, ?_, ?_, ?_, ?_, ?_, framed, ?_, ?_⟩
  · rw [synced.order, crowd.order]
  · intro index inside
    rw [synced.shape?]
    exact crowd.branches index inside
  · intro first insideFirst second insideSecond island member
    rw [synced.shape?, synced.shape?]
    exact crowd.apart first insideFirst second insideSecond island member
  · rw [synced.shape?, crowd.site]
  · rw [synced.shape?, crowd.wall]
  · rw [synced.shape?, crowd.goal]
  · intro island member
    rw [synced.shape?]
    exact crowd.islands island member
  · rw [synced.rest]
    exact crowd.context
  · rw [synced.rest]
    exact crowd.ranges

/-- The branches lead to one of the islands or to the goal. -/
theorem Crowded.branching (crowd : Crowded pile body) {index : Nat} (inside : index < 515)
    {slot : Slot} (found : body.slot? ⟨index⟩ = some slot) :
    ∃ current ∈ pile ++ [crowdGoal], ∃ jump, slot.instruction = .branch .ifeq jump ∧
      jump.target = current := by
  obtain ⟨current, known, branching⟩ := crowd.branches index inside
  rw [shape?, found, Option.map_some, Option.some.injEq] at branching
  obtain ⟨jump, same, leads⟩ := Instruction.eq_branch_of_shape branching
  exact ⟨current, known, jump, same, leads⟩

/-- The branches are numbered from the start. -/
theorem exists_crowdFront : ∃ front : List Handle, crowdFront = front ++ [crowdSite] ∧
    crowdSite ∉ front ∧ front.length = 515 ∧ ∀ index < 515, front[index]? = some ⟨index⟩ := by
  refine ⟨(List.range 515).map Handle.mk, ?_, ?_, ?_, ?_⟩
  · rw [crowdFront, List.range_succ, List.map_append]
    rfl
  · intro member
    obtain ⟨index, inside, same⟩ := List.mem_map.mp member
    rw [crowdSite, Handle.mk.injEq] at same
    rw [List.mem_range] at inside
    omega
  · rw [List.length_map, List.length_range]
  · intro index inside
    rw [List.getElem?_map, List.getElem?_range inside]
    rfl

/-- Each island is five bytes further away than the one placed after it, and the goal is out of
reach. -/
theorem Crowded.positions (crowd : Crowded pile body)
    (laid : Laid body.slot? 0 body.order.toList body.codeLength) :
    Spread pile body ∧
      (∀ position island, pile[position]? = some island →
        ∃ slot, body.slot? island = some slot ∧ slot.bci = 31740 + 5 * position) ∧
      ∃ slot, body.slot? crowdGoal = some slot ∧ 34553 ≤ slot.bci := by
  -- The layout is read from its start: the branches, the switch behind them, the islands, and the
  -- goal beyond the second switch.
  obtain ⟨front, split, _, count, numbered⟩ := exists_crowdFront
  rw [crowd.order, split, List.append_assoc] at laid
  obtain ⟨start, branches, laid⟩ := laid.append
  obtain ⟨back, site, behind⟩ := laid.append
  obtain ⟨bottom, islands, last⟩ := behind.append
  have branchWidths : ∀ handle ∈ front, ∀ slot, body.slot? handle = some slot →
      slot.instruction.width = 3 := by
    intro handle member slot found
    obtain ⟨index, selected⟩ := List.getElem?_of_mem member
    have inside : index < 515 := by
      rw [← count]
      exact (List.getElem?_eq_some_iff.mp selected).1
    rw [numbered index inside, Option.some.injEq] at selected
    rw [← selected] at found
    obtain ⟨_, _, jump, branching, _⟩ := crowd.branching inside found
    rw [branching]
    rfl
  obtain ⟨frontEnds, branchStarts⟩ := branches.uniform branchWidths
  rw [count] at frontEnds
  obtain ⟨slot, foundSite, starts, padded, ends⟩ := site
  have siteShape := crowd.site
  rw [shape?, foundSite, Option.map_some, Option.some.injEq] at siteShape
  have siteWidth := width_of_crowdSwitch siteShape padded
  have backStarts : back = 31740 := by
    have passed : start + slot.instruction.width = back := ends
    omega
  rw [backStarts] at islands behind
  have islandWidths : ∀ handle ∈ pile, ∀ slot, body.slot? handle = some slot →
      slot.instruction.width = 5 := by
    intro handle member slot found
    obtain ⟨onward, _, leads⟩ := crowd.islands handle member
    rw [shape?, found, Option.map_some, Option.some.injEq] at leads
    obtain ⟨jump, same, _⟩ := Instruction.eq_wideBranch_of_shape leads
    rw [same]
    rfl
  obtain ⟨pileEnds, islandStarts⟩ := islands.uniform islandWidths
  obtain ⟨wall, foundWall, wallStarts, wallPadded, last⟩ := last
  obtain ⟨goal, foundGoal, goalStarts, _, _⟩ := last
  have wallShape := crowd.wall
  rw [shape?, foundWall, Option.map_some, Option.some.injEq] at wallShape
  have wallWidth := width_of_crowdSwitch wallShape wallPadded
  refine ⟨⟨?_, ⟨slot, foundSite, by omega⟩, ?_⟩, islandStarts, ⟨goal, foundGoal, by omega⟩⟩
  · intro index inside
    obtain ⟨branch, found, branchStarts⟩ := branchStarts index ⟨index⟩ (numbered index inside)
    exact ⟨branch, found, by omega⟩
  · intro handle member
    have present : body.contains handle = true := by
      rw [← crowd.listed.live, crowd.order]
      exact List.mem_append_right _ member
    obtain ⟨other, found⟩ := contains_iff.mp present
    exact ⟨other, found, (behind.bounds member found).1⟩

/-- The pile has no room for an island of every branch within reach. -/
theorem Crowded.oversized_ne_nil (crowd : Crowded pile body)
    (laid : Laid body.slot? 0 body.order.toList body.codeLength) (measured : body.JumpsMeasured) :
    body.oversized ≠ [] := by
  intro settled
  obtain ⟨spread, islands, goal, foundGoal, far⟩ := crowd.positions laid
  have served : ∀ index < 515, ∃ position, position < 514 ∧ ∃ island, pile[position]? = some island ∧
      body.shape? ⟨index⟩ = some (.branch .ifeq island) := by
    intro index inside
    obtain ⟨slot, found, starts⟩ := spread.branches index inside
    obtain ⟨current, known, jump, branching, leads⟩ := crowd.branching inside found
    have near : isNear jump.offset = true := by
      by_contra oversized
      have member : (⟨index⟩, .ifeq, jump) ∈ body.oversized := by
        apply mem_oversized_iff.mpr
        refine ⟨?_, Bool.eq_false_of_not_eq_true oversized, slot, found, branching⟩
        exact (crowd.listed.live _).mpr (contains_iff.mpr ⟨slot, found⟩)
      rw [settled] at member
      cases member
    simp only [isNear, decide_eq_true_eq] at near
    obtain ⟨target, foundTarget, distance⟩ := measured _ slot found jump (by
      rw [branching]
      exact List.mem_singleton.mpr rfl)
    rw [leads] at foundTarget
    rw [jumpOffset] at distance
    rcases List.mem_append.mp known with member | last
    · obtain ⟨position, selected⟩ := List.getElem?_of_mem member
      obtain ⟨island, foundIsland, islandStarts⟩ := islands position current selected
      rw [foundTarget, Option.some.injEq] at foundIsland
      rw [foundIsland, islandStarts, starts] at distance
      refine ⟨position, by omega, current, selected, ?_⟩
      rw [shape?, found, Option.map_some, branching, ← leads]
      rfl
    · rw [List.mem_singleton.mp last, foundGoal, Option.some.injEq] at foundTarget
      rw [← foundTarget, starts] at distance
      omega
  choose! position room using served
  obtain ⟨first, insideFirst, second, insideSecond, different, same⟩ :=
    Finset.exists_ne_map_eq_of_card_lt_of_maps_to
      (show (Finset.range 514).card < (Finset.range 515).card by simp)
      (fun index inside => Finset.mem_range.mpr (room index (Finset.mem_range.mp inside)).1)
  obtain ⟨_, island, selected, branchFirst⟩ := room first (Finset.mem_range.mp insideFirst)
  obtain ⟨_, other, selectedOther, branchSecond⟩ := room second (Finset.mem_range.mp insideSecond)
  rw [← same, selected, Option.some.injEq] at selectedOther
  rw [← selectedOther] at branchSecond
  exact different (crowd.apart first (Finset.mem_range.mp insideFirst) second
    (Finset.mem_range.mp insideSecond) island (List.mem_of_getElem? selected) branchFirst branchSecond)

/-- The instruction after a branch is a branch or the site, neither of which has a frame. -/
theorem Crowded.needsIsland (crowd : Crowded pile body) {index : Nat} (inside : index < 515) :
    body.needsIsland ⟨index⟩ = .ok true := by
  have numbered (position : Nat) (early : position < 516) :
      body.order.toList[position]? = some ⟨position⟩ := by
    have short : position < crowdFront.length := by
      rw [crowdFront, List.length_map, List.length_range]
      exact early
    rw [crowd.order, List.getElem?_append_left short, crowdFront, List.getElem?_map,
      List.getElem?_range early]
    rfl
  have placed : body.order.toList.findIdx? (fun other => other = ⟨index⟩) = some index := by
    apply List.findIdx?_eq_some_iff_getElem.mpr
    obtain ⟨bound, here⟩ := List.getElem?_eq_some_iff.mp (numbered index (by omega))
    refine ⟨bound, by simp [here], ?_⟩
    intro earlier before
    obtain ⟨_, other⟩ := List.getElem?_eq_some_iff.mp (numbered earlier (by omega))
    simp only [other, decide_eq_true_eq, Handle.mk.injEq]
    omega
  have follows : body.next? ⟨index⟩ = .ok (some ⟨index + 1⟩) := by
    apply next?_eq_ok_iff.mpr
    refine ⟨Layout.mem_of_findIdx? placed, ?_⟩
    rw [successor?, ← Layout.getElem?_successor placed, numbered (index + 1) (by omega)]
  obtain ⟨frames, known, targets⟩ := crowd.framed
  have unframed : (frames.any fun frame => frame.target = ⟨index + 1⟩) = false := by
    rw [List.any_eq_false]
    intro frame member
    have target := targets.mem_iff.mp (List.mem_map_of_mem member)
    intro same
    rw [of_decide_eq_true same, List.mem_append, List.mem_singleton] at target
    rcases target with island | goal
    · have late := crowd.disjoint.2.1 _ island
      simp only at late
      omega
    · cases goal
      omega
  rw [Body.needsIsland, known, follows]
  show Except.ok (decide (¬(frames.any fun frame => frame.target = ⟨index + 1⟩) = true)) = _
  rw [unframed]
  rfl

/-- The site is nearer than the islands, the wall and the goal. -/
theorem Crowded.islandSite? (crowd : Crowded pile body) (spread : Spread pile body) {index : Nat}
    (inside : index < 515) : body.islandSite? ⟨index⟩ = .ok (some crowdSite) := by
  obtain ⟨branch, foundBranch, starts⟩ := spread.branches index inside
  obtain ⟨site, foundSite, ends⟩ := spread.site
  have siteShape := crowd.site
  rw [shape?, foundSite, Option.map_some, Option.some.injEq] at siteShape
  have transfers : site.instruction.isTransfer = true := by
    rw [← Instruction.isTransfer_shape, siteShape]
    rfl
  have reach : site.reach (3 * index) = 31740 - 3 * (index : Int) := by
    unfold Slot.reach
    omega
  apply islandSite?_of_nearest crowd.ranges (bci_eq_ok_iff.mpr ⟨branch, foundBranch, starts⟩) ?_
    foundSite transfers
  · rw [reach]
    unfold inIslandReach islandMargin
    simp only [decide_eq_true_eq]
    omega
  · intro handle present other found transfersOther different
    have late : 31740 ≤ other.bci := by
      rcases crowd.cases (contains_iff.mpr ⟨other, found⟩) with
        ⟨place, early, same⟩ | same | island | same | same
      · rw [same] at found
        obtain ⟨_, _, jump, branching, _⟩ := crowd.branching early found
        rw [branching] at transfersOther
        cases transfersOther
      · exact (different same).elim
      · obtain ⟨slot, foundSlot, behind⟩ := spread.behind handle (by simp [island])
        rw [found, Option.some.injEq] at foundSlot
        exact foundSlot ▸ behind
      · obtain ⟨slot, foundSlot, behind⟩ := spread.behind handle (by simp [same])
        rw [found, Option.some.injEq] at foundSlot
        exact foundSlot ▸ behind
      · obtain ⟨slot, foundSlot, behind⟩ := spread.behind handle (by simp [same])
        rw [found, Option.some.injEq] at foundSlot
        exact foundSlot ▸ behind
    have positive := other.instruction.width_pos
    rw [reach]
    unfold Slot.reach
    omega
  · rw [crowd.order]
    exact List.mem_append_left _ (mem_crowdFront.mpr (by decide))

/-- A new island comes before all others. -/
theorem Crowded.insertAfter (crowd : Crowded pile body) (island : Handle) :
    Layout.insertAfter body.order.toList crowdSite island =
      crowdFront ++ (island :: pile ++ [crowdWall, crowdGoal]) := by
  obtain ⟨front, split, absent, _⟩ := exists_crowdFront
  rw [crowd.order, split, List.append_assoc, List.append_assoc]
  exact Layout.insertAfter_append absent

/-- What comes after the site is behind it. -/
theorem Spread.successor? (spread : Spread pile body) (crowd : Crowded pile body) :
    ∃ next slot, body.successor? crowdSite = some next ∧ body.slot? next = some slot ∧
      31740 ≤ slot.bci := by
  obtain ⟨front, split, absent, _⟩ := exists_crowdFront
  have follows : body.successor? crowdSite = (pile ++ [crowdWall, crowdGoal]).head? := by
    rw [Body.successor?, crowd.order, split, List.append_assoc]
    exact Layout.successor?_append absent
  obtain ⟨next, first⟩ : ∃ next, (pile ++ [crowdWall, crowdGoal]).head? = some next := by
    rw [← Option.isSome_iff_exists, List.isSome_head?]
    simp
  obtain ⟨slot, found, behind⟩ := spread.behind next (List.mem_of_mem_head? first)
  exact ⟨next, slot, follows.trans first, found, behind⟩

section Pointed

variable {middle : Body} {index : Nat} {target island : Handle}

theorem crowdBranch_ne {place : Nat} (different : place ≠ index) : (⟨place⟩ : Handle) ≠ ⟨index⟩ :=
  fun same => different (Handle.mk.inj same)

/-- The branch at an index is pointed at a new island, and all other instructions stay the same. -/
theorem shape?_of_pointed
    (inserted : Inserts crowdSite (.wideBranch .gotoW (.to target)) body island middle)
    (replaced : Replaces ⟨index⟩ (.branch .ifeq (.to island)) middle later)
    {handle : Handle} {shape : Instruction Handle} (shaped : body.shape? handle = some shape)
    (different : handle ≠ ⟨index⟩) : later.shape? handle = some shape :=
  (replaced.shape?_of_ne different).trans (inserted.shape?_of_present shaped)

/-- A branch of the crowd leads to the new island or where it led before. -/
theorem Crowded.branch_of_pointed (crowd : Crowded pile body)
    (inserted : Inserts crowdSite (.wideBranch .gotoW (.to target)) body island middle)
    (replaced : Replaces ⟨index⟩ (.branch .ifeq (.to island)) middle later)
    {place : Nat} {current : Handle} (early : place < 515)
    (branching : later.shape? ⟨place⟩ = some (.branch .ifeq current)) :
    place = index ∧ current = island ∨
      body.shape? ⟨place⟩ = some (.branch .ifeq current) ∧ current ≠ island := by
  by_cases same : place = index
  · rw [same, replaced.shape?_self, Option.some.injEq, Instruction.shape_branch,
      Instruction.branch.injEq] at branching
    exact .inl ⟨same, branching.2.symm⟩
  · obtain ⟨before, member, shaped⟩ := crowd.branches place early
    rw [shape?_of_pointed inserted replaced shaped (crowdBranch_ne same), Option.some.injEq,
      Instruction.branch.injEq] at branching
    rw [branching.2] at shaped member
    exact .inr ⟨shaped, inserted.ne_new (crowd.contains member)⟩

/-- The branch at an index of the crowd is pointed at a new island. -/
theorem Crowded.pointed {frames : List Frame}
    (crowd : Crowded pile body) (inside : index < 515) (known : target ∈ pile ++ [crowdGoal])
    (inserted : Inserts crowdSite (.wideBranch .gotoW (.to target)) body island middle)
    (replaced : Replaces ⟨index⟩ (.branch .ifeq (.to island)) middle later)
    (targets : (frames.map Frame.target).Perm (island :: pile ++ [crowdGoal])) :
    Crowded (island :: pile) (later.setFrames frames) := by
  have kept {handle : Handle} {shape : Instruction Handle} (shaped : body.shape? handle = some shape)
      (late : 515 ≤ handle.index) : later.shape? handle = some shape := by
    refine shape?_of_pointed inserted replaced shaped fun same => ?_
    rw [same] at late
    exact Nat.not_le_of_lt inside late
  have listed := replaced.listed (inserted.listed crowd.listed)
  have framed : (later.setFrames frames).frames? = some frames := by
    obtain ⟨_, known, _⟩ := crowd.framed
    exact frames?_setFrames ((Edit.frames?_of_inserts_replaces inserted replaced).trans known) frames
  refine ⟨⟨listed.distinct, listed.live⟩, ?_, ?_, ?_, kept crowd.site (by decide),
    kept crowd.wall (by decide), kept crowd.goal (by decide), ?_, ⟨frames, framed, targets⟩, ?_, ?_⟩
  · show later.order.toList = _
    rw [replaced.order, inserted.order, crowd.insertAfter]
  · intro place early
    by_cases same : place = index
    · exact ⟨island, by simp, same ▸ replaced.shape?_self⟩
    · obtain ⟨current, member, shaped⟩ := crowd.branches place early
      exact ⟨current, List.mem_cons_of_mem _ member,
        shape?_of_pointed inserted replaced shaped (crowdBranch_ne same)⟩
  -- An island that was there before is led to as it was, and the new one by this branch alone.
  · intro first early second earlySecond current member branchFirst branchSecond
    rcases crowd.branch_of_pointed inserted replaced early branchFirst with
      ⟨isFirst, isIsland⟩ | ⟨shapedFirst, notIsland⟩
    · rcases crowd.branch_of_pointed inserted replaced earlySecond branchSecond with
        ⟨isSecond, _⟩ | ⟨_, notIsland⟩
      · rw [isFirst, isSecond]
      · exact (notIsland isIsland).elim
    · rcases crowd.branch_of_pointed inserted replaced earlySecond branchSecond with
        ⟨_, isIsland⟩ | ⟨shapedSecond, _⟩
      · exact (notIsland isIsland).elim
      · have older := (List.mem_cons.mp member).resolve_left notIsland
        exact crowd.apart first early second earlySecond current older shapedFirst shapedSecond
  · intro other member
    rcases List.mem_cons.mp member with same | older
    · have different : island ≠ ⟨index⟩ := by
        obtain ⟨current, _, shaped⟩ := crowd.branches index inside
        exact (inserted.ne_new (contains_of_shape? shaped)).symm
      exact ⟨target, List.mem_cons_of_mem _ known,
        same ▸ (replaced.shape?_of_ne different).trans inserted.shape?_new⟩
    · obtain ⟨onward, memberOnward, leads⟩ := crowd.islands other older
      have late := crowd.disjoint.2.1 other older
      exact ⟨onward, List.mem_cons_of_mem _ memberOnward, kept leads (by omega)⟩
  · show later.context = _
    rw [replaced.rest, inserted.rest]
    exact crowd.context
  · show later.ranges = _
    rw [replaced.rest, inserted.rest]
    exact crowd.ranges

end Pointed

/-- A new island takes a position behind the site, and nothing else moves. -/
theorem Spread.pointed {middle : Body} {index : Nat} {target island : Handle}
    (spread : Spread pile body) (crowd : Crowded pile body)
    (inserted : Inserts crowdSite (.wideBranch .gotoW (.to target)) body island middle)
    (replaced : Replaces ⟨index⟩ (.branch .ifeq (.to island)) middle later) (inside : index < 515) :
    Spread (island :: pile) later := by
  have fresh := inserted.not_contains
  have kept {handle : Handle} {slot : Slot} (found : body.slot? handle = some slot) :
      ∃ new, later.slot? handle = some new ∧ new.bci = slot.bci ∧
        (handle ≠ ⟨index⟩ → new = slot) := by
    obtain ⟨bci, slots⟩ := inserted.slot?
    have old : handle ≠ island := by
      intro same
      rw [contains, ← same, found] at fresh
      cases fresh
    have middleFound : middle.slot? handle = some slot := by
      rw [slots, if_neg old, found]
    by_cases same : handle = ⟨index⟩
    · refine ⟨{ slot with instruction := .branch .ifeq (.to island) }, ?_, rfl, fun other => (other same).elim⟩
      rw [replaced.slot?, if_pos same, ← same, middleFound]
      rfl
    · exact ⟨slot, by rw [replaced.slot?, if_neg same, middleFound], rfl, fun _ => rfl⟩
  constructor
  · intro place early
    obtain ⟨slot, found, starts⟩ := spread.branches place early
    obtain ⟨new, foundNew, same, _⟩ := kept found
    exact ⟨new, foundNew, same.trans starts⟩
  · obtain ⟨slot, found, ends⟩ := spread.site
    obtain ⟨new, foundNew, _, unchanged⟩ := kept found
    refine ⟨new, foundNew, ?_⟩
    rw [unchanged]
    · exact ends
    · intro same
      rw [crowdSite, Handle.mk.injEq] at same
      omega
  · intro handle member
    rcases List.mem_cons.mp member with same | older
    · obtain ⟨next, slot, follows, found, behind⟩ := spread.successor? crowd
      have taken := inserted.takes next slot follows found
      have different : island ≠ ⟨index⟩ := by
        intro equal
        obtain ⟨branch, foundBranch, _⟩ := spread.branches index inside
        rw [contains, equal, foundBranch] at fresh
        cases fresh
      have moved := replaced.slot? island
      rw [if_neg different, taken, ← same] at moved
      exact ⟨_, moved, behind⟩
    · obtain ⟨slot, found, behind⟩ := spread.behind handle older
      obtain ⟨new, foundNew, same, _⟩ := kept found
      exact ⟨new, foundNew, by omega⟩

/-- A branch of the crowd can only be pointed at an island. -/
theorem Crowded.extends {before after : Edit} {index : Nat} {target : Handle}
    (crowd : Crowded pile before.body) (spread : Spread pile before.body) (inside : index < 515)
    (known : target ∈ pile ++ [crowdGoal])
    (extends' : Edit.Extends ⟨index⟩ .ifeq target before after) :
    ∃ island, Crowded (island :: pile) after.body ∧ Spread (island :: pile) after.body := by
  cases extends' with
  | widened widens replaced => cases widens
  | inverted narrow inverts framed follows inserted replaced =>
    rw [crowd.needsIsland inside] at framed
    cases framed
  | @island pool middle later context frames entry state site island narrow unframed knownContext
      framed entered found inserted replaced described =>
    rw [crowd.islandSite? spread inside, Except.ok.injEq, Option.some.injEq] at found
    rw [← found] at inserted
    refine ⟨island, crowd.pointed inside known inserted replaced ?_, ?_⟩
    · obtain ⟨old, knownOld, targets⟩ := crowd.framed
      rw [framed, Option.some.injEq] at knownOld
      rw [← knownOld] at targets
      rw [map_target_withIslandFrame]
      refine List.perm_middle.trans (.cons _ ?_)
      rw [← List.map_append, List.take_append_drop]
      exact targets
    · have moved := spread.pointed crowd inserted replaced inside
      exact ⟨moved.branches, moved.site, moved.behind⟩

end Crowded

end Body

namespace Edit

/-- All branches of the crowd that are out of reach get islands. -/
theorem exists_forM_extendBranch {pile : List Handle} {before : Logged Edit}
    (entries : List (Handle × Opcode × Jump)) (crowd : Body.Crowded pile before.state.body)
    (spread : Body.Spread pile before.state.body)
    (known : ∀ branch opcode jump, (branch, opcode, jump) ∈ entries →
      opcode = .ifeq ∧ jump.target ∈ pile ++ [Body.crowdGoal] ∧ ∃ index < 515, branch = ⟨index⟩) :
    ∃ after islands, (entries.forM fun (branch, opcode, jump) =>
        extendBranch branch opcode jump) before = .ok () after ∧
      Body.Crowded islands after.state.body := by
  -- The pile grows by an island with each extension.
  induction entries generalizing before pile with
  | nil => exact ⟨before, pile, Task.forM_nil, crowd⟩
  | cons entry entries inductionHypothesis =>
    obtain ⟨branch, opcode, jump⟩ := entry
    obtain ⟨narrow, leads, index, inside, same⟩ := known branch opcode jump (by simp)
    subst narrow same
    obtain ⟨slot, found, starts⟩ := spread.branches index inside
    obtain ⟨frames, framed, targets⟩ := crowd.framed
    have described : ∃ frame ∈ frames, frame.target = jump.target :=
      List.mem_map.mp (targets.mem_iff.mpr leads)
    have narrow : Opcode.widened? .ifeq = none := rfl
    obtain ⟨middle, extended⟩ := exists_extendBranch before.events
      (Body.bci_eq_ok_iff.mpr ⟨slot, found, starts⟩) narrow (crowd.needsIsland inside) crowd.context
      framed (Body.entryFrame_crowdContext _) (crowd.islandSite? spread inside) described
    obtain ⟨island, crowdAfter, spreadAfter⟩ :=
      crowd.extends spread inside leads (extends_of_extendBranch extended)
    obtain ⟨after, islands, ran, kept⟩ := inductionHypothesis crowdAfter spreadAfter (by
      intro other opcode' jump' member
      obtain ⟨narrow, leads, place⟩ := known other opcode' jump' (by simp [member])
      exact ⟨narrow, List.mem_cons_of_mem _ leads, place⟩)
    exact ⟨after, islands, Task.forM_cons_eq_ok_iff.mpr ⟨middle, extended, ran⟩, kept⟩

/-- Every round of the crowd places islands and leaves a crowd. -/
theorem exists_round {pile : List Handle} {before : Logged Edit}
    (crowd : Body.Crowded pile before.state.body) :
    ∃ after, round before = .ok true after ∧ ∃ islands, Body.Crowded islands after.state.body := by
  obtain ⟨inner, computed⟩ := crowd.exists_sync before.events
  let laidOut : Logged Edit := ⟨{ before.state with body := inner.state }, inner.events⟩
  have syncs : onBody Body.sync before = .ok () laidOut := onBody_eq_ok_iff.mpr ⟨inner, computed, rfl⟩
  have synced := @Syncs.synced before.state laidOut.state ⟨_, _, syncs⟩ crowd.listed
  have kept := crowd.synced synced
  have spread := (kept.positions synced.laid).1
  have nonempty := kept.oversized_ne_nil synced.laid synced.measured
  -- Nothing but the branches in front is narrow, so no other instruction can be out of reach.
  have known : ∀ branch opcode jump, (branch, opcode, jump) ∈ laidOut.state.body.oversized →
      opcode = .ifeq ∧ jump.target ∈ pile ++ [Body.crowdGoal] ∧ ∃ index < 515, branch = ⟨index⟩ := by
    intro branch opcode jump member
    have branching := Body.shape?_of_mem_oversized member
    rcases kept.cases (Body.contains_of_shape? branching) with
      ⟨index, inside, same⟩ | same | island | same | same
    · obtain ⟨current, leads, shaped⟩ := kept.branches index inside
      rw [same, shaped, Option.some.injEq, Instruction.branch.injEq] at branching
      rw [branching.2] at leads
      exact ⟨branching.1.symm, leads, index, inside, same⟩
    · rw [same, kept.site] at branching
      cases branching
    · obtain ⟨_, _, leads⟩ := kept.islands branch island
      rw [leads] at branching
      cases branching
    · rw [same, kept.wall] at branching
      cases branching
    · rw [same, kept.goal] at branching
      cases branching
  obtain ⟨after, islands, ran, crowdAfter⟩ :=
    exists_forM_extendBranch laidOut.state.body.oversized kept spread known
  refine ⟨after, round_eq_ok_iff.mpr ⟨laidOut, syncs, ran, ?_⟩, islands, crowdAfter⟩
  cases oversized : laidOut.state.body.oversized with
  | nil => exact (nonempty oversized).elim
  | cons entry entries => rfl

/-- Relaxation of the crowd never ends. -/
theorem endless_crowded (pool : Pool) (events : Array Event) :
    Endless ⟨⟨Body.crowded, pool⟩, events⟩ := by
  apply @endless_of_progress (fun edit => ∃ pile, Body.Crowded pile edit.state.body)
  · intro before crowd
    obtain ⟨pile, crowd⟩ := crowd
    exact exists_round crowd
  · exact ⟨[], Body.crowded_crowded⟩

/-- A body is relaxed in at most as many rounds as it has 16-bit branches and gets islands, each of
which adds one frame. Relaxation goes on forever exactly when there is no bound on its islands. -/
theorem endless_iff_islands {body : Body} {pool : Pool} {events : Array Event}
    (listed : body.Listed) (wellFormed : body.WellFormed) (live : body.JumpsLive) :
    (∀ count after, Rounds ⟨⟨body, pool⟩, events⟩ count after →
      count + body.frameCount ≤ body.branchCount + after.state.body.frameCount) ∧
    (Endless ⟨⟨body, pool⟩, events⟩ ↔ ∀ islands, ∃ count after,
      Rounds ⟨⟨body, pool⟩, events⟩ count after ∧
        body.frameCount + islands ≤ after.state.body.frameCount) := by
  constructor
  · intro count after rounds
    have bounds := rounds.bounds listed wellFormed live
    omega
  · constructor
    · intro endless islands
      obtain ⟨after, rounds⟩ := endless (body.branchCount + islands)
      have bounds := rounds.bounds listed wellFormed live
      exact ⟨_, after, rounds, by omega⟩
    · intro unbounded count
      -- A round adds as many islands as there are branches at most, so many islands take many rounds.
      obtain ⟨enough, after, rounds, many⟩ := unbounded (count * body.branchCount + 1)
      have bounds := rounds.bounds listed wellFormed live
      have longer : count ≤ enough := by
        by_contra short
        have fewer := Nat.mul_le_mul_right body.branchCount (Nat.le_of_not_le short)
        omega
      exact rounds.initial longer

theorem endless_iff_islands_crowded :
    Endless ⟨⟨Body.crowded, Pool.empty⟩, #[]⟩ ∧ ∀ islands, ∃ count after,
      Rounds ⟨⟨Body.crowded, Pool.empty⟩, #[]⟩ count after ∧
        Body.crowded.frameCount + islands ≤ after.state.body.frameCount := by
  have endless := endless_crowded Pool.empty #[]
  have criterion := @endless_iff_islands Body.crowded Pool.empty #[] Body.listed_crowded
    Body.crowded_crowded.wellFormed Body.crowded_crowded.jumpsLive
  exact ⟨endless, criterion.2.mp endless⟩

/-- No argument bounds the rounds of every body. -/
theorem exists_endless :
    ∃ body : Body, body.Listed ∧ body.WellFormed ∧ body.JumpsLive ∧ body.attributes.length = 1 ∧
      body.frameCount = 1 ∧ ∀ pool events, Endless ⟨⟨body, pool⟩, events⟩ :=
  ⟨Body.crowded, Body.listed_crowded, Body.crowded_crowded.wellFormed,
    Body.crowded_crowded.jumpsLive, rfl, rfl, endless_crowded⟩

end Edit

end Classfile
