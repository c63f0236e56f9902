import Classfile.Proofs.RoundBound
import Classfile.Proofs.SyncedLayout

/-!
How extensions lengthen code.

The weight of an instruction is its width without the padding of a switch, so that it depends on the
shape of the instruction alone and not on where the instruction is. Where an instruction would start if
there were no padding is a sum of weights. An extension moves no instruction by more than five bytes
in this measure, and computing the layout moves none at all.

Between two layouts, positions are those of the last layout and widths are up to date. `Stretched`
says how the two differ.
-/

namespace Classfile

namespace Layout

/-- Where a handle starts if every handle takes as much space as its size says. -/
def startOf (size : Handle → Nat) : List Handle → Handle → Nat
  | [], _ => 0
  | first :: rest, handle => if first = handle then 0 else size first + startOf size rest handle

variable {size other : Handle → Nat} {order : List Handle} {anchor handle new : Handle}

/-- Where an item starts is additive in the sizes. -/
theorem startOf_add (size other : Handle → Nat) (order : List Handle) (handle : Handle) :
    startOf (fun item => size item + other item) order handle =
      startOf size order handle + startOf other order handle := by
  induction order with
  | nil => rfl
  | cons first rest inductionHypothesis =>
    rw [startOf, startOf, startOf]
    split
    · rfl
    · omega

/-- Where an item starts depends on the sizes of listed items only. -/
theorem startOf_congr (same : ∀ item ∈ order, other item = size item) :
    startOf other order handle = startOf size order handle := by
  induction order with
  | nil => rfl
  | cons first rest inductionHypothesis =>
    rw [startOf, startOf, same first (by simp),
      inductionHypothesis fun item present => same item (by simp [present])]

/-- No item starts after the end. -/
theorem startOf_le_sum : startOf size order handle ≤ (order.map size).sum := by
  induction order with
  | nil => exact Nat.le_refl 0
  | cons first rest inductionHypothesis =>
    rw [startOf, List.map_cons, List.sum_cons]
    split <;> omega

/-- What is larger everywhere by a small sum starts later by no more than this sum. -/
theorem startOf_le_of_le (larger : ∀ item ∈ order, size item ≤ other item) {spare : Nat}
    (total : (order.map other).sum ≤ (order.map size).sum + spare) :
    startOf size order handle ≤ startOf other order handle ∧
      startOf other order handle ≤ startOf size order handle + spare := by
  induction order generalizing spare with
  | nil => exact ⟨Nat.le_refl 0, Nat.zero_le _⟩
  | cons first rest inductionHypothesis =>
    have here := larger first (by simp)
    have smaller : (rest.map size).sum ≤ (rest.map other).sum :=
      List.sum_le_sum fun item present => larger item (by simp [present])
    rw [List.map_cons, List.sum_cons, List.map_cons, List.sum_cons] at total
    rw [startOf, startOf]
    split
    · omega
    · have later := @inductionHypothesis (fun item present => larger item (by simp [present]))
        (size first + spare - other first) (by omega)
      omega

/-- Of two handles one ends before the other starts, whatever the sizes are. -/
theorem startOf_trichotomy (presentFirst : anchor ∈ order) (presentSecond : handle ∈ order)
    (different : anchor ≠ handle) :
    (∀ size, startOf size order anchor + size anchor ≤ startOf size order handle) ∨
      ∀ size, startOf size order handle + size handle ≤ startOf size order anchor := by
  induction order with
  | nil => cases presentFirst
  | cons first rest inductionHypothesis =>
    by_cases isAnchor : first = anchor
    · left
      intro size
      rw [startOf, startOf, if_pos isAnchor, if_neg (fun same => different (isAnchor.symm.trans same)),
        isAnchor]
      omega
    · by_cases isHandle : first = handle
      · right
        intro size
        rw [startOf, startOf, if_pos isHandle, if_neg isAnchor, isHandle]
        omega
      · have later := inductionHypothesis (List.mem_of_ne_of_mem (Ne.symm isAnchor) presentFirst)
          (List.mem_of_ne_of_mem (Ne.symm isHandle) presentSecond)
        simp only [startOf, if_neg isAnchor, if_neg isHandle]
        rcases later with before | after
        · exact .inl fun size => by have := before size; omega
        · exact .inr fun size => by have := after size; omega

/-- What is larger at one place makes the whole larger by as much. -/
theorem sum_le_of_single (distinct : order.Nodup) (same : ∀ item, item ≠ anchor → other item = size item)
    {spare : Nat} (larger : other anchor ≤ size anchor + spare) :
    (order.map other).sum ≤ (order.map size).sum + spare := by
  induction order with
  | nil => exact Nat.zero_le _
  | cons first rest inductionHypothesis =>
    obtain ⟨absent, distinct⟩ := List.nodup_cons.mp distinct
    rw [List.map_cons, List.sum_cons, List.map_cons, List.sum_cons]
    by_cases equal : first = anchor
    · have unchanged : rest.map other = rest.map size :=
        List.map_congr_left fun item present => same item fun here => absent (equal ▸ here ▸ present)
      rw [unchanged, equal]
      omega
    · have later := inductionHypothesis distinct
      rw [same first equal]
      omega

/-- An item starts where the one before it ends. -/
theorem startOf_successor? {next : Handle} (distinct : order.Nodup)
    (follows : successor? order anchor = some next) :
    startOf size order next = startOf size order anchor + size anchor := by
  induction order with
  | nil => cases follows
  | cons first rest inductionHypothesis =>
    obtain ⟨absent, distinct⟩ := List.nodup_cons.mp distinct
    rw [successor?] at follows
    by_cases same : first = anchor
    · rw [if_pos same, List.head?_eq_some_iff] at follows
      obtain ⟨others, rfl⟩ := follows
      have apart : first ≠ next := fun equal => absent (by simp [equal])
      simp [startOf, same, same ▸ apart]
    · rw [if_neg same] at follows
      have apart : first ≠ next := fun equal => absent (equal ▸ mem_of_successor? follows)
      rw [startOf, if_neg apart, startOf, if_neg same, inductionHypothesis distinct follows,
        Nat.add_assoc]

/-- The last item ends at the sum of all sizes. -/
theorem startOf_last (present : anchor ∈ order) (last : successor? order anchor = none) :
    startOf size order anchor + size anchor = (order.map size).sum := by
  induction order with
  | nil => cases present
  | cons first rest inductionHypothesis =>
    rw [successor?] at last
    by_cases same : first = anchor
    · rw [if_pos same, List.head?_eq_none_iff] at last
      simp [startOf, same, last]
    · rw [if_neg same] at last
      have later := inductionHypothesis (List.mem_of_ne_of_mem (Ne.symm same) present) last
      rw [startOf, if_neg same, List.map_cons, List.sum_cons]
      omega

/-- An insertion adds the size of the new item. -/
theorem sum_insertAfter (present : anchor ∈ order) :
    ((insertAfter order anchor new).map size).sum = (order.map size).sum + size new := by
  induction order with
  | nil => cases present
  | cons first rest inductionHypothesis =>
    rw [insertAfter]
    by_cases same : first = anchor
    · rw [if_pos same]
      simp only [List.map_cons, List.sum_cons]
      omega
    · rw [if_neg same, List.map_cons, List.sum_cons, List.map_cons, List.sum_cons,
        inductionHypothesis (List.mem_of_ne_of_mem (Ne.symm same) present)]
      omega

/-- A new item starts where its anchor ends. -/
theorem startOf_insertAfter_new (present : anchor ∈ order) (fresh : new ∉ order) :
    startOf size (insertAfter order anchor new) new = startOf size order anchor + size anchor := by
  induction order with
  | nil => cases present
  | cons first rest inductionHypothesis =>
    rw [List.mem_cons, not_or] at fresh
    rw [insertAfter]
    by_cases same : first = anchor
    · rw [if_pos same, startOf, if_neg (Ne.symm fresh.1), startOf, if_pos rfl, startOf, if_pos same,
        same]
      omega
    · rw [if_neg same, startOf, if_neg (Ne.symm fresh.1), startOf, if_neg same,
        inductionHypothesis (List.mem_of_ne_of_mem (Ne.symm same) present) fresh.2]
      omega

/-- What is listed already starts later by the new handle at most. -/
theorem startOf_insertAfter (different : handle ≠ new) :
    startOf size order handle ≤ startOf size (insertAfter order anchor new) handle ∧
      startOf size (insertAfter order anchor new) handle ≤ startOf size order handle + size new := by
  induction order with
  | nil => exact ⟨Nat.le_refl 0, Nat.zero_le _⟩
  | cons first rest inductionHypothesis =>
    rw [insertAfter]
    by_cases same : first = anchor
    · rw [if_pos same, startOf, startOf, startOf, if_neg (Ne.symm different)]
      split <;> omega
    · rw [if_neg same, startOf, startOf]
      split <;> omega

end Layout

namespace Instruction

variable {L : Type}

/-- The number of bytes of an instruction without the padding of a switch. -/
def weight : Instruction L → Nat
  | .tableSwitch _ _ _ targets => 1 + 4 * (3 + targets.length)
  | .lookupSwitch _ _ pairs => 1 + 8 * (1 + pairs.length)
  | other => other.width

/-- The number of bytes of the padding of a switch. -/
def paddingWidth (instruction : Instruction L) : Nat :=
  (instruction.padding?.map UInt8.toNat).getD 0

/-- The width of an instruction is its weight and its padding. -/
theorem width_eq (instruction : Instruction L) :
    instruction.width = instruction.weight + instruction.paddingWidth := by
  cases instruction with
  | tableSwitch padding default low targets =>
    simp only [width, weight, paddingWidth, padding?, Option.map_some, Option.getD_some]
    omega
  | lookupSwitch padding default pairs =>
    simp only [width, weight, paddingWidth, padding?, Option.map_some, Option.getD_some]
    omega
  | _ => rfl

/-- A shape has the weight of the instruction. -/
theorem weight_shape (instruction : Instruction Jump) :
    instruction.shape.weight = instruction.weight := by
  cases instruction with
  | tableSwitch padding default low targets =>
    simp [shape, alignedAt, mapLabels_tableSwitch, weight]
  | lookupSwitch padding default pairs =>
    simp [shape, alignedAt, mapLabels_lookupSwitch, weight]
  | _ => rfl

end Instruction

/-- In a layout an instruction starts after the widths of those before it. -/
theorem Laid.bci_eq {slots : Handle → Option Slot} {bci stop : Nat} {order : List Handle}
    (laid : Laid slots bci order stop) {size : Handle → Nat}
    (sized : ∀ handle slot, slots handle = some slot → slot.instruction.width = size handle) :
    (∀ handle slot, handle ∈ order → slots handle = some slot →
      slot.bci = bci + Layout.startOf size order handle) ∧ stop = bci + (order.map size).sum := by
  induction order generalizing bci with
  | nil => exact ⟨by simp, Eq.symm laid⟩
  | cons first rest inductionHypothesis =>
    obtain ⟨slot, found, starts, _, continued⟩ := laid
    obtain ⟨later, ends⟩ := inductionHypothesis continued
    rw [sized first slot found] at later ends
    refine ⟨fun handle other present foundOther => ?_, ?_⟩
    · rw [Layout.startOf]
      split
      · rename_i same
        rw [same, foundOther, Option.some.injEq] at found
        rw [found, starts, Nat.add_zero]
      · rename_i different
        rw [later handle other (List.mem_of_ne_of_mem (Ne.symm different) present) foundOther,
          Nat.add_assoc]
    · rw [ends, List.map_cons, List.sum_cons, Nat.add_assoc]

namespace Body

/-- The weight of the instruction that a handle names. -/
def weight (body : Body) (handle : Handle) : Nat :=
  ((body.shape? handle).map Instruction.weight).getD 0

/-- The padding of the instruction that a handle names. -/
def padding (body : Body) (handle : Handle) : Nat :=
  ((body.slot? handle).map fun slot => slot.instruction.paddingWidth).getD 0

/-- Where an instruction would start without padding. -/
def weightBefore (body : Body) (handle : Handle) : Nat :=
  Layout.startOf body.weight body.order.toList handle

/-- A handle names a switch. -/
def isSwitch (body : Body) (handle : Handle) : Bool :=
  match body.shape? handle with
  | some (.tableSwitch ..) | some (.lookupSwitch ..) => true
  | _ => false

/-- The number of switches. -/
def switchCount (body : Body) : Nat := body.order.toList.countP body.isSwitch

section Weight

variable {body now later : Body} {handle : Handle}

/-- The weight of a handle is that of its instruction. -/
theorem weight_of_slot? {slot : Slot} (found : body.slot? handle = some slot) :
    body.weight handle = slot.instruction.weight := by
  rw [weight, shape?, found, Option.map_some, Option.map_some, Option.getD_some,
    Instruction.weight_shape]

theorem weight_of_shape? {shape : Instruction Handle} (shaped : body.shape? handle = some shape) :
    body.weight handle = shape.weight := by
  rw [weight, shaped, Option.map_some, Option.getD_some]

/-- A handle that is not in use has neither weight nor padding. -/
theorem weight_of_absent (absent : body.contains handle = false) :
    body.weight handle = 0 ∧ body.padding handle = 0 := by
  have empty : body.slot? handle = none := by
    rwa [contains, Option.isSome_eq_false_iff, Option.isNone_iff_eq_none] at absent
  rw [weight, shape?, padding, empty]
  exact ⟨rfl, rfl⟩

theorem padding_of_slot? {slot : Slot} (found : body.slot? handle = some slot) :
    body.padding handle = slot.instruction.paddingWidth := by
  rw [padding, found, Option.map_some, Option.getD_some]

/-- Computing the layout keeps all weights. -/
theorem Synced.weight (synced : Synced now later) : later.weight = now.weight := by
  funext handle
  rw [Body.weight, synced.shape?, Body.weight]

theorem Synced.weightBefore (synced : Synced now later) : later.weightBefore = now.weightBefore := by
  funext handle
  rw [Body.weightBefore, synced.weight, synced.order, Body.weightBefore]

/-- A replacement changes the weight of one instruction only. -/
theorem Replaces.weight {branch : Handle} {instruction : Instruction Jump}
    (replaced : Replaces branch instruction now later) (handle : Handle) :
    later.weight handle = if handle = branch then instruction.weight else now.weight handle := by
  rw [Body.weight, replaced.shape?, Body.weight]
  split
  · exact instruction.weight_shape
  · rfl

theorem Inserts.weight {anchor new : Handle} {instruction : Instruction Jump}
    (inserted : Inserts anchor instruction now new later) (handle : Handle) :
    later.weight handle = if handle = new then instruction.weight else now.weight handle := by
  rw [Body.weight, inserted.shape?, Body.weight]
  split
  · exact instruction.weight_shape
  · rfl

/-- An insertion keeps the weights of the instructions that were there. -/
theorem Inserts.weight_of_mem {anchor new : Handle} {instruction : Instruction Jump}
    (inserted : Inserts anchor instruction now new later) (listed : now.Listed)
    (present : handle ∈ now.order.toList) : later.weight handle = now.weight handle := by
  rw [inserted.weight, if_neg (inserted.ne_new ((listed.live handle).mp present))]

end Weight

section Moves

variable {now later : Body} {branch handle : Handle}

/-- A branch weighs three bytes. -/
theorem weight_of_branch {opcode : Opcode} {target : Handle}
    (branching : now.shape? branch = some (.branch opcode target)) : now.weight branch = 3 :=
  weight_of_shape? branching

/-- A replacement by something heavier adds at most the difference to the total weight. -/
theorem Replaces.weight_bounds {instruction : Instruction Jump} {spare : Nat}
    (replaced : Replaces branch instruction now later)
    (larger : now.weight branch ≤ instruction.weight)
    (bounded : instruction.weight ≤ now.weight branch + spare) (listed : now.Listed) :
    (∀ item ∈ now.order.toList, now.weight item ≤ later.weight item) ∧
      (now.order.toList.map later.weight).sum ≤ (now.order.toList.map now.weight).sum + spare := by
  have others (item : Handle) (different : item ≠ branch) : later.weight item = now.weight item := by
    rw [replaced.weight, if_neg different]
  have here : later.weight branch = instruction.weight := by rw [replaced.weight, if_pos rfl]
  refine ⟨fun item _ => ?_, Layout.sum_le_of_single listed.distinct others (here ▸ bounded)⟩
  by_cases same : item = branch
  · rw [same, here]
    exact larger
  · exact Nat.le_of_eq (others item same).symm

/-- A replacement by something heavier moves no instruction back, and none further than the
difference. -/
theorem Replaces.weightBefore_le {instruction : Instruction Jump} {spare : Nat}
    (replaced : Replaces branch instruction now later)
    (larger : now.weight branch ≤ instruction.weight)
    (bounded : instruction.weight ≤ now.weight branch + spare) (listed : now.Listed)
    (handle : Handle) :
    now.weightBefore handle ≤ later.weightBefore handle ∧
      later.weightBefore handle ≤ now.weightBefore handle + spare := by
  obtain ⟨everywhere, total⟩ := replaced.weight_bounds larger bounded listed
  rw [weightBefore, weightBefore, replaced.order]
  exact Layout.startOf_le_of_le everywhere total

/-- An insertion moves no instruction back, and none further than its weight. -/
theorem Inserts.weightBefore_le {anchor new : Handle} {instruction : Instruction Jump}
    (inserted : Inserts anchor instruction now new later) (listed : now.Listed)
    (different : handle ≠ new) :
    now.weightBefore handle ≤ later.weightBefore handle ∧
      later.weightBefore handle ≤ now.weightBefore handle + instruction.weight := by
  have same : Layout.startOf later.weight now.order.toList handle = now.weightBefore handle :=
    Layout.startOf_congr fun item present => inserted.weight_of_mem listed present
  have moved := @Layout.startOf_insertAfter later.weight now.order.toList anchor handle new different
  rw [same, inserted.weight, if_pos rfl, ← inserted.order] at moved
  exact moved

/-- The weight before a new instruction is that up to the end of its anchor. -/
theorem Inserts.weightBefore_new {anchor new : Handle} {instruction : Instruction Jump}
    (inserted : Inserts anchor instruction now new later) (listed : now.Listed) :
    later.weightBefore new = now.weightBefore anchor + now.weight anchor := by
  have same : Layout.startOf later.weight now.order.toList anchor = now.weightBefore anchor :=
    Layout.startOf_congr fun item present => inserted.weight_of_mem listed present
  rw [weightBefore, inserted.order,
    Layout.startOf_insertAfter_new inserted.present (inserted.not_mem listed), same,
    inserted.weight_of_mem listed inserted.present]

/-- Positions are still those of a layout in which the new instruction takes no space. -/
theorem Inserts.bci_eq_startOf {anchor new : Handle} {instruction : Instruction Jump}
    (inserted : Inserts anchor instruction now new later) (listed : now.Listed)
    {size : Handle → Nat} (spaceless : size new = 0)
    (starts : ∀ handle slot, now.slot? handle = some slot →
      slot.bci = Layout.startOf size now.order.toList handle)
    (stops : now.codeLength = (now.order.toList.map size).sum) {slot : Slot}
    (found : later.slot? handle = some slot) :
    slot.bci = Layout.startOf size later.order.toList handle := by
  rw [inserted.order]
  by_cases same : handle = new
  · -- The position is that of the instruction that comes next, or of the end of the code.
    rw [same] at found ⊢
    rw [Layout.startOf_insertAfter_new inserted.present (inserted.not_mem listed)]
    cases follows : now.successor? anchor with
    | none =>
      rw [inserted.ends follows, Option.some.injEq] at found
      rw [← found]
      exact stops.trans (Layout.startOf_last inserted.present follows).symm
    | some next =>
      obtain ⟨nextSlot, foundNext⟩ := contains_iff.mp
        ((listed.live next).mp (Layout.mem_of_successor? follows))
      rw [inserted.takes next nextSlot follows foundNext, Option.some.injEq] at found
      rw [← found]
      exact (starts next nextSlot foundNext).trans
        (Layout.startOf_successor? listed.distinct follows)
  · obtain ⟨position, slots⟩ := inserted.slot?
    rw [slots, if_neg same] at found
    have moved := @Layout.startOf_insertAfter size now.order.toList anchor handle new same
    rw [starts handle slot found]
    omega

end Moves

/-- Positions are those of an earlier layout, since which the code has become longer by some number of
bytes at most. An instruction that was inserted since takes no space in that layout. -/
structure Stretched (settled : Body) (spare : Nat) (now : Body) : Prop where
  kept : ∀ handle, settled.contains handle = true → now.contains handle = true
  weight : ∀ handle ∈ now.order.toList, settled.weight handle ≤ now.weight handle
  total : (now.order.toList.map now.weight).sum ≤
    (now.order.toList.map settled.weight).sum + spare
  width : ∀ handle slot, now.slot? handle = some slot →
    slot.instruction.width = now.weight handle + settled.padding handle
  bci : ∀ handle slot, now.slot? handle = some slot → slot.bci =
    Layout.startOf (fun item => settled.weight item + settled.padding item) now.order.toList handle
  length : now.codeLength =
    (now.order.toList.map fun item => settled.weight item + settled.padding item).sum

section Stretched

variable {settled now later : Body} {spare : Nat}

/-- After the layout is computed, positions are exact. -/
theorem Synced.stretched (synced : Synced now later) (listed : later.Listed) :
    Stretched later 0 later := by
  have sized (handle : Handle) (slot : Slot) (found : later.slot? handle = some slot) :
      slot.instruction.width = later.weight handle + later.padding handle := by
    rw [weight_of_slot? found, padding_of_slot? found, Instruction.width_eq]
  obtain ⟨starts, ends⟩ := synced.laid.bci_eq sized
  refine ⟨fun _ present => present, fun _ _ => Nat.le_refl _, Nat.le_refl _, sized, ?_, ?_⟩
  · intro handle slot found
    have present := (listed.live handle).mpr (contains_iff.mpr ⟨slot, found⟩)
    rw [starts handle slot present found, Nat.zero_add]
  · rw [ends, Nat.zero_add]

/-- A branch is replaced by an instruction that takes a few bytes more. -/
theorem Stretched.replaces (stretched : Stretched settled spare now) (listed : now.Listed)
    {branch target : Handle} {opcode : Opcode} {instruction : Instruction Jump} {extra : Nat}
    (branching : now.shape? branch = some (.branch opcode target))
    (replaced : Replaces branch instruction now later) (plain : instruction.padding? = none)
    (larger : 3 ≤ instruction.weight) (bounded : instruction.weight ≤ 3 + extra) :
    Stretched settled (spare + extra) later := by
  have weight := weight_of_branch branching
  obtain ⟨everywhere, total⟩ :=
    replaced.weight_bounds (weight.symm ▸ larger) (weight.symm ▸ bounded) listed
  obtain ⟨slot, found, same⟩ := shape?_eq_some_iff.mp branching
  obtain ⟨jump, branches, _⟩ := Instruction.eq_branch_of_shape same
  have unpadded : settled.padding branch = 0 := by
    have width := stretched.width branch slot found
    rw [weight, branches, Instruction.width] at width
    omega
  refine ⟨fun handle present => ?_, ?_, ?_, ?_, ?_, ?_⟩
  · rw [replaced.contains]
    exact stretched.kept handle present
  · intro handle present
    rw [replaced.order] at present
    exact (stretched.weight handle present).trans (everywhere handle present)
  · have before := stretched.total
    rw [replaced.order]
    omega
  · intro handle other foundOther
    rw [replaced.slot?] at foundOther
    rw [replaced.weight]
    split at foundOther
    · rename_i here
      rw [found, Option.map_some, Option.some.injEq] at foundOther
      rw [if_pos here, here, unpadded, ← foundOther, Instruction.width_eq, Instruction.paddingWidth,
        plain]
      rfl
    · rename_i different
      rw [if_neg different]
      exact stretched.width handle other foundOther
  · intro handle other foundOther
    rw [replaced.slot?] at foundOther
    rw [replaced.order]
    split at foundOther
    · rename_i here
      rw [found, Option.map_some, Option.some.injEq] at foundOther
      rw [← foundOther, here]
      exact stretched.bci branch slot found
    · exact stretched.bci handle other foundOther
  · rw [replaced.order, replaced.rest]
    exact stretched.length

/-- A `goto_w` is inserted. -/
theorem Stretched.inserts (stretched : Stretched settled spare now) (listed : now.Listed)
    {anchor new target : Handle}
    (inserted : Inserts anchor (.wideBranch .gotoW (.to target)) now new later) :
    Stretched settled (spare + 5) later := by
  have absent : settled.contains new = false := by
    by_contra present
    have kept := stretched.kept new (Bool.eq_true_of_not_eq_false present)
    rw [inserted.not_contains] at kept
    cases kept
  obtain ⟨weightless, unpadded⟩ := weight_of_absent absent
  have here : later.weight new = 5 := by
    rw [inserted.weight, if_pos rfl]
    rfl
  have live (handle : Handle) : handle ∈ later.order.toList ↔
      handle = new ∨ handle ∈ now.order.toList := by
    rw [inserted.order, Layout.mem_insertAfter inserted.present]
  obtain ⟨position, slots⟩ := inserted.slot?
  have placed : later.slot? new = some ⟨.wideBranch .gotoW (.to target), position⟩ := by
    rw [slots, if_pos rfl]
  refine ⟨fun handle present => ?_, ?_, ?_, ?_, ?_, ?_⟩
  · exact (inserted.contains handle).mpr (.inr (stretched.kept handle present))
  · intro handle present
    rcases (live handle).mp present with rfl | before
    · rw [weightless]
      exact Nat.zero_le _
    · rw [inserted.weight_of_mem listed before]
      exact stretched.weight handle before
  · have before := stretched.total
    have unchanged : now.order.toList.map later.weight = now.order.toList.map now.weight :=
      List.map_congr_left fun item present => inserted.weight_of_mem listed present
    rw [inserted.order, Layout.sum_insertAfter inserted.present,
      Layout.sum_insertAfter inserted.present, here, weightless, unchanged]
    omega
  · intro handle slot found
    by_cases same : handle = new
    · rw [same, placed, Option.some.injEq] at found
      rw [same, ← found, here, unpadded]
      rfl
    · rw [slots, if_neg same] at found
      have present := (listed.live handle).mpr (contains_iff.mpr ⟨slot, found⟩)
      rw [inserted.weight_of_mem listed present]
      exact stretched.width handle slot found
  · intro handle slot found
    exact inserted.bci_eq_startOf listed (by rw [weightless, unpadded]) stretched.bci
      stretched.length found
  · rw [inserted.order, Layout.sum_insertAfter inserted.present, weightless, unpadded, inserted.rest]
    exact stretched.length

/-- How far a body is stretched does not depend on its frames. -/
theorem Stretched.setFrames (stretched : Stretched settled spare now)
    (frames : List Frame) : Stretched settled spare (now.setFrames frames) :=
  ⟨stretched.kept, stretched.weight, stretched.total, stretched.width, stretched.bci, stretched.length⟩

end Stretched

end Body

end Classfile
