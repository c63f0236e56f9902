import Classfile.Proofs.InstructionForm
import Classfile.Proofs.Running

/-!
Changing the labels of instructions.

Nothing but the labels changes: an instruction keeps its opcode, its width, its operands and its
alignment. `Instruction.shape` is what is left of an instruction of a body when positions do not
matter: everything but jump offsets and switch padding.
-/

namespace Classfile

namespace Instruction

variable {L K M : Type}

/-- The labels of a table switch are its default and its targets. -/
theorem mapLabels_tableSwitch (change : L → K) (padding : UInt8) (default : L) (low : Int32)
    (targets : List L) :
    (tableSwitch padding default low targets).mapLabels change =
      tableSwitch padding (change default) low (targets.map change) := by
  simp [mapLabels, mapLabelsM]

theorem mapLabels_lookupSwitch (change : L → K) (padding : UInt8) (default : L)
    (pairs : List (Int32 × L)) :
    (lookupSwitch padding default pairs).mapLabels change =
      lookupSwitch padding (change default) (pairs.map fun pair => (pair.1, change pair.2)) := by
  simp [mapLabels, mapLabelsM]

@[simp] theorem mapLabels_branch (change : L → K) (opcode : Opcode) (label : L) :
    (branch opcode label).mapLabels change = branch opcode (change label) := rfl

@[simp] theorem mapLabels_wideBranch (change : L → K) (opcode : Opcode) (label : L) :
    (wideBranch opcode label).mapLabels change = wideBranch opcode (change label) := rfl

/-- An instruction with changed labels has the changed labels. -/
@[simp] theorem labels_mapLabels (change : L → K) (instruction : Instruction L) :
    (instruction.mapLabels change).labels = instruction.labels.map change := by
  cases instruction with
  | tableSwitch padding default low targets => simp [mapLabels_tableSwitch, labels]
  | lookupSwitch padding default pairs => simp [mapLabels_lookupSwitch, labels]
  | _ => rfl

@[simp] theorem opcode_mapLabels (change : L → K) (instruction : Instruction L) :
    (instruction.mapLabels change).opcode = instruction.opcode := by
  cases instruction <;> rfl

/-- Changing labels keeps the width. -/
@[simp] theorem width_mapLabels (change : L → K) (instruction : Instruction L) :
    (instruction.mapLabels change).width = instruction.width := by
  cases instruction with
  | tableSwitch padding default low targets => simp [mapLabels_tableSwitch, width]
  | lookupSwitch padding default pairs => simp [mapLabels_lookupSwitch, width]
  | _ => rfl

@[simp] theorem isWellFormed_mapLabels (change : L → K) (instruction : Instruction L) :
    (instruction.mapLabels change).isWellFormed = instruction.isWellFormed := by
  cases instruction with
  | tableSwitch padding default low targets => simp [mapLabels_tableSwitch, isWellFormed]
  | lookupSwitch padding default pairs => simp [mapLabels_lookupSwitch, isWellFormed]
  | _ => rfl

/-- Changing labels keeps the spare bytes. -/
@[simp] theorem spareBytes_mapLabels (change : L → K) (instruction : Instruction L) :
    (instruction.mapLabels change).spareBytes = instruction.spareBytes := by
  cases instruction with
  | tableSwitch padding default low targets => simp [mapLabels_tableSwitch, spareBytes]
  | lookupSwitch padding default pairs => simp [mapLabels_lookupSwitch, spareBytes]
  | _ => rfl

/-- Aligning an instruction and changing its labels commute. -/
theorem alignedAt_mapLabels (change : L → K) (bci : Nat) (instruction : Instruction L) :
    (instruction.mapLabels change).alignedAt bci = (instruction.alignedAt bci).mapLabels change := by
  cases instruction with
  | tableSwitch padding default low targets => simp [mapLabels_tableSwitch, alignedAt]
  | lookupSwitch padding default pairs => simp [mapLabels_lookupSwitch, alignedAt]
  | _ => rfl

/-- Two changes of labels one after the other are one change. -/
theorem mapLabels_mapLabels (first : L → K) (second : K → M) (instruction : Instruction L) :
    (instruction.mapLabels first).mapLabels second =
      instruction.mapLabels fun label => second (first label) := by
  cases instruction with
  | tableSwitch padding default low targets => simp [mapLabels_tableSwitch]
  | lookupSwitch padding default pairs => simp [mapLabels_lookupSwitch]
  | _ => rfl

/-- Changes that agree on the labels of an instruction give the same instruction. -/
theorem mapLabels_congr {first second : L → K} {instruction : Instruction L}
    (same : ∀ label ∈ instruction.labels, first label = second label) :
    instruction.mapLabels first = instruction.mapLabels second := by
  cases instruction with
  | tableSwitch padding default low targets =>
    simp only [mapLabels_tableSwitch, tableSwitch.injEq, true_and]
    exact ⟨same default (by simp [labels]),
      List.map_congr_left fun target present => same target (by simp [labels, present])⟩
  | lookupSwitch padding default pairs =>
    simp only [mapLabels_lookupSwitch, lookupSwitch.injEq, true_and]
    refine ⟨same default (by simp [labels]), List.map_congr_left fun pair present => ?_⟩
    rw [same pair.2 (by simp only [labels, List.mem_cons, List.mem_map]; exact .inr ⟨pair, present, rfl⟩)]
  | branch opcode label => simp [same label (by simp [labels])]
  | wideBranch opcode label => simp [same label (by simp [labels])]
  | _ => rfl

/-- A change that keeps each label keeps every instruction. -/
theorem mapLabels_id (instruction : Instruction L) :
    (instruction.mapLabels fun label => label) = instruction := by
  cases instruction with
  | tableSwitch padding default low targets => simp [mapLabels_tableSwitch]
  | lookupSwitch padding default pairs => simp [mapLabels_lookupSwitch]
  | _ => rfl

/-- A change that keeps the labels of an instruction keeps the instruction. -/
theorem mapLabels_eq_self {change : L → L} {instruction : Instruction L}
    (fixed : ∀ label ∈ instruction.labels, change label = label) :
    instruction.mapLabels change = instruction := by
  rw [mapLabels_congr fixed, mapLabels_id]

/-- Aligning an instruction keeps its labels. -/
@[simp] theorem labels_alignedAt (bci : Nat) (instruction : Instruction L) :
    (instruction.alignedAt bci).labels = instruction.labels := by
  cases instruction <;> rfl

@[simp] theorem opcode_alignedAt (bci : Nat) (instruction : Instruction L) :
    (instruction.alignedAt bci).opcode = instruction.opcode := by
  cases instruction <;> rfl

@[simp] theorem isWellFormed_alignedAt (bci : Nat) (instruction : Instruction L) :
    (instruction.alignedAt bci).isWellFormed = instruction.isWellFormed := by
  cases instruction <;> rfl

/-- The last position that an instruction is aligned at decides. -/
@[simp] theorem alignedAt_alignedAt (first second : Nat) (instruction : Instruction L) :
    (instruction.alignedAt first).alignedAt second = instruction.alignedAt second := by
  cases instruction <;> rfl

/-- Whether an instruction is aligned does not depend on its labels. -/
theorem alignedAt_of_mapLabels {change : L → K} {bci : Nat} {instruction : Instruction L}
    (aligned : (instruction.mapLabels change).alignedAt bci = instruction.mapLabels change) :
    instruction.alignedAt bci = instruction := by
  cases instruction with
  | tableSwitch padding default low targets =>
    simp only [mapLabels_tableSwitch, alignedAt, tableSwitch.injEq, and_true] at aligned ⊢
    exact aligned
  | lookupSwitch padding default pairs =>
    simp only [mapLabels_lookupSwitch, alignedAt, lookupSwitch.injEq, and_true] at aligned ⊢
    exact aligned
  | _ => rfl

/-- An instruction without its jump offsets and switch padding. -/
def shape (instruction : Instruction Jump) : Instruction Handle :=
  (instruction.alignedAt 0).mapLabels Jump.target

@[simp] theorem shape_branch (opcode : Opcode) (jump : Jump) :
    (branch opcode jump).shape = branch opcode jump.target := rfl

@[simp] theorem shape_wideBranch (opcode : Opcode) (jump : Jump) :
    (wideBranch opcode jump).shape = wideBranch opcode jump.target := rfl

@[simp] theorem opcode_shape (instruction : Instruction Jump) :
    instruction.shape.opcode = instruction.opcode := by
  rw [shape, opcode_mapLabels, opcode_alignedAt]

@[simp] theorem isTransfer_shape (instruction : Instruction Jump) :
    instruction.shape.isTransfer = instruction.isTransfer := by
  rw [isTransfer, opcode_shape, isTransfer]

/-- The labels of a shape are the targets of the jumps. -/
@[simp] theorem labels_shape (instruction : Instruction Jump) :
    instruction.shape.labels = instruction.labels.map Jump.target := by
  rw [shape, labels_mapLabels, labels_alignedAt]

@[simp] theorem isWellFormed_shape (instruction : Instruction Jump) :
    instruction.shape.isWellFormed = instruction.isWellFormed := by
  rw [shape, isWellFormed_mapLabels, isWellFormed_alignedAt]

/-- An instruction with the shape of a branch is a branch to the same target. -/
theorem eq_branch_of_shape {instruction : Instruction Jump} {opcode : Opcode} {target : Handle}
    (same : instruction.shape = branch opcode target) :
    ∃ jump, instruction = branch opcode jump ∧ jump.target = target := by
  cases instruction with
  | branch other jump =>
    simp only [shape_branch, branch.injEq] at same
    exact ⟨jump, by rw [same.1], same.2⟩
  | tableSwitch padding default low targets =>
    simp [shape, alignedAt, mapLabels_tableSwitch] at same
  | lookupSwitch padding default pairs =>
    simp [shape, alignedAt, mapLabels_lookupSwitch] at same
  | _ => cases same

/-- An instruction with the shape of a wide branch is one to the same target. -/
theorem eq_wideBranch_of_shape {instruction : Instruction Jump} {opcode : Opcode} {target : Handle}
    (same : instruction.shape = wideBranch opcode target) :
    ∃ jump, instruction = wideBranch opcode jump ∧ jump.target = target := by
  cases instruction with
  | wideBranch other jump =>
    simp only [shape_wideBranch, wideBranch.injEq] at same
    exact ⟨jump, by rw [same.1], same.2⟩
  | tableSwitch padding default low targets =>
    simp [shape, alignedAt, mapLabels_tableSwitch] at same
  | lookupSwitch padding default pairs =>
    simp [shape, alignedAt, mapLabels_lookupSwitch] at same
  | _ => cases same

theorem mapM_eq_ok_map {change : L → Except Error K} {total : L → K} {items : List L}
    (succeeds : ∀ item ∈ items, change item = .ok (total item)) :
    items.mapM change = .ok (items.map total) := by
  rw [mapM_eq_ok_iff]
  induction items with
  | nil => exact .nil
  | cons item items inductionHypothesis =>
    exact .cons (succeeds item (by simp))
      (inductionHypothesis fun other present => succeeds other (by simp [present]))

/-- A change that succeeds on all labels succeeds on the instruction. -/
theorem mapLabelsM_of_labels {change : L → Except Error K} {total : L → K}
    {instruction : Instruction L}
    (succeeds : ∀ label ∈ instruction.labels, change label = .ok (total label)) :
    instruction.mapLabelsM change = .ok (instruction.mapLabels total) := by
  cases instruction with
  | tableSwitch padding default low targets =>
    have first := succeeds default (by simp [labels])
    have others : targets.mapM change = .ok (targets.map total) :=
      mapM_eq_ok_map fun target present => succeeds target (by simp [labels, present])
    simp [mapLabelsM, first, others, mapLabels_tableSwitch, bind, Except.bind, pure, Except.pure]
  | lookupSwitch padding default pairs =>
    have first := succeeds default (by simp [labels])
    have others : (pairs.mapM fun pair => do return (pair.1, ← change pair.2)) =
        Except.ok (pairs.map fun pair => (pair.1, total pair.2)) := by
      apply mapM_eq_ok_map
      intro pair present
      rw [succeeds pair.2 (by
        simp only [labels, List.mem_cons, List.mem_map]
        exact .inr ⟨pair, present, rfl⟩)]
      rfl
    simp only [bind, Except.bind, pure, Except.pure] at others
    simp [mapLabelsM, first, others, mapLabels_lookupSwitch, bind, Except.bind, pure, Except.pure]
  | branch opcode label =>
    simp [mapLabelsM, succeeds label (by simp [labels]), bind, Except.bind, pure, Except.pure]
  | wideBranch opcode label =>
    simp [mapLabelsM, succeeds label (by simp [labels]), bind, Except.bind, pure, Except.pure]
  | _ => rfl

/-- Two related lists are the two sides of a list of related pairs. -/
theorem exists_pairs_of_forall₂ {relation : L → K → Prop} {firsts : List L} {seconds : List K}
    (related : List.Forall₂ relation firsts seconds) :
    ∃ pairs : List (L × K), pairs.map Prod.fst = firsts ∧ pairs.map Prod.snd = seconds ∧
      ∀ pair ∈ pairs, relation pair.1 pair.2 := by
  induction related with
  | nil => exact ⟨[], rfl, rfl, by simp⟩
  | @cons first second firsts seconds head _ inductionHypothesis =>
    obtain ⟨pairs, rfl, rfl, holds⟩ := inductionHypothesis
    refine ⟨(first, second) :: pairs, rfl, rfl, ?_⟩
    intro pair present
    rcases List.mem_cons.mp present with rfl | later
    · exact head
    · exact holds pair later

/-- A change that succeeds on an instruction pairs each label with its new label. -/
theorem exists_pairs_of_mapLabelsM {change : L → Except Error K} {instruction : Instruction L}
    {result : Instruction K} (succeeded : instruction.mapLabelsM change = .ok result) :
    ∃ paired : Instruction (L × K), paired.mapLabels Prod.fst = instruction ∧
      paired.mapLabels Prod.snd = result ∧
      ∀ pair ∈ paired.labels, change pair.1 = .ok pair.2 := by
  cases instruction with
  | tableSwitch padding default low targets =>
    simp only [mapLabelsM, exceptBind_eq_ok_iff, exceptPure_eq_ok_iff] at succeeded
    obtain ⟨first, changed, others, allChanged, rfl⟩ := succeeded
    obtain ⟨pairs, rfl, rfl, holds⟩ := exists_pairs_of_forall₂ ((mapM_eq_ok_iff _ _ _).mp allChanged)
    refine ⟨tableSwitch padding (default, first) low pairs, by rw [mapLabels_tableSwitch],
      by rw [mapLabels_tableSwitch], ?_⟩
    intro pair present
    rcases List.mem_cons.mp present with rfl | later
    · exact changed
    · exact holds pair later
  | lookupSwitch padding default cases =>
    simp only [mapLabelsM, exceptBind_eq_ok_iff, exceptPure_eq_ok_iff] at succeeded
    obtain ⟨first, changed, others, allChanged, rfl⟩ := succeeded
    obtain ⟨pairs, rfl, rfl, holds⟩ := exists_pairs_of_forall₂ ((mapM_eq_ok_iff _ _ _).mp allChanged)
    have each : ∀ pair ∈ pairs, pair.2.1 = pair.1.1 ∧ change pair.1.2 = .ok pair.2.2 := by
      intro pair present
      obtain ⟨label, labelChanged, same⟩ := exceptBind_eq_ok_iff.mp (holds pair present)
      rw [exceptPure_eq_ok_iff] at same
      rw [← same]
      exact ⟨rfl, labelChanged⟩
    refine ⟨lookupSwitch padding (default, first)
      (pairs.map fun pair => (pair.1.1, pair.1.2, pair.2.2)), ?_, ?_, ?_⟩
    · simp [mapLabels_lookupSwitch]
    · simp only [mapLabels_lookupSwitch, List.map_map, lookupSwitch.injEq, true_and]
      refine List.map_congr_left fun pair present => ?_
      rw [Function.comp_apply, ← (each pair present).1]
    · intro pair present
      simp only [labels, List.map_map, List.mem_cons, List.mem_map] at present
      rcases present with rfl | ⟨found, member, rfl⟩
      · exact changed
      · exact (each found member).2
  | branch opcode label =>
    simp only [mapLabelsM, exceptBind_eq_ok_iff, exceptPure_eq_ok_iff] at succeeded
    obtain ⟨first, changed, rfl⟩ := succeeded
    exact ⟨branch opcode (label, first), rfl, rfl, by simpa [labels] using changed⟩
  | wideBranch opcode label =>
    simp only [mapLabelsM, exceptBind_eq_ok_iff, exceptPure_eq_ok_iff] at succeeded
    obtain ⟨first, changed, rfl⟩ := succeeded
    exact ⟨wideBranch opcode (label, first), rfl, rfl, by simpa [labels] using changed⟩
  | simple opcode => cases succeeded; exact ⟨simple opcode, rfl, rfl, by simp [labels]⟩
  | localAccess opcode index =>
    cases succeeded; exact ⟨localAccess opcode index, rfl, rfl, by simp [labels]⟩
  | wideLocalAccess opcode index =>
    cases succeeded; exact ⟨wideLocalAccess opcode index, rfl, rfl, by simp [labels]⟩
  | increment index delta => cases succeeded; exact ⟨increment index delta, rfl, rfl, by simp [labels]⟩
  | wideIncrement index delta =>
    cases succeeded; exact ⟨wideIncrement index delta, rfl, rfl, by simp [labels]⟩
  | pushByte value => cases succeeded; exact ⟨pushByte value, rfl, rfl, by simp [labels]⟩
  | pushShort value => cases succeeded; exact ⟨pushShort value, rfl, rfl, by simp [labels]⟩
  | newArray elementCode => cases succeeded; exact ⟨newArray elementCode, rfl, rfl, by simp [labels]⟩
  | loadConstant index => cases succeeded; exact ⟨loadConstant index, rfl, rfl, by simp [labels]⟩
  | constant opcode index =>
    cases succeeded; exact ⟨constant opcode index, rfl, rfl, by simp [labels]⟩
  | invokeInterface method count =>
    cases succeeded; exact ⟨invokeInterface method count, rfl, rfl, by simp [labels]⟩
  | invokeDynamic callSite =>
    cases succeeded; exact ⟨invokeDynamic callSite, rfl, rfl, by simp [labels]⟩
  | multiNewArray arrayClass dimensions =>
    cases succeeded; exact ⟨multiNewArray arrayClass dimensions, rfl, rfl, by simp [labels]⟩

/-- Where a change succeeds exactly on valid labels, it succeeds exactly on instructions with valid
labels. -/
theorem mapLabelsM_eq_ok_iff {change : L → Except Error K} {valid : L → Prop} {total : L → K}
    (changes : ∀ label result, change label = .ok result ↔ valid label ∧ result = total label)
    (instruction : Instruction L) (result : Instruction K) :
    instruction.mapLabelsM change = .ok result ↔
      (∀ label ∈ instruction.labels, valid label) ∧ result = instruction.mapLabels total := by
  constructor
  · intro succeeded
    obtain ⟨paired, rfl, rfl, holds⟩ := exists_pairs_of_mapLabelsM succeeded
    refine ⟨?_, ?_⟩
    · intro label present
      rw [labels_mapLabels, List.mem_map] at present
      obtain ⟨pair, member, rfl⟩ := present
      exact ((changes _ _).mp (holds pair member)).1
    · rw [mapLabels_mapLabels]
      exact mapLabels_congr fun pair member => ((changes _ _).mp (holds pair member)).2
  · intro given
    obtain ⟨holds, same⟩ := given
    rw [same]
    exact mapLabelsM_of_labels fun label present => (changes _ _).mpr ⟨holds label present, rfl⟩

end Instruction

/-- Where a change succeeds exactly on valid items, it succeeds exactly on lists of them. -/
theorem mapM_eq_ok_iff_map {A B : Type} {change : A → Except Error B} {valid : A → Prop}
    {total : A → B}
    (changes : ∀ item result, change item = .ok result ↔ valid item ∧ result = total item)
    (items : List A) (results : List B) :
    items.mapM change = .ok results ↔
      (∀ item ∈ items, valid item) ∧ results = items.map total := by
  rw [mapM_eq_ok_iff]
  constructor
  · intro related
    induction related with
    | nil => simp
    | @cons item result items results first _ inductionHypothesis =>
      obtain ⟨holds, rfl⟩ := inductionHypothesis
      obtain ⟨validFirst, rfl⟩ := (changes item result).mp first
      refine ⟨?_, rfl⟩
      intro other present
      rcases List.mem_cons.mp present with rfl | later
      · exact validFirst
      · exact holds other later
  · intro given
    obtain ⟨holds, rfl⟩ := given
    rw [← mapM_eq_ok_iff]
    exact Instruction.mapM_eq_ok_map fun item present =>
      (changes _ _).mpr ⟨holds item present, rfl⟩

/-- An array is mapped successfully exactly when its list is. -/
theorem arrayMapM_eq_ok_iff {A B : Type} (change : A → Except Error B) (items : Array A)
    (results : Array B) :
    items.mapM change = .ok results ↔ items.toList.mapM change = .ok results.toList := by
  rw [Array.mapM_eq_mapM_toList]
  cases mapped : items.toList.mapM change with
  | error error => simp [Functor.map, Except.map]
  | ok list =>
    simp only [Functor.map, Except.map, Except.ok.injEq]
    constructor
    · intro same
      rw [← same]
    · intro same
      rw [same]

end Classfile
