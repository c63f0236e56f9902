import Classfile.Proofs.BodyRoundTrip
import Classfile.Proofs.LayoutGrowth
import Classfile.Proofs.SingleExtension

/-!
How far the margin of islands goes.

An island is placed well within the reach of its branch, since later extensions and the padding of
switches may push the two apart. Measured without padding, each extension does so by five bytes at
most, and padding adds three bytes for each switch. Where all branches and switches together stay
within the margin, a branch that was pointed at an island reaches it at every later layout, so that no
branch is extended twice.
-/

namespace Classfile

namespace Body

section Switches

variable {original now later : Body}

/-- Relaxation adds no switch and removes none. -/
theorem Rewired.switchCount (rewired : Rewired original now) (listed : original.Listed) :
    now.switchCount = original.switchCount := by
  have among (handle : Handle) (present : handle ∈ now.order.toList) :
      now.isSwitch handle = true ↔ (now.isSwitch handle && original.contains handle) = true := by
    rw [Bool.and_eq_true, iff_self_and]
    intro switch
    by_contra absent
    obtain ⟨target, shaped⟩ := rewired.inserted handle ((rewired.listed.live handle).mp present)
      (Bool.eq_false_of_not_eq_true absent)
    rw [isSwitch, shaped] at switch
    cases switch
  have same (handle : Handle) (present : handle ∈ original.order.toList) :
      now.isSwitch handle = true ↔ original.isSwitch handle = true := by
    obtain ⟨shape, shaped⟩ := contains_iff_shape?.mp ((listed.live handle).mp present)
    by_cases branches : ∃ opcode target, shape = .branch opcode target
    · obtain ⟨opcode, target, rfl⟩ := branches
      rw [isSwitch, isSwitch, shaped]
      cases rewired.branches handle opcode target shaped with
      | same shapedNow | widened _ shapedNow | inverted _ _ shapedNow => rw [shapedNow]
    · obtain ⟨shapedNow, _⟩ := rewired.kept handle shape shaped fun opcode target equal =>
        branches ⟨opcode, target, equal⟩
      rw [isSwitch, isSwitch, shaped, shapedNow]
  rw [Body.switchCount, Body.switchCount, List.countP_congr among, ← List.countP_filter, rewired.order,
    List.countP_congr same]

/-- Only switches have padding, and it takes three bytes at most. -/
theorem Synced.padding_le (synced : Synced now later) (listed : later.Listed) (handle : Handle) :
    later.padding handle ≤ if later.isSwitch handle then 3 else 0 := by
  cases found : later.slot? handle with
  | none =>
    rw [padding, found]
    exact Nat.zero_le _
  | some slot =>
    have aligned := synced.aligned listed found
    rw [Instruction.alignedAt_eq_self_iff] at aligned
    rw [padding_of_slot? found, Instruction.paddingWidth]
    cases padded : slot.instruction.padding? with
    | none => exact Nat.zero_le _
    | some padding =>
      have switch : later.isSwitch handle = true := by
        rw [isSwitch, Body.shape?, found, Option.map_some]
        cases instruction : slot.instruction with
        | tableSwitch | lookupSwitch => rfl
        | _ =>
          rw [instruction] at padded
          cases padded
      rw [if_pos switch, Option.map_some, Option.getD_some, aligned padding padded]
      exact (switchPadding_aligns slot.bci).1

/-- All padding together takes three bytes for each switch at most. -/
theorem Synced.startOf_padding_le (synced : Synced now later) (listed : later.Listed)
    (handle : Handle) :
    Layout.startOf later.padding later.order.toList handle ≤ 3 * later.switchCount := by
  refine Layout.startOf_le_sum.trans ?_
  rw [Body.switchCount]
  generalize later.order.toList = order
  induction order with
  | nil => exact Nat.le_refl 0
  | cons first rest inductionHypothesis =>
    have here := synced.padding_le listed first
    rw [List.map_cons, List.sum_cons, List.countP_cons]
    split at here <;> rename_i switch
    · rw [if_pos switch]
      omega
    · rw [if_neg switch]
      omega

end Switches

/-- Without padding, a branch has its target in the reach of islands, give or take five bytes for each
of some extensions. -/
structure Reaches (count : Nat) (now : Body) (branch target : Handle) : Prop where
  contains : now.contains target = true
  behind : now.weightBefore branch ≤ now.weightBefore target + 31744 + 5 * count
  ahead : now.weightBefore target ≤ now.weightBefore branch + 31743 + 5 * count

section Reaches

variable {now later : Body} {branch target : Handle} {count more : Nat}

/-- A branch that has its target in reach has it in reach with less to spare. -/
theorem Reaches.mono (reaches : Reaches count now branch target) (fewer : count ≤ more) :
    Reaches more now branch target := by
  obtain ⟨contains, behind, ahead⟩ := reaches
  exact ⟨contains, by omega, by omega⟩

/-- Computing the layout keeps targets in reach. -/
theorem Reaches.synced (reaches : Reaches count now branch target) (synced : Synced now later) :
    Reaches count later branch target := by
  obtain ⟨contains, behind, ahead⟩ := reaches
  refine ⟨?_, ?_, ?_⟩
  · rw [synced.contains]
    exact contains
  · rw [synced.weightBefore]
    exact behind
  · rw [synced.weightBefore]
    exact ahead

/-- At a layout a branch reaches a target that is near enough without padding. -/
theorem Reaches.near (reaches : Reaches count later branch target) (synced : Synced now later)
    (listed : later.Listed) (fits : 5 * count + 3 * later.switchCount ≤ 1024) {opcode : Opcode}
    {slot : Slot} {jump : Jump} (found : later.slot? branch = some slot)
    (branches : slot.instruction = .branch opcode jump) (leads : jump.target = target) :
    isNear jump.offset = true := by
  obtain ⟨landing, foundLanding, offset⟩ := synced.measured branch slot found jump
    (by rw [branches]; simp [Instruction.labels])
  rw [leads] at foundLanding
  have stretched := synced.stretched listed
  have source := stretched.bci branch slot found
  have goal := stretched.bci target landing foundLanding
  rw [Layout.startOf_add] at source goal
  have behind := reaches.behind
  have ahead := reaches.ahead
  rw [weightBefore, weightBefore] at behind ahead
  have paddedSource := synced.startOf_padding_le listed branch
  have paddedGoal := synced.startOf_padding_le listed target
  rw [isNear, decide_eq_true_eq, offset, jumpOffset]
  omega

end Reaches

/-- Some branches that were extended have their targets in reach, if they still are 16-bit branches. -/
structure AllReach (branches : List Handle) (now : Body) : Prop where
  contains : ∀ branch ∈ branches, now.contains branch = true
  reaches : ∀ branch ∈ branches, ∀ opcode target,
    now.shape? branch = some (.branch opcode target) → Reaches branches.length now branch target

section AllReach

variable {now later : Body} {branches : List Handle}

/-- Computing the layout keeps the targets of all branches in reach. -/
theorem AllReach.synced (reach : AllReach branches now) (synced : Synced now later) :
    AllReach branches later := by
  refine ⟨fun branch member => ?_, fun branch member opcode target shaped => ?_⟩
  · rw [synced.contains]
    exact reach.contains branch member
  · rw [synced.shape?] at shaped
    exact (reach.reaches branch member opcode target shaped).synced synced

/-- Where the margin suffices, none of the branches is oversized at a layout. -/
theorem AllReach.not_mem_oversized (reach : AllReach branches later) (synced : Synced now later)
    (listed : later.Listed) (fits : 5 * branches.length + 3 * later.switchCount ≤ 1024)
    {branch : Handle} (member : branch ∈ branches) : branch ∉ later.oversized.map Prod.fst := by
  intro far
  obtain ⟨⟨_, opcode, jump⟩, oversized, rfl⟩ := List.mem_map.mp far
  obtain ⟨_, beyond, slot, found, branching⟩ := mem_oversized_iff.mp oversized
  have reaches := reach.reaches _ member opcode jump.target (shape?_of_mem_oversized oversized)
  have near := reaches.near synced listed fits found branching rfl
  rw [beyond] at near
  cases near

end AllReach

end Body

namespace Edit

open Body

section Extension

variable {branch target : Handle} {opcode : Opcode} {before after : Edit}

/-- A `goto_w` was inserted and a branch replaced by another one. -/
theorem weightBefore_of_inserts_replaces {now middle later : Body} {anchor new current : Handle}
    {old other : Opcode} {jump : Jump} (listed : now.Listed)
    (branching : now.shape? branch = some (.branch old current))
    (inserted : Inserts anchor (.wideBranch .gotoW (.to target)) now new middle)
    (replaced : Replaces branch (.branch other jump) middle later) (handle : Handle) :
    later.weightBefore handle = middle.weightBefore handle ∧
      (now.contains handle = true → now.weightBefore handle ≤ later.weightBefore handle ∧
        later.weightBefore handle ≤ now.weightBefore handle + 5) := by
  have weight := weight_of_branch (inserted.shape?_of_present branching)
  have narrow : (Instruction.branch other jump).weight = 3 := rfl
  have same := @Replaces.weightBefore_le middle later branch (.branch other jump) 0 replaced (by omega)
    (by omega) (inserted.listed listed) handle
  have equal : later.weightBefore handle = middle.weightBefore handle := by omega
  refine ⟨equal, fun present => ?_⟩
  rw [equal]
  exact inserted.weightBefore_le listed (inserted.ne_new present)

/-- An extension moves no instruction by more than five bytes, apart from padding. -/
theorem Extends.weightBefore_le {current : Handle} (extends' : Extends branch opcode target before after)
    (listed : before.body.Listed) (branching : before.body.shape? branch = some (.branch opcode current))
    {handle : Handle} (present : before.body.contains handle = true) :
    before.body.weightBefore handle ≤ after.body.weightBefore handle ∧
      after.body.weightBefore handle ≤ before.body.weightBefore handle + 5 := by
  cases extends' with
  | widened _ replaced =>
    have weight := weight_of_branch branching
    refine replaced.weightBefore_le ?_ ?_ listed handle
    · rw [weight]
      exact (by decide : 3 ≤ 5)
    · rw [weight]
      exact (by decide : 5 ≤ 3 + 5)
  | inverted _ _ _ _ inserted replaced =>
    exact (weightBefore_of_inserts_replaces listed branching inserted replaced handle).2 present
  | island _ _ _ _ _ _ inserted replaced =>
    exact (weightBefore_of_inserts_replaces listed branching inserted replaced handle).2 present

/-- A branch that reaches its target does so after the extension of another branch. -/
theorem Extends.keepsReach {current other landing : Handle} {count : Nat}
    (extends' : Extends branch opcode target before after) (listed : before.body.Listed)
    (branching : before.body.shape? branch = some (.branch opcode current))
    (present : before.body.contains other = true)
    (reaches : Reaches count before.body other landing) :
    Reaches (count + 1) after.body other landing := by
  obtain ⟨contains, behind, ahead⟩ := reaches
  obtain ⟨source, sourceMoved⟩ := extends'.weightBefore_le listed branching present
  obtain ⟨goal, goalMoved⟩ := extends'.weightBefore_le listed branching contains
  have grows := extends'.grows listed (contains_of_shape? branching)
  exact ⟨grows.kept landing contains, by omega, by omega⟩

/-- An extension makes the code longer than its positions say by five bytes at most. -/
theorem Extends.stretched {current : Handle} {settled : Body} {spare : Nat}
    (extends' : Extends branch opcode target before after) (listed : before.body.Listed)
    (branching : before.body.shape? branch = some (.branch opcode current))
    (stretched : Stretched settled spare before.body) : Stretched settled (spare + 5) after.body := by
  cases extends' with
  | widened _ replaced =>
    exact stretched.replaces listed branching replaced rfl (by decide : 3 ≤ 5) (by decide : 5 ≤ 3 + 5)
  | inverted _ _ _ _ inserted replaced =>
    exact (stretched.inserts listed inserted).replaces (inserted.listed listed)
      (inserted.shape?_of_present branching) replaced rfl (Nat.le_refl 3) (Nat.le_refl (3 + 0))
  | island _ _ _ _ _ _ inserted replaced =>
    have replacedStretched := (stretched.inserts listed inserted).replaces (inserted.listed listed)
      (inserted.shape?_of_present branching) replaced rfl (Nat.le_refl 3) (Nat.le_refl (3 + 0))
    exact replacedStretched.setFrames _

/-- What is chosen as a site is in the reach of islands. -/
theorem inReach_of_islandDistance? {body : Body} {source distance : Nat} {site : Slot}
    (measured : body.islandDistance? source site = .ok (some distance)) :
    source ≤ site.bci + site.instruction.width + 31744 ∧
      site.bci + site.instruction.width ≤ source + 31743 := by
  simp only [islandDistance?, exceptBind_eq_ok_iff, exceptPure_eq_ok_iff] at measured
  obtain ⟨_, _, chosen⟩ := measured
  split at chosen
  · rename_i near
    have reach := near.1
    rw [inIslandReach, decide_eq_true_eq, islandMargin] at reach
    omega
  · cases chosen

/-- A branch is near the island that it is pointed at, although the site was chosen by positions of the
last layout. -/
theorem reaches_island {settled now middle later : Body} {count : Nat} {site island current : Handle}
    {other : Opcode} (stretched : Stretched settled (5 * count) now) (listed : now.Listed)
    (branching : now.shape? branch = some (.branch opcode current))
    (found : now.islandSite? branch = .ok (some site))
    (inserted : Inserts site (.wideBranch .gotoW (.to target)) now island middle)
    (replaced : Replaces branch (.branch other (.to island)) middle later) :
    Reaches (count + 1) later branch island := by
  obtain ⟨source, slot, distance, starts, present, foundSite, _, measured⟩ :=
    exists_distance_of_islandSite? found
  obtain ⟨branchSlot, foundBranch, rfl⟩ := bci_eq_ok_iff.mp starts
  obtain ⟨behind, ahead⟩ := inReach_of_islandDistance? measured
  have branchPresent : branch ∈ now.order.toList :=
    (listed.live branch).mpr (contains_of_shape? branching)
  -- The branch and the island after the extension, in terms of the branch and the site before it.
  obtain ⟨_, moved⟩ := weightBefore_of_inserts_replaces listed branching inserted replaced branch
  obtain ⟨branchMoved, branchBounded⟩ := moved (contains_of_shape? branching)
  have islandAt : later.weightBefore island = now.weightBefore site + now.weight site := by
    rw [(weightBefore_of_inserts_replaces listed branching inserted replaced island).1,
      inserted.weightBefore_new listed]
  -- Positions, in terms of weights and padding at the last layout.
  have siteBci := stretched.bci site slot foundSite
  have branchBci := stretched.bci branch branchSlot foundBranch
  rw [Layout.startOf_add] at siteBci branchBci
  have siteWidth := stretched.width site slot foundSite
  have grown (handle : Handle) :
      Layout.startOf settled.weight now.order.toList handle ≤ now.weightBefore handle ∧
        now.weightBefore handle ≤
          Layout.startOf settled.weight now.order.toList handle + 5 * count :=
    Layout.startOf_le_of_le stretched.weight stretched.total
  have siteGrown := grown site
  have branchGrown := grown branch
  have alive : later.contains island = true := by
    rw [replaced.contains, inserted.contains]
    exact .inl rfl
  by_cases same : site = branch
  · have weight := weight_of_branch branching
    rw [same] at islandAt
    exact ⟨alive, by omega, by omega⟩
  · rcases Layout.startOf_trichotomy present branchPresent same with siteFirst | branchFirst
    · have padded := siteFirst settled.padding
      have ordered : now.weightBefore site + now.weight site ≤ now.weightBefore branch :=
        siteFirst now.weight
      exact ⟨alive, by omega, by omega⟩
    · have padded := branchFirst settled.padding
      have ordered : now.weightBefore branch + now.weight branch ≤ now.weightBefore site :=
        branchFirst now.weight
      exact ⟨alive, by omega, by omega⟩

/-- A branch that was inverted hops over its trampoline. -/
theorem reaches_next {now middle later : Body} {count : Nat} {trampoline next current : Handle}
    {old opposite : Opcode} (listed : now.Listed)
    (branching : now.shape? branch = some (.branch old current))
    (follows : now.successor? branch = some next)
    (inserted : Inserts branch (.wideBranch .gotoW (.to target)) now trampoline middle)
    (replaced : Replaces branch (.branch opposite (.to next)) middle later) :
    Reaches count later branch next := by
  have alive : now.contains next = true := (listed.live next).mp (Layout.mem_of_successor? follows)
  have middleListed := inserted.listed listed
  have distinct := (replaced.listed middleListed).distinct
  have hop : later.successor? branch = some trampoline := by
    rw [Body.successor?, replaced.order]
    exact inserted.successor?_anchor
  have onward : later.successor? trampoline = some next := by
    rw [Body.successor?, replaced.order, ← follows]
    exact inserted.successor?_new listed
  have first := @Layout.startOf_successor? later.weight _ _ _ distinct hop
  have second := @Layout.startOf_successor? later.weight _ _ _ distinct onward
  have apart := (inserted.ne_new (contains_of_shape? branching)).symm
  have branchWeight : later.weight branch = 3 := by
    rw [replaced.weight, if_pos rfl]
    rfl
  have trampolineWeight : later.weight trampoline = 5 := by
    rw [replaced.weight, if_neg apart, inserted.weight, if_pos rfl]
    rfl
  refine ⟨?_, ?_, ?_⟩
  · rw [replaced.contains, inserted.contains]
    exact .inr alive
  · rw [weightBefore, weightBefore]
    omega
  · rw [weightBefore, weightBefore]
    omega

/-- A branch that was just extended and is still a 16-bit branch is near its target. -/
theorem Extends.reaches {current : Handle} {settled : Body} {count : Nat}
    (extends' : Extends branch opcode target before after) (listed : before.body.Listed)
    (branching : before.body.shape? branch = some (.branch opcode current))
    (stretched : Stretched settled (5 * count) before.body) {other : Opcode} {landing : Handle}
    (shaped : after.body.shape? branch = some (.branch other landing)) :
    Reaches (count + 1) after.body branch landing := by
  cases extends' with
  | widened _ replaced =>
    rw [replaced.shape?_self] at shaped
    cases shaped
  | @inverted middle body opposite next trampoline _ _ _ follows inserted replaced =>
    have here : body.shape? branch = some (.branch opposite next) := replaced.shape?_self
    change body.shape? branch = _ at shaped
    rw [here, Option.some.injEq, Instruction.branch.injEq] at shaped
    rw [← shaped.2]
    exact reaches_next listed branching (next?_eq_ok_iff.mp follows).2 inserted replaced
  | @island pool middle body _ frames _ _ site island _ _ _ _ _ found inserted replaced _ =>
    have here : body.shape? branch = some (.branch opcode island) := replaced.shape?_self
    change body.shape? branch = _ at shaped
    rw [here, Option.some.injEq, Instruction.branch.injEq] at shaped
    obtain ⟨contains, behind, ahead⟩ := reaches_island stretched listed branching found inserted replaced
    rw [← shaped.2]
    exact ⟨contains, behind, ahead⟩

/-- The step: one more branch is extended. -/
theorem Extends.allReach {current : Handle} {settled : Body} {branches : List Handle} {count : Nat}
    (extends' : Extends branch opcode target before after) (listed : before.body.Listed)
    (branching : before.body.shape? branch = some (.branch opcode current))
    (stretched : Stretched settled (5 * count) before.body) (fewer : count ≤ branches.length)
    (reach : AllReach branches before.body) : AllReach (branches ++ [branch]) after.body := by
  have alive := contains_of_shape? branching
  have grows := extends'.grows listed alive
  have length : (branches ++ [branch]).length = branches.length + 1 := by simp
  constructor
  · intro other member
    rcases List.mem_append.mp member with earlier | last
    · exact grows.kept other (reach.contains other earlier)
    · rw [List.mem_singleton.mp last]
      exact grows.kept branch alive
  · intro other member otherOpcode landing shaped
    rw [length]
    by_cases same : other = branch
    · subst same
      exact (extends'.reaches listed branching stretched shaped).mono (by omega)
    · have earlier : other ∈ branches := by simpa [same] using member
      have present := reach.contains other earlier
      rw [grows.shape? other same present] at shaped
      exact extends'.keepsReach listed branching present
        (reach.reaches other earlier otherOpcode landing shaped)

end Extension

section Rounds

variable {original : Body} {pool : Pool} {events : Array Event}

/-- The run: the branches of a whole round are extended. -/
theorem allReach_of_forM_extendBranch (listed : original.Listed) (wellFormed : original.WellFormed)
    {settled : Body} {branches : List Handle} {oversized : List (Handle × Opcode × Jump)}
    {before after : Logged Edit} (pending : original.Pending oversized before.state.body)
    (stretched : Stretched settled 0 before.state.body) (reach : AllReach branches before.state.body)
    (ran : (oversized.forM fun (branch, opcode, jump) => extendBranch branch opcode jump) before =
      .ok () after) : AllReach (branches ++ oversized.map Prod.fst) after.state.body := by
  have left := forM_extendBranch_induction
    (fun entries edit => original.Pending entries edit.body ∧ ∃ extended,
      extended ++ entries.map Prod.fst = oversized.map Prod.fst ∧
        Stretched settled (5 * extended.length) edit.body ∧
        AllReach (branches ++ extended) edit.body)
    ?_ ⟨pending, [], rfl, stretched, by rwa [List.append_nil]⟩ ran
  · obtain ⟨_, extended, all, _, reached⟩ := left
    rw [List.map_nil, List.append_nil] at all
    rw [← all]
    exact reached
  · rintro branch opcode jump others edit later ⟨remaining, extended, all, longer, reached⟩ extends'
    have branching := remaining.shaped branch opcode jump (by simp)
    have current := remaining.rewired.listed
    refine ⟨remaining.extends listed (wellFormed_iff.mp wellFormed) extends', extended ++ [branch], ?_,
      ?_, ?_⟩
    · rw [← all, List.append_assoc]
      rfl
    · rw [List.length_append, List.length_singleton, Nat.mul_add]
      exact extends'.stretched current branching longer
    · rw [← List.append_assoc]
      refine extends'.allReach current branching longer ?_ reached
      rw [List.length_append]
      exact Nat.le_add_left _ _

variable {count : Nat} {done : List (Handle × Option (Instruction Handle))} {after : Logged Edit}

/-- Where the margin suffices for all branches and switches, the next layout leaves none of the
extended branches oversized. -/
theorem Extended.nodup_append (intact : original.Intact) (wellFormed : original.WellFormed)
    (fits : 5 * original.branchCount + 3 * original.switchCount ≤ 1024)
    (extended : Extended ⟨⟨original, pool⟩, events⟩ count done after)
    (distinct : (done.map Prod.fst).Nodup) (reach : AllReach (done.map Prod.fst) after.state.body)
    {laidOut : Logged Edit} (computed : onBody Body.sync after = .ok () laidOut) :
    (done.map Prod.fst ++ laidOut.state.body.oversized.map Prod.fst).Nodup := by
  have rewired := extended.rewired intact.listed wellFormed intact.jumpsLive
  have synced := extended.synced intact.listed wellFormed intact.jumpsLive computed
  have few := length_le_branchCount intact.listed distinct
    (extended.branches intact.listed wellFormed intact.jumpsLive)
  have switches := (rewired.synced synced).switchCount intact.listed
  refine distinct.append (rewired.pending synced).distinct fun branch earlier far => ?_
  exact (reach.synced synced).not_mem_oversized synced (synced.listed rewired.listed) (by omega) earlier
    far

/-- After some rounds, the branches that they extended are different and have their targets in
reach. -/
theorem Extended.allReach (intact : original.Intact) (wellFormed : original.WellFormed)
    (fits : 5 * original.branchCount + 3 * original.switchCount ≤ 1024)
    (extended : Extended ⟨⟨original, pool⟩, events⟩ count done after) :
    (done.map Prod.fst).Nodup ∧ AllReach (done.map Prod.fst) after.state.body := by
  induction extended with
  | initial => exact ⟨.nil, by simp, by simp⟩
  | @next _ done middle laidOut after earlier computed far ran inductionHypothesis =>
    obtain ⟨distinct, reach⟩ := inductionHypothesis
    have rewired := earlier.rewired intact.listed wellFormed intact.jumpsLive
    have synced := earlier.synced intact.listed wellFormed intact.jumpsLive computed
    have reached := allReach_of_forM_extendBranch intact.listed wellFormed (rewired.pending synced)
      (synced.stretched (synced.listed rewired.listed)) (reach.synced synced) ran
    rw [map_fst_append_extended]
    exact ⟨earlier.nodup_append intact wellFormed fits distinct reach computed, reached⟩

/-- The margin of islands suffices where five bytes for each branch and three for each switch stay
within it. Then relaxation extends each branch once at most, and a branch that was pointed at an island
reaches it at every later layout. -/
theorem extendsOnce_of_islandMargin {body : Body} (intact : body.Intact) (wellFormed : body.WellFormed)
    (fits : ((5 * body.branchCount + 3 * body.switchCount : Nat) : Int) ≤ islandMargin) (pool : Pool)
    (events : Array Event) : ExtendsOnce ⟨⟨body, pool⟩, events⟩ := by
  rw [islandMargin] at fits
  refine extendsOnce_of_nodup intact.listed wellFormed intact.jumpsLive ?_ ?_
  · rw [roundLimit]
    omega
  · intro count done middle laidOut extended computed
    obtain ⟨distinct, reach⟩ := extended.allReach intact wellFormed (by omega)
    exact extended.nodup_append intact wellFormed (by omega) distinct reach computed

set_option maxRecDepth 20000 in
theorem extendsOnce_of_islandMargin_farFramedBranch :
    Body.farFramedBranch.Intact ∧ Body.farFramedBranch.WellFormed ∧
      ((5 * Body.farFramedBranch.branchCount + 3 * Body.farFramedBranch.switchCount : Nat) : Int) ≤
        islandMargin ∧
      ExtendsOnce ⟨⟨Body.farFramedBranch, Pool.tableNames⟩, #[]⟩ := by
  have intact : Body.farFramedBranch.Intact := ⟨by decide, by decide +kernel⟩
  have wellFormed : Body.farFramedBranch.WellFormed := by decide +kernel
  have fits : ((5 * Body.farFramedBranch.branchCount + 3 * Body.farFramedBranch.switchCount : Nat) :
      Int) ≤ islandMargin := by decide +kernel
  exact ⟨intact, wellFormed, fits,
    extendsOnce_of_islandMargin intact wellFormed fits Pool.tableNames #[]⟩

end Rounds

end Edit

end Classfile
