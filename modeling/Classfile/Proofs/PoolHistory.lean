import Classfile.Proofs.Acceptance

/-!
Histories of a pool.

A pool is new or was read, and then constants are interned, alone or after the parts they refer to.
A request, however far it gets, pushes only constants that the pool does not have, and all that is
known about histories follows from that: `deduplicates_of_reached` says that interning finds what a
scan of the entries finds, that no entry changes, and that no constant is entered twice.
-/

namespace Classfile

namespace Pool

/-- The offset of the first entry that holds a constant. -/
def scan? (pool : Pool) (constant : Constant) : Option Nat :=
  (pool.table.entries.toList.find? fun entry => entry.2 = constant).map Prod.fst

/-- Appending a constant adds one entry at the end. -/
theorem entries_append (pool : Pool) (constant : Constant) :
    (pool.append constant).table.entries.toList =
      pool.table.entries.toList ++ [(pool.table.extent, constant)] := by
  simp [append, OffsetTable.push]

/-- A new entry is found only if no earlier one is. -/
theorem scan?_append (pool : Pool) (constant other : Constant) :
    (pool.append constant).scan? other =
      (pool.scan? other).or (if constant = other then some pool.table.extent else none) := by
  rw [scan?, entries_append, List.find?_append, Option.map_or, ← scan?]
  by_cases same : constant = other <;> simp [same]

/-- A scan finds nothing if the constant is not there. -/
theorem scan?_eq_none_iff {pool : Pool} {constant : Constant} :
    pool.scan? constant = none ↔ constant ∉ pool.constants := by
  simp only [scan?, Option.map_eq_none_iff, List.find?_eq_none, constants, OffsetTable.elements,
    List.mem_map, decide_eq_true_eq, not_exists, not_and]

/-- The index of the next constant is the offset of its entry. -/
theorem Built.toNat_nextIndex {pool : Pool} (built : pool.Built) :
    pool.nextIndex.toNat = pool.table.extent :=
  UInt16.toNat_ofNat_of_lt' built.extent_lt

/-- The known first indices are those that a scan finds. -/
theorem Built.scan?_eq {pool : Pool} (built : pool.Built) (constant : Constant) :
    pool.firstIndex[constant]?.map UInt16.toNat = pool.scan? constant := by
  induction built with
  | empty => simp [Pool.empty, scan?, OffsetTable.startingAt]
  | @push pool later added built pushed inductionHypothesis =>
    obtain ⟨_, rfl⟩ := push_eq_ok_iff.mp pushed
    rw [scan?_append, ← inductionHypothesis, append, Std.HashMap.getElem?_insertIfNew]
    by_cases same : added = constant
    · subst same
      cases known : pool.firstIndex[added]? with
      | some index =>
        have present : added ∈ pool.firstIndex := by
          rw [Std.HashMap.mem_iff_isSome_getElem?, known]
          rfl
        simp [present]
      | none =>
        have absent : added ∉ pool.firstIndex := by
          rw [Std.HashMap.mem_iff_isSome_getElem?, known]
          exact Bool.false_ne_true
        simp [absent, built.toNat_nextIndex]
    · simp [same]

/-- The later pool is the earlier one with constants pushed onto it that it did not have. -/
inductive Enlarges : Pool → Pool → Prop
  | refl (pool : Pool) : Enlarges pool pool
  | push {before middle after : Pool} {constant : Constant} (earlier : Enlarges before middle)
      (absent : middle.firstIndex[constant]? = none) (pushed : middle.push constant = .ok after) :
      Enlarges before after

namespace Enlarges

variable {before middle after : Pool}

theorem trans (first : Enlarges before middle) (second : Enlarges middle after) :
    Enlarges before after := by
  induction second with
  | refl => exact first
  | push _ absent pushed inductionHypothesis => exact .push inductionHypothesis absent pushed

/-- An enlarged pool extends the earlier one. -/
theorem toExtends (enlarges : Enlarges before after) : before.Extends after := by
  induction enlarges with
  | refl => exact Extends.refl _
  | push _ _ pushed inductionHypothesis => exact inductionHypothesis.trans (extends_of_push pushed)

/-- The entries of the earlier pool come first in the enlarged one. -/
theorem entries (enlarges : Enlarges before after) :
    before.table.entries.toList <+: after.table.entries.toList := by
  induction enlarges with
  | refl => exact List.prefix_rfl
  | push _ _ pushed inductionHypothesis =>
    obtain ⟨_, rfl⟩ := push_eq_ok_iff.mp pushed
    rw [entries_append]
    exact inductionHypothesis.trans (List.prefix_append _ _)

/-- What is pushed was not there, so nothing is there twice that was not before. -/
theorem nodup (enlarges : Enlarges before after) (built : before.Built)
    (distinct : before.constants.Nodup) : after.constants.Nodup := by
  induction enlarges with
  | refl => exact distinct
  | @push middle after constant earlier absent pushed inductionHypothesis =>
    obtain ⟨_, rfl⟩ := push_eq_ok_iff.mp pushed
    have unknown : constant ∉ middle.constants := by
      rw [← scan?_eq_none_iff, ← (earlier.toExtends built).1.scan?_eq, absent]
      rfl
    rw [constants_append, List.nodup_append]
    refine ⟨inductionHypothesis, List.nodup_singleton _, ?_⟩
    rintro other present _ added rfl
    rw [List.mem_singleton.mp added] at present
    exact unknown present

end Enlarges

end Pool

namespace Interning

variable {A B : Type}

/-- The pool that a task leaves, whether it succeeds or fails. -/
def leaves (task : Interning A) (pool : Pool) : Pool :=
  match task pool with
  | .ok _ after | .error _ after => after

/-- A task enlarges the pool, however far it gets. -/
def Enlarges (task : Interning A) : Prop := ∀ pool, Pool.Enlarges pool (task.leaves pool)

/-- Two tasks that enlarge a pool do so one after the other. -/
theorem Enlarges.bind {first : Interning A} {next : A → Interning B} (enlarges : first.Enlarges)
    (continued : ∀ value, (next value).Enlarges) : Interning.Enlarges (first >>= next) := by
  intro pool
  have earlier := enlarges pool
  change Pool.Enlarges pool (leaves (EStateM.bind first next) pool)
  cases ran : first pool with
  | ok value middle =>
    simp only [leaves, ran] at earlier
    simp only [leaves, EStateM.bind, ran]
    exact earlier.trans (continued value middle)
  | error error middle =>
    simp only [leaves, ran] at earlier
    simp only [leaves, EStateM.bind, ran]
    exact earlier

/-- A task that enlarges a pool leaves an enlarged one. -/
theorem Enlarges.enlarged {task : Interning A} (enlarges : task.Enlarges) {before after : Pool}
    {value : A} (ran : task before = .ok value after) : before.Enlarges after := by
  have left := enlarges before
  rwa [leaves, ran] at left

theorem Enlarges.toExtends {task : Interning A} (enlarges : task.Enlarges) {before after : Pool}
    {value : A} (ran : task before = .ok value after) : before.Extends after :=
  (enlarges.enlarged ran).toExtends

/-- Interning a constant enlarges the pool. -/
theorem enlarges_intern (constant : Constant) : (Pool.intern constant).Enlarges := by
  intro pool
  rw [leaves, Pool.intern]
  cases known : pool.firstIndex[constant]? with
  | some index => exact .refl pool
  | none =>
    cases refused : pool.refusal? constant with
    | some error => exact .refl pool
    | none => exact (Pool.Enlarges.refl pool).push known (Pool.push_eq_ok_iff.mpr ⟨refused, rfl⟩)

theorem enlarges_internClass (name : String) : (Pool.internClass name).Enlarges :=
  (enlarges_intern _).bind fun _ => enlarges_intern _

theorem enlarges_internNameAndType (name descriptor : String) :
    (Pool.internNameAndType name descriptor).Enlarges :=
  (enlarges_intern _).bind fun _ => (enlarges_intern _).bind fun _ => enlarges_intern _

end Interning

namespace Pool

/-- What can be interned: a constant as such, or texts that constants are made for. -/
inductive Request where
  | entry (constant : Constant)
  | text (contents : String)
  | className (name : String)
  | string (contents : String)
  | nameAndType (name descriptor : String)
  | field (owner name descriptor : String)
  | method (owner name descriptor : String)
  deriving DecidableEq

namespace Request

/-- The request is interned. -/
def run : Request → Interning ConstantIndex
  | .entry constant => intern constant
  | .text contents => internText contents
  | .className name => internClass name
  | .string contents => internString contents
  | .nameAndType name descriptor => internNameAndType name descriptor
  | .field owner name descriptor => internField owner name descriptor
  | .method owner name descriptor => internMethod owner name descriptor

/-- Every request enlarges the pool. -/
theorem enlarges (request : Request) : request.run.Enlarges := by
  cases request with
  | entry constant => exact Interning.enlarges_intern constant
  | text contents => exact Interning.enlarges_intern _
  | className name => exact Interning.enlarges_internClass name
  | string contents =>
    exact (Interning.enlarges_intern _).bind fun _ => Interning.enlarges_intern _
  | nameAndType name descriptor => exact Interning.enlarges_internNameAndType name descriptor
  | field owner name descriptor =>
    exact (Interning.enlarges_internClass owner).bind fun _ =>
      (Interning.enlarges_internNameAndType name descriptor).bind fun _ =>
        Interning.enlarges_intern _
  | method owner name descriptor =>
    exact (Interning.enlarges_internClass owner).bind fun _ =>
      (Interning.enlarges_internNameAndType name descriptor).bind fun _ =>
        Interning.enlarges_intern _

end Request

/-- The pool after some requests, each of which was met or failed, even halfway. -/
def after (pool : Pool) (requests : List Request) : Pool :=
  requests.foldl (fun pool request => request.run.leaves pool) pool

/-- A history of requests enlarges the pool. -/
theorem enlarges_after (pool : Pool) (requests : List Request) :
    pool.Enlarges (pool.after requests) := by
  induction requests generalizing pool with
  | nil => exact .refl pool
  | cons request requests inductionHypothesis =>
    exact (request.enlarges pool).trans (inductionHypothesis (request.run.leaves pool))

/-- A new pool, or one that was read. -/
inductive Initial : Pool → Prop
  | empty : Initial Pool.empty
  | read {input rest : Bytes} {pool : Pool} (done : Pool.read input = .ok (pool, rest)) :
      Initial pool

/-- A pool that some requests made of a new one or of one that was read. -/
def Reached (pool : Pool) : Prop :=
  ∃ start requests, Initial start ∧ pool = start.after requests

/-- The pools to start from are built. -/
theorem Initial.built {pool : Pool} (initial : pool.Initial) : pool.Built := by
  cases initial with
  | empty => exact .empty
  | read done => exact built_of_read done

theorem Reached.built {pool : Pool} (reached : pool.Reached) : pool.Built := by
  obtain ⟨start, requests, initial, rfl⟩ := reached
  exact ((start.enlarges_after requests).toExtends initial.built).1

/-- The next index and the length of a text are what a constant is refused for. -/
theorem Built.refusal?_eq {pool : Pool} (built : pool.Built) (constant : Constant) :
    pool.refusal? constant =
      if 65535 < pool.table.extent + constant.width then some (.poolFull pool.nextIndex)
      else
        match constant with
        | .utf8 bytes => if 65535 < bytes.length then some (.utf8TooLong bytes.length) else none
        | _ => none := by
  unfold refusal?
  rw [built.toNat_nextIndex]
  rfl

/-- A built pool takes in a constant if there is room for it and it is not too long. -/
theorem Built.refusal?_eq_none_iff {pool : Pool} (built : pool.Built) (constant : Constant) :
    pool.refusal? constant = none ↔ pool.table.extent + constant.width ≤ 65535 ∧
      ∀ bytes, constant = .utf8 bytes → bytes.length ≤ 65535 := by
  rw [built.refusal?_eq]
  split
  · next crowded => exact ⟨nofun, fun fits => absurd fits.1 (Nat.not_le.mpr crowded)⟩
  · next room =>
    cases constant with
    | utf8 bytes => simpa using fun _ => Nat.not_lt.mp room
    | _ => simpa using room

/-- Interning is a scan of the entries, and entries stay as they are. -/
structure Deduplicates (pool : Pool) : Prop where
  /-- A constant that is there is found at its first offset, and the pool stays as it is. -/
  found : ∀ constant offset, pool.scan? constant = some offset →
    ∃ index, intern constant pool = .ok index pool ∧ index.toNat = offset
  /-- A constant that is not there becomes the last entry, at the next free offset. -/
  added : ∀ constant, pool.scan? constant = none → pool.table.extent + constant.width ≤ 65535 →
    (∀ bytes, constant = .utf8 bytes → bytes.length ≤ 65535) →
      ∃ index later, intern constant pool = .ok index later ∧ index.toNat = pool.table.extent ∧
        later.table.entries.toList =
          pool.table.entries.toList ++ [(pool.table.extent, constant)] ∧
        later.table.extent = pool.table.extent + constant.width
  /-- It is refused if it would go past index 65534, and the pool stays as it is. -/
  full : ∀ constant, pool.scan? constant = none → 65535 < pool.table.extent + constant.width →
    intern constant pool = .error (.poolFull pool.nextIndex) pool
  /-- Else only a text is refused whose length does not fit in 16 bits. -/
  long : ∀ bytes, pool.scan? (.utf8 bytes) = none → pool.table.extent + 1 ≤ 65535 →
    65535 < bytes.length → intern (.utf8 bytes) pool = .error (.utf8TooLong bytes.length) pool
  /-- The known first indices are those that a scan finds. -/
  indexed : ∀ constant : Constant,
    pool.firstIndex[constant]?.map UInt16.toNat = pool.scan? constant
  bounded : pool.table.extent ≤ 65535
  /-- Later entries follow the earlier ones, and an index keeps its constant. -/
  kept : ∀ requests, pool.table.entries.toList <+: (pool.after requests).table.entries.toList ∧
    ∀ index constant, pool.get index = .ok constant →
      (pool.after requests).get index = .ok constant
  distinct : ∀ requests, pool.constants.Nodup → (pool.after requests).constants.Nodup

/-- Every pool that can be reached finds its constants as a scan does. -/
theorem deduplicates_of_reached {pool : Pool} (reached : pool.Reached) : pool.Deduplicates := by
  have built := reached.built
  have unknown {constant : Constant} (absent : pool.scan? constant = none) :
      pool.firstIndex[constant]? = none := by
    rwa [← built.scan?_eq, Option.map_eq_none_iff] at absent
  have small := built.extent_lt
  constructor
  case found =>
    intro constant offset located
    rw [← built.scan?_eq, Option.map_eq_some_iff] at located
    obtain ⟨index, known, exactly⟩ := located
    exact ⟨index, by rw [intern, known], exactly⟩
  case added =>
    intro constant absent room short
    have allowed := (built.refusal?_eq_none_iff constant).mpr ⟨room, short⟩
    refine ⟨pool.nextIndex, pool.append constant, ?_, built.toNat_nextIndex,
      entries_append pool constant, extent_append pool constant⟩
    rw [intern, unknown absent, allowed]
  case full =>
    intro constant absent crowded
    rw [intern, unknown absent, built.refusal?_eq, if_pos crowded]
  case long =>
    intro bytes absent room long
    have width : (Constant.utf8 bytes).width = 1 := rfl
    rw [intern, unknown absent, built.refusal?_eq, width, if_neg (by omega)]
    simp only [if_pos long]
  case indexed => exact built.scan?_eq
  case bounded => omega
  case kept =>
    intro requests
    have enlarges := pool.enlarges_after requests
    exact ⟨enlarges.entries, (enlarges.toExtends built).2⟩
  case distinct =>
    intro requests
    exact (pool.enlarges_after requests).nodup built

/-- The form of a pool that has the text `a` twice, with a wide constant in between. -/
def doubledText : Bytes :=
  [0, 6, 1, 0, 1, 0x61, 5, 0, 0, 0, 0, 0, 0, 0, 7, 1, 0, 1, 0x61, 8, 0, 4]

theorem deduplicates_of_reached_doubledText :
    ∃ pool, Pool.read doubledText = .ok (pool, []) ∧
      (pool.after [.text "a", .method "a" "b" "c"]).Reached ∧
      (pool.after [.text "a", .method "a" "b" "c"]).Deduplicates := by
  obtain ⟨pool, done⟩ : ∃ pool, Pool.read doubledText = .ok (pool, []) := ⟨_, rfl⟩
  have reached : (pool.after [.text "a", .method "a" "b" "c"]).Reached := ⟨pool, _, .read done, rfl⟩
  exact ⟨pool, done, reached, deduplicates_of_reached reached⟩

end Pool

end Classfile
