import Classfile.Proofs.PoolHistory

/-!
The form of a pool.

The count in front of a pool is one of indices, and a wide constant takes two of them. A pool is
read from what it is written as, and what is read is written as the bytes that were read, except
for the count zero; a count that ends inside a wide constant is refused.
-/

namespace Classfile

namespace Pool

open Reader

/-- Constants can be pushed while there are indices left and no text is too long. -/
theorem exists_pushed {constants : List Constant} {start : Pool} (built : start.Built)
    (short : ∀ text, .utf8 text ∈ constants → text.length ≤ 65535)
    (room : start.table.extent + Bytes.totalSize Constant.width constants ≤ 65535) :
    ∃ result, constants.foldlM push start = .ok result := by
  induction constants generalizing start with
  | nil => exact ⟨start, rfl⟩
  | cons constant constants inductionHypothesis =>
    change _ + (constant.width + Bytes.totalSize Constant.width constants) ≤ _ at room
    have allowed : start.refusal? constant = none :=
      (built.refusal?_eq_none_iff constant).mpr
        ⟨by omega, fun text same => short text (same ▸ List.mem_cons_self)⟩
    have pushed : start.push constant = .ok (start.append constant) :=
      push_eq_ok_iff.mpr ⟨allowed, rfl⟩
    obtain ⟨result, others⟩ := inductionHypothesis (built.push pushed)
      (fun text present => short text (List.mem_cons_of_mem _ present))
      (by rw [extent_append]; omega)
    exact ⟨result, by rw [List.foldlM_cons, exceptBind_eq_ok_iff]; exact ⟨_, pushed, others⟩⟩

/-- A wide constant of which only the first index is counted is read and then refused, either since
it does not fit into the pool or since the count does not agree. -/
theorem read_of_cut {count : UInt16} {before : List Constant} {wide : Constant}
    (twice : wide.width = 2) (short : ∀ text, .utf8 text ∈ before → text.length ≤ 65535)
    (cut : count.toNat = 1 + Bytes.totalSize Constant.width before + 1) (rest : Bytes) :
    Pool.read (Bytes.ofU16 count ++ (before.flatMap Constant.toBytes ++ (wide.toBytes ++ rest))) =
      .error (if count = 65535 then .poolFull 65534 else .constantOutOfRange count) := by
  have small := count.toNat_lt
  have start : Pool.empty.table.extent = 1 := rfl
  obtain ⟨pool, pushed⟩ := exists_pushed .empty short (by omega)
  have built := Built.empty.of_pushed pushed
  have extent := extent_of_pushed pushed
  have notText (text : Bytes) (same : wide = .utf8 text) : False := by
    subst same
    cases twice
  have constant := Constant.accepts_read pool.nextIndex (fun text same => (notText text same).elim) rest
  obtain ⟨steps, enough⟩ := Nat.exists_eq_add_of_le (show before.length + 1 ≤ count.toNat by
    have := length_le_totalWidth before
    omega)
  have front : readOnto count.toNat count.toNat Pool.empty
      (before.flatMap Constant.toBytes ++ (wide.toBytes ++ rest)) =
        readOnto count.toNat (steps + 1) pool (wide.toBytes ++ rest) := by
    conv_lhs => arg 2; rw [enough, Nat.add_assoc, Nat.add_comm 1]
    exact readOnto_of_pushed pushed (by omega) _ _
  have extentAfter : (pool.append wide).table.extent = count.toNat + 1 := by
    rw [extent_append, twice]
    omega
  rw [Pool.read, bind_of_eq_ok (accepts_u16 count _)]
  by_cases most : count = 65535
  · have size : count.toNat = 65535 := congrArg UInt16.toNat most
    have index : pool.nextIndex = 65534 := by
      have last : (65534 : UInt16).toNat = 65534 := rfl
      rw [← UInt16.toNat_inj, built.toNat_nextIndex, last]
      omega
    have refused : pool.push wide = .error (.poolFull 65534) := by
      rw [push, built.refusal?_eq, if_pos (by omega), index]
    have failed : readOnto count.toNat count.toNat Pool.empty
        (before.flatMap Constant.toBytes ++ (wide.toBytes ++ rest)) = .error (.poolFull 65534) := by
      rw [front, readOnto, if_pos (by omega), constant]
      simp only [refused]
    rw [bind_of_eq_error failed, if_pos most]
  · have allowed : pool.push wide = .ok (pool.append wide) := by
      refine push_eq_ok_iff.mpr ⟨(built.refusal?_eq_none_iff wide).mpr ⟨?_, ?_⟩, rfl⟩
      · have other : count.toNat ≠ 65535 := fun same => most (UInt16.toNat_inj.mp same)
        omega
      · exact fun text same => (notText text same).elim
    have accepted : readOnto count.toNat count.toNat Pool.empty
        (before.flatMap Constant.toBytes ++ (wide.toBytes ++ rest)) = .ok (pool.append wide, rest) := by
      rw [front, readOnto, if_pos (by omega), constant]
      simp only [allowed]
      exact readOnto_of_full (by omega) steps rest
    rw [bind_of_eq_ok accepted, if_neg (by omega), if_neg most]
    rfl

/-- Reading a pool and writing it are inverse to each other. -/
theorem read_inverts_toBytes :
    (∀ pool : Pool, pool.Reached → ∀ rest, Pool.read (pool.toBytes ++ rest) = .ok (pool, rest)) ∧
    (∀ (input contents rest : Bytes) (count : UInt16) (pool : Pool),
      u16 input = .ok (count, contents) → 1 ≤ count.toNat → Pool.read input = .ok (pool, rest) →
        input = pool.toBytes ++ rest) ∧
    (∀ (count : UInt16) (before : List Constant) (wide : Constant) (rest : Bytes),
      wide.width = 2 → (∀ text, .utf8 text ∈ before → text.length ≤ 65535) →
        count.toNat = 1 + Bytes.totalSize Constant.width before + 1 →
          Pool.read
              (Bytes.ofU16 count ++ (before.flatMap Constant.toBytes ++ (wide.toBytes ++ rest))) =
            .error (if count = 65535 then .poolFull 65534 else .constantOutOfRange count)) := by
  refine ⟨fun pool reached => reached.built.accepts_read, ?_,
    fun count before wide rest twice short cut => read_of_cut twice short cut rest⟩
  intro input contents rest count pool first positive done
  obtain whole | zero := bytes_of_read done
  · exact whole
  · -- The reader of counts finds a zero in front of such an input.
    have other := accepts_u16 0 (input.drop 2)
    have zeros : Bytes.ofU16 0 = [0, 0] := rfl
    rw [zeros, ← zero, List.take_append_drop, first] at other
    cases other
    exact absurd positive (by decide)

theorem read_inverts_toBytes_doubledText :
    (∃ pool, Pool.read doubledText = .ok (pool, []) ∧ doubledText = pool.toBytes ++ [] ∧
      Pool.read (pool.toBytes ++ [0xCA]) = .ok (pool, [0xCA])) ∧
    Pool.read [0, 3, 1, 0, 1, 0x61, 5, 0, 0, 0, 0, 0, 0, 0, 7] = .error (.constantOutOfRange 3) := by
  obtain ⟨restored, rewritten, refused⟩ := read_inverts_toBytes
  obtain ⟨pool, done⟩ : ∃ pool, Pool.read doubledText = .ok (pool, []) := ⟨_, rfl⟩
  refine ⟨⟨pool, done, ?_, ?_⟩, ?_⟩
  · exact rewritten doubledText _ [] 6 pool rfl (by decide) done
  · exact restored pool ⟨pool, [], .read done, rfl⟩ [0xCA]
  · exact refused 3 [.utf8 [0x61]] (.long 7) [] rfl (by simp) rfl

end Pool

end Classfile
