import RadixBench.RadixNew.BitScan

namespace RadixBench.Comparison

open Foundation RadixNew

/-- A copy of the function in `radix_new`. -/
def getFirstSetBitManual (val : BitVec 64) : BitVec 64 := getFirstSetBit val

/-- `__builtin_ctzll` counts the zeros below the lowest set bit. -/
def getFirstSetBitBuiltin (val : BitVec 64) : BitVec 64 :=
  if val ≠ 0#64 then val.ctz else 64#64

def shiftFrom : ℕ → BitVec 64 → BitVec 64 → Exec (BitVec 64)
  | fuel, val, bit =>
    if val &&& 1#64 = 0#64 then
      match fuel with
      | 0 => .error .outOfFuel
      | fuel + 1 => shiftFrom fuel (val >>> 1) (bit + 1#64)
    else .ok bit

def getFirstSetBitReference (fuel : ℕ) (val : BitVec 64) : Exec (BitVec 64) :=
  if val = 0#64 then .ok 64#64 else shiftFrom fuel val 0#64

theorem ushiftRight_and_one (val : BitVec 64) (k : ℕ) :
    val >>> k &&& 1#64 ≠ 0#64 ↔ val.getLsbD k = true := by
  have hbit : (val >>> k).getLsbD 0 = val.getLsbD k := by
    rw [BitVec.getLsbD_ushiftRight, Nat.add_zero]
  rw [← hbit]
  exact and_bit_ne_zero (val >>> k) (i := 0) (by decide)

theorem shiftFrom_eq {val bit : BitVec 64} {k fuel : ℕ} (hk : val.getLsbD k = true)
    (hlow : ∀ j, j < k → val.getLsbD j = false) (hfuel : k ≤ fuel) :
    shiftFrom fuel val bit = .ok (bit + BitVec.ofNat 64 k) := by
  induction k generalizing val bit fuel with
  | zero =>
    have hone : val &&& 1#64 ≠ 0#64 := (ushiftRight_and_one val 0).mpr hk
    rw [shiftFrom.eq_def]
    dsimp only
    rw [if_neg hone, BitVec.add_zero]
  | succ k ih =>
    have hzero : val &&& 1#64 = 0#64 := by
      by_contra hone
      have hbit := (ushiftRight_and_one val 0).mp hone
      rw [hlow 0 (Nat.succ_pos k)] at hbit
      cases hbit
    have hshift : ∀ j, (val >>> 1).getLsbD j = val.getLsbD (j + 1) := fun j ↦ by
      rw [BitVec.getLsbD_ushiftRight, Nat.add_comm]
    obtain ⟨fuel, rfl⟩ := Nat.exists_eq_add_of_le' (Nat.one_le_of_lt hfuel)
    have hrun : shiftFrom fuel (val >>> 1) (bit + 1#64) =
        .ok (bit + 1#64 + BitVec.ofNat 64 k) :=
      ih ((hshift k).trans hk) (fun j hj ↦ (hshift j).trans (hlow (j + 1) (by omega))) (by omega)
    rw [shiftFrom, if_pos hzero, hrun, BitVec.add_assoc, Nat.add_comm k, BitVec.ofNat_add]

theorem reference_returns (val : BitVec 64) {fuel : ℕ} (hfuel : 63 ≤ fuel) :
    getFirstSetBitReference fuel val = .ok (getFirstSetBit val) := by
  by_cases hval : val = 0#64
  · rw [hval, getFirstSetBitReference, if_pos rfl, getFirstSetBit_zero]
  · obtain ⟨k, hk, hset, hlow⟩ := exists_lowest hval
    rw [getFirstSetBitReference, if_neg hval, getFirstSetBit_eq hset hlow,
      shiftFrom_eq hset hlow (by omega), BitVec.zero_add]

theorem getFirstSetBit_isLeast {val : BitVec 64} (hval : val ≠ 0#64) :
    IsLeast {k | val >>> k &&& 1#64 ≠ 0#64} (getFirstSetBit val).toNat := by
  obtain ⟨k, -, hset, hlow⟩ := exists_lowest hval
  rw [toNat_getFirstSetBit hset hlow]
  refine ⟨(ushiftRight_and_one val k).mpr hset, fun j hj ↦ ?_⟩
  by_contra hjk
  have hbit := (ushiftRight_and_one val j).mp hj
  rw [hlow j (Nat.lt_of_not_le hjk)] at hbit
  cases hbit

/-- The loop returns after at most 63 shifts with what the masks compute, which is 64 for zero and
else the least number of shifts that brings a set bit to the bottom. -/
theorem getFirstSetBitReference_eq (val : BitVec 64) {fuel : ℕ} (hfuel : 63 ≤ fuel) :
    getFirstSetBitReference fuel val = .ok (getFirstSetBit val) ∧
      (val = 0#64 → getFirstSetBit val = 64#64) ∧
      (val ≠ 0#64 → IsLeast {k | val >>> k &&& 1#64 ≠ 0#64} (getFirstSetBit val).toNat) := by
  refine ⟨reference_returns val hfuel, ?_, getFirstSetBit_isLeast⟩
  rintro rfl
  exact getFirstSetBit_zero

theorem getFirstSetBitReference_eq_highest :
    getFirstSetBitReference 63 (1#64 <<< 63) = .ok 63#64 := by
  have hval : getFirstSetBit (1#64 <<< 63) = 63#64 := by decide
  exact hval ▸ (getFirstSetBitReference_eq (1#64 <<< 63) le_rfl).1

theorem getFirstSetBitBuiltin_eq (val : BitVec 64) :
    getFirstSetBitBuiltin val = getFirstSetBit val := by
  by_cases hval : val = 0#64
  · rw [hval, getFirstSetBit_zero]
    rfl
  · have hbit := getFirstSetBit_eq (BitVec.getLsbD_true_ctz_of_ne_zero hval)
      fun j hj ↦ BitVec.getLsbD_false_of_lt_ctz hj
    rw [getFirstSetBitBuiltin, if_pos hval, hbit, BitVec.ofNat_toNat, BitVec.setWidth_eq]

def testCases : List (BitVec 64) :=
  [0x0000000000000001#64, 0x0000000000000002#64, 0x0000000000000004#64, 0x0000000000000008#64,
    0x8000000000000000#64, 0x0000000000000000#64, 0x0000000000000003#64, 0x0000000000000006#64,
    0x000000000000000C#64]

def testCaseErrors (fuel : ℕ) (val : BitVec 64) : Exec ℤ := do
  let expected ← getFirstSetBitReference fuel val
  let result1 := getFirstSetBitManual val
  let result2 := getFirstSetBitBuiltin val
  .ok ((if result1 ≠ expected then 1 else 0) + if result2 ≠ expected then 1 else 0)

def randomErrors (fuel : ℕ) (val : BitVec 64) : Exec ℤ := do
  let expected ← getFirstSetBitReference fuel val
  let result1 := getFirstSetBitManual val
  let result2 := getFirstSetBitBuiltin val
  .ok (if result1 ≠ expected ∨ result2 ≠ expected then 1 else 0)

def addErrors (f : BitVec 64 → Exec ℤ) (vals : List (BitVec 64)) (errors : ℤ) : Exec ℤ :=
  vals.foldlM (fun errors val ↦ do .ok (errors + (← f val))) errors

/-- `verify_correctness`, where the values of `generateRandomValue` are `random`. -/
def verifyCorrectness (fuel : ℕ) (random : List (BitVec 64)) : Exec ℤ := do
  let errors ← addErrors (testCaseErrors fuel) testCases 0
  let errors ← addErrors (randomErrors fuel) random errors
  .ok (if errors = 0 then 1 else 0)

theorem addErrors_zero {f : BitVec 64 → Exec ℤ} (h : ∀ val, f val = .ok 0)
    (vals : List (BitVec 64)) (errors : ℤ) : addErrors f vals errors = .ok errors := by
  induction vals with
  | nil => rfl
  | cons val vals ih =>
    rw [addErrors, List.foldlM_cons, h, ok_bind, add_zero]
    exact ih

/-- The test passes, whatever the random values are. -/
theorem verifyCorrectness_passes {fuel : ℕ} (hfuel : 63 ≤ fuel) (random : List (BitVec 64)) :
    verifyCorrectness fuel random = .ok 1 := by
  have hreference := fun val ↦ reference_returns val hfuel
  have htest : ∀ val, testCaseErrors fuel val = .ok 0 := fun val ↦ by
    rw [testCaseErrors, hreference, ok_bind, getFirstSetBitManual, getFirstSetBitBuiltin_eq]
    simp
  have hrandom : ∀ val, randomErrors fuel val = .ok 0 := fun val ↦ by
    rw [randomErrors, hreference, ok_bind, getFirstSetBitManual, getFirstSetBitBuiltin_eq]
    simp
  rw [verifyCorrectness, addErrors_zero htest, ok_bind, addErrors_zero hrandom, ok_bind, if_pos rfl]

end RadixBench.Comparison
