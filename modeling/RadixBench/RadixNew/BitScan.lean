import RadixBench.RadixNew.Model
import RadixBench.Foundation.Execution

namespace RadixBench.RadixNew

open Foundation

/-- The negation of the signed value is that of two's complement. -/
def getFirstSetBit (val : BitVec 64) : BitVec 64 :=
  let val := val &&& -val
  let bit := if val ≠ 0#64 then 64#64 - 1#64 else 64#64
  let bit := if val &&& 0x00000000FFFFFFFF#64 ≠ 0#64 then bit - 32#64 else bit
  let bit := if val &&& 0x0000FFFF0000FFFF#64 ≠ 0#64 then bit - 16#64 else bit
  let bit := if val &&& 0x00FF00FF00FF00FF#64 ≠ 0#64 then bit - 8#64 else bit
  let bit := if val &&& 0x0F0F0F0F0F0F0F0F#64 ≠ 0#64 then bit - 4#64 else bit
  let bit := if val &&& 0x3333333333333333#64 ≠ 0#64 then bit - 2#64 else bit
  if val &&& 0x5555555555555555#64 ≠ 0#64 then bit - 1#64 else bit

def readWord (vals : Mask) (idx : ℕ) : Exec (BitVec 64) :=
  if h : idx < 4 then .ok (vals ⟨idx, h⟩) else .error .indexOutOfRange

def rangeMask (startBit endBit idx : ℕ) : BitVec 64 :=
  let mask := BitVec.allOnes 64
  let mask :=
    if idx = startBit >>> 6 then mask &&& (BitVec.allOnes 64 <<< (startBit &&& 0x3F)) else mask
  if idx = endBit >>> 6 then mask &&& (BitVec.allOnes 64 >>> (63 - (endBit &&& 0x3F))) else mask

def scanFrom (vals : Mask) (startBit endBit : ℕ) : ℕ → ℕ → Exec ℕ
  | 0, _ => .ok (endBit + 1)
  | n + 1, idx => do
    let word ← readWord vals idx
    let retval := getFirstSetBit (word &&& rangeMask startBit endBit idx)
    if retval < 64#64 then .ok (retval.toNat ||| idx <<< 6)
    else scanFrom vals startBit endBit n (idx + 1)

def getFirstSetBitInRange (vals : Mask) (startBit endBit : ℕ) : Exec ℕ :=
  scanFrom vals startBit endBit ((endBit >>> 6) + 1 - (startBit >>> 6)) (startBit >>> 6)

theorem getFirstSetBit_zero : getFirstSetBit 0#64 = 64#64 := by decide

theorem getFirstSetBit_twoPow : ∀ k : Fin 64,
    getFirstSetBit (BitVec.twoPow 64 k) = BitVec.ofNat 64 k := by
  decide

theorem getFirstSetBit_eq {val : BitVec 64} {k : ℕ} (hk : val.getLsbD k = true)
    (hlow : ∀ j, j < k → val.getLsbD j = false) : getFirstSetBit val = BitVec.ofNat 64 k := by
  have hlt : k < 64 := BitVec.lt_of_getLsbD hk
  have htwo : ∀ j, j < k → (BitVec.twoPow 64 k).getLsbD j = false := by
    intro j hj
    simp [BitVec.getLsbD_twoPow, Nat.ne_of_gt hj]
  have hself : (BitVec.twoPow 64 k).getLsbD k = true := by simp [hlt]
  -- both words have the same lowest set bit
  have hsame : getFirstSetBit val = getFirstSetBit (BitVec.twoPow 64 k) := by
    rw [getFirstSetBit, getFirstSetBit, and_neg_eq_twoPow hk hlow, and_neg_eq_twoPow hself htwo]
  rw [hsame]
  exact getFirstSetBit_twoPow ⟨k, hlt⟩

theorem toNat_getFirstSetBit {val : BitVec 64} {k : ℕ} (hk : val.getLsbD k = true)
    (hlow : ∀ j, j < k → val.getLsbD j = false) : (getFirstSetBit val).toNat = k := by
  have hlt : k < 64 := BitVec.lt_of_getLsbD hk
  rw [getFirstSetBit_eq hk hlow, BitVec.toNat_ofNat]
  exact Nat.mod_eq_of_lt (hlt.trans (by decide))

theorem getLsbD_rangeMask {startBit endBit idx j : ℕ} (hj : j < 64) :
    (rangeMask startBit endBit idx).getLsbD j = true ↔
      (idx = startBit / 64 → startBit % 64 ≤ j) ∧ (idx = endBit / 64 → j ≤ endBit % 64) := by
  have hstart : startBit >>> 6 = startBit / 64 := Nat.shiftRight_eq_div_pow ..
  have hend : endBit >>> 6 = endBit / 64 := Nat.shiftRight_eq_div_pow ..
  have hs : startBit &&& 0x3F = startBit % 64 := Nat.and_two_pow_sub_one_eq_mod _ 6
  have he : endBit &&& 0x3F = endBit % 64 := Nat.and_two_pow_sub_one_eq_mod _ 6
  have hones : (BitVec.allOnes 64).getLsbD j = true := by
    rw [BitVec.getLsbD_allOnes, decide_eq_true hj]
  have hleft : ∀ s, (BitVec.allOnes 64 <<< s).getLsbD j = true ↔ s ≤ j := by
    intro s
    simp only [BitVec.getLsbD_shiftLeft, BitVec.getLsbD_allOnes, Bool.and_eq_true,
      Bool.not_eq_true', decide_eq_true_eq, decide_eq_false_iff_not]
    omega
  have hright : ∀ s, (BitVec.allOnes 64 >>> s).getLsbD j = true ↔ s + j < 64 := by
    intro s
    simp only [BitVec.getLsbD_ushiftRight, BitVec.getLsbD_allOnes, decide_eq_true_eq]
  rw [rangeMask, hstart, hend, hs, he]
  split_ifs <;> simp only [BitVec.getLsbD_and, Bool.and_eq_true, hones, hleft, hright] <;> grind

theorem readWord_of_lt (vals : Mask) {idx : ℕ} (h : idx < 4) :
    readWord vals idx = .ok (vals ⟨idx, h⟩) := dif_pos h

theorem getLsbD_masked (vals : Mask) {startBit endBit idx : ℕ} (hlt : idx < 4)
    (hstart : startBit / 64 ≤ idx) (hlast : idx ≤ endBit / 64) {d : BitVec 8}
    (hd : d.toNat / 64 = idx) :
    (vals ⟨idx, hlt⟩ &&& rangeMask startBit endBit idx).getLsbD (lo d) = true ↔
      (startBit ≤ d.toNat ∧ d.toNat ≤ endBit) ∧ vals.has d = true := by
  have hhi : hi d = ⟨idx, hlt⟩ := Fin.ext (by rw [hi_val, hd])
  have hrange : (idx = startBit / 64 → startBit % 64 ≤ d.toNat % 64) ∧
      (idx = endBit / 64 → d.toNat % 64 ≤ endBit % 64) ↔
      startBit ≤ d.toNat ∧ d.toNat ≤ endBit := by omega
  rw [BitVec.getLsbD_and, Bool.and_eq_true, getLsbD_rangeMask (lo d).isLt, lo_val, hrange,
    Mask.has, hhi, lo_val]
  exact and_comm

theorem or_shiftLeft_eq {k idx : ℕ} (hk : k < 64) : k ||| idx <<< 6 = 64 * idx + k := by
  rw [Nat.or_comm, ← Nat.shiftLeft_add_eq_or_of_lt (show k < 2 ^ 6 from hk), Nat.shiftLeft_eq,
    Nat.mul_comm]

/-- The scan from word `idx` on, when the words before hold nothing. -/
theorem scanFrom_cases (vals : Mask) {startBit endBit : ℕ} (hend : endBit ≤ 255) (n : ℕ)
    {idx : ℕ} (hn : idx + n = endBit / 64 + 1 ∨ n = 0 ∧ endBit / 64 < idx)
    (hidx : startBit / 64 ≤ idx)
    (hbefore : ∀ d : BitVec 8, startBit ≤ d.toNat → d.toNat ≤ endBit → d.toNat / 64 < idx →
      vals.has d = false) :
    (∃ d, FirstIn vals startBit endBit d ∧
      scanFrom vals startBit endBit n idx = .ok d.toNat) ∨
    (scanFrom vals startBit endBit n idx = .ok (endBit + 1) ∧
      ∀ d : BitVec 8, startBit ≤ d.toNat → d.toNat ≤ endBit → vals.has d = false) := by
  induction n generalizing idx with
  | zero =>
    refine .inr ⟨rfl, fun d hs he ↦ hbefore d hs he ?_⟩
    have hdiv := Nat.div_le_div_right (c := 64) he
    omega
  | succ n ih =>
    have hlt : idx < 4 := by omega
    have hlast : idx ≤ endBit / 64 := by omega
    have hbit := fun (d : BitVec 8) (hd : d.toNat / 64 = idx) ↦
      getLsbD_masked vals hlt hidx hlast hd
    rw [scanFrom, readWord_of_lt vals hlt, ok_bind]
    by_cases hzero : vals ⟨idx, hlt⟩ &&& rangeMask startBit endBit idx = 0#64
    · rw [hzero, getFirstSetBit_zero, if_neg (by decide)]
      refine ih (by omega) (by omega) fun d hs he hd ↦ ?_
      by_cases hdi : d.toNat / 64 < idx
      · exact hbefore d hs he hdi
      · have hb := hbit d (by omega)
        rw [hzero, BitVec.getLsbD_zero] at hb
        exact Bool.eq_false_of_not_eq_true fun hhas ↦
          Bool.false_ne_true (hb.mpr ⟨⟨hs, he⟩, hhas⟩)
    · obtain ⟨k, hk, hset, hlow⟩ := exists_lowest hzero
      have hval := toNat_getFirstSetBit hset hlow
      rw [if_pos (by rw [BitVec.lt_def, hval]; exact hk), hval]
      set d := byteOf ⟨idx, hlt⟩ ⟨k, hk⟩ with hd
      have hdval : d.toNat = 64 * idx + k := toNat_byteOf _ _
      have hlo : (lo d).val = k := congrArg Fin.val (lo_byteOf _ _)
      obtain ⟨⟨hs, he⟩, hhas⟩ := (hbit d (by omega)).mp (hlo ▸ hset)
      refine .inl ⟨d, ⟨hs, he, hhas, fun e hse hehas ↦ ?_⟩, by rw [or_shiftLeft_eq hk, hdval]⟩
      by_contra hlt'
      have hee : e.toNat ≤ endBit := by omega
      by_cases hei : e.toNat / 64 < idx
      · rw [hbefore e hse hee hei] at hehas
        cases hehas
      · have hb := (hbit e (by omega)).mpr ⟨⟨hse, hee⟩, hehas⟩
        rw [hlow _ (by rw [lo_val]; omega)] at hb
        cases hb

theorem getFirstSetBitInRange_cases (vals : Mask) (startBit : ℕ) {endBit : ℕ}
    (hend : endBit ≤ 255) :
    (∃ d, FirstIn vals startBit endBit d ∧
      getFirstSetBitInRange vals startBit endBit = .ok d.toNat) ∨
    (getFirstSetBitInRange vals startBit endBit = .ok (endBit + 1) ∧
      ∀ d : BitVec 8, startBit ≤ d.toNat → d.toNat ≤ endBit → vals.has d = false) := by
  have hstart : startBit >>> 6 = startBit / 64 := Nat.shiftRight_eq_div_pow ..
  have hlast : endBit >>> 6 = endBit / 64 := Nat.shiftRight_eq_div_pow ..
  rw [getFirstSetBitInRange, hstart, hlast]
  refine scanFrom_cases vals hend _ (by omega) le_rfl fun d hs _ hd ↦ ?_
  have hdiv := Nat.div_le_div_right (c := 64) hs
  omega

/-- The scan stays inside the mask. It returns the least bit of the range, and `endBit + 1` if the
range holds none. -/
theorem getFirstSetBitInRange_least (vals : Mask) (startBit : ℕ) {endBit : ℕ}
    (hend : endBit ≤ 255) :
    ∃ i, getFirstSetBitInRange vals startBit endBit = .ok i ∧
      (IsLeast (bitsInRange vals startBit endBit) i ∨
        bitsInRange vals startBit endBit = ∅ ∧ i = endBit + 1) := by
  obtain ⟨d, hd, hrun⟩ | ⟨hrun, hnone⟩ := getFirstSetBitInRange_cases vals startBit hend
  · exact ⟨d.toNat, hrun, .inl hd.isLeast⟩
  · refine ⟨endBit + 1, hrun, .inr ⟨Set.eq_empty_of_forall_notMem fun i hi ↦ ?_, rfl⟩⟩
    obtain ⟨d, rfl, hs, he, hbit⟩ := mem_bitsInRange.mp hi
    rw [hnone d hs he] at hbit
    cases hbit

def lastBit : Mask := fun idx ↦ if idx = 3 then 1#64 <<< 63 else 0#64

/-- The scan starts in the middle of the second word and finds the last bit of all. -/
theorem getFirstSetBitInRange_least_last : IsLeast (bitsInRange lastBit 65 255) 255 := by
  obtain ⟨i, hrun, hcases⟩ := getFirstSetBitInRange_least lastBit 65 (le_refl 255)
  have hval : getFirstSetBitInRange lastBit 65 255 = .ok 255 := by decide +kernel
  rw [hval] at hrun
  obtain rfl := Except.ok.inj hrun
  exact hcases.resolve_right fun hnone ↦ absurd hnone.2 (by decide)

end RadixBench.RadixNew
