import Mathlib.Logic.Function.Basic
import Mathlib.Data.Nat.Find
import Mathlib.Algebra.GroupWithZero.Nat
import Mathlib.Algebra.Order.Group.Nat
import Mathlib.Order.Bounds.Basic
import Mathlib.Tactic.Common

namespace RadixBench.Foundation

instance fourWords : NeZero 4 := ⟨by decide⟩

instance wordBits : NeZero 64 := ⟨by decide⟩

/-- The two high bits of a byte, the word of a 256-bit mask that it falls in. -/
def hi (d : BitVec 8) : Fin 4 := ⟨(d >>> 6).toNat, by
  have h := d.isLt
  rw [BitVec.toNat_ushiftRight, Nat.shiftRight_eq_div_pow]
  omega⟩

/-- The six low bits of a byte, its place in the word. -/
def lo (d : BitVec 8) : Fin 64 := ⟨(d &&& 0x3F#8).toNat, by
  rw [BitVec.toNat_and]
  exact Nat.lt_of_le_of_lt Nat.and_le_right (by decide)⟩

theorem hi_val (d : BitVec 8) : (hi d).val = d.toNat / 64 := by
  change (d >>> 6).toNat = d.toNat / 64
  rw [BitVec.toNat_ushiftRight, Nat.shiftRight_eq_div_pow]

theorem lo_val (d : BitVec 8) : (lo d).val = d.toNat % 64 := by
  change (d &&& 0x3F#8).toNat = d.toNat % 64
  rw [BitVec.toNat_and]
  exact Nat.and_two_pow_sub_one_eq_mod d.toNat 6

theorem byte_ext {d e : BitVec 8} (hh : hi d = hi e) (hl : lo d = lo e) : d = e := by
  have h₁ := congrArg Fin.val hh
  have h₂ := congrArg Fin.val hl
  rw [hi_val, hi_val] at h₁
  rw [lo_val, lo_val] at h₂
  apply BitVec.eq_of_toNat_eq
  omega

def byteOf (i : Fin 4) (c : Fin 64) : BitVec 8 := BitVec.ofNat 8 (64 * i + c)

@[simp] theorem toNat_byteOf (i : Fin 4) (c : Fin 64) : (byteOf i c).toNat = 64 * i + c := by
  rw [byteOf, BitVec.toNat_ofNat]
  omega

@[simp] theorem hi_byteOf (i : Fin 4) (c : Fin 64) : hi (byteOf i c) = i := by
  apply Fin.ext
  rw [hi_val, toNat_byteOf]
  omega

@[simp] theorem lo_byteOf (i : Fin 4) (c : Fin 64) : lo (byteOf i c) = c := by
  apply Fin.ext
  rw [lo_val, toNat_byteOf]
  omega

theorem and_bit_ne_zero {w : ℕ} (x : BitVec w) {i : ℕ} (hi : i < w) :
    x &&& 1#w <<< i ≠ 0#w ↔ x.getLsbD i = true := by
  rw [← BitVec.twoPow_eq, BitVec.and_twoPow]
  split_ifs with h
  · refine iff_of_true (fun h0 ↦ ?_) h
    have hbit := congrArg (fun y ↦ y.getLsbD i) h0
    simp [hi] at hbit
  · exact iff_of_false (fun h0 ↦ h0 rfl) h

theorem getLsbD_or_bit {w : ℕ} (x : BitVec w) {i j : ℕ} (hj : j < w) :
    (x ||| 1#w <<< i).getLsbD j = true ↔ j = i ∨ x.getLsbD j = true := by
  rw [← BitVec.twoPow_eq, BitVec.getLsbD_or, BitVec.getLsbD_twoPow]
  simp only [Bool.or_eq_true, Bool.and_eq_true, decide_eq_true_eq]
  constructor
  · rintro (h | ⟨-, h⟩)
    · exact .inr h
    · exact .inl h.symm
  · rintro (rfl | h)
    · exact .inr ⟨hj, rfl⟩
    · exact .inl h

theorem getLsbD_and_not_bit {w : ℕ} (x : BitVec w) {i j : ℕ} (hi : i < w) (hj : j < w) :
    (x &&& ~~~(1#w <<< i)).getLsbD j = true ↔ j ≠ i ∧ x.getLsbD j = true := by
  rw [← BitVec.twoPow_eq, BitVec.getLsbD_and, BitVec.getLsbD_not, BitVec.getLsbD_twoPow]
  simp only [Bool.and_eq_true, Bool.not_eq_true', decide_eq_true_eq]
  have hsymm : i = j ↔ j = i := eq_comm
  simp only [hi, hj, hsymm, decide_true, Bool.true_and, decide_eq_false_iff_not]
  tauto

theorem not_mask_and_eq_zero {k : ℕ} (hk : k < 64) (key : BitVec 64) :
    ~~~(1#64 <<< k - 1#64) &&& key = 0#64 ↔ key.toNat < 2 ^ k := by
  have hmask : (1#64 <<< k - 1#64).toNat = 2 ^ k - 1 := by
    have hlt : 2 ^ k < 2 ^ 64 := Nat.pow_lt_pow_right (by omega) hk
    have hpos : 0 < 2 ^ k := Nat.two_pow_pos k
    rw [BitVec.toNat_sub, BitVec.toNat_shiftLeft, Nat.shiftLeft_eq]
    simp only [BitVec.toNat_ofNat]
    omega
  have hbit : ∀ i, (~~~(1#64 <<< k - 1#64) &&& key).getLsbD i =
      (decide (k ≤ i) && key.getLsbD i) := by
    intro i
    rw [BitVec.getLsbD_and, BitVec.getLsbD_not, ← BitVec.testBit_toNat (1#64 <<< k - 1#64), hmask,
      Nat.testBit_two_pow_sub_one]
    have hdec : (!decide (i < k)) = decide (k ≤ i) := by
      rw [← decide_not]
      exact decide_eq_decide.mpr Nat.not_lt
    rw [hdec]
    by_cases hi : i < 64
    · simp [hi]
    · rw [BitVec.getLsbD_of_ge key i (by omega)]
      simp
  constructor
  · intro h
    refine Nat.lt_pow_two_of_testBit _ fun i hi ↦ ?_
    have hi' := hbit i
    rw [h, BitVec.getLsbD_zero, decide_eq_true hi, Bool.true_and] at hi'
    rw [BitVec.testBit_toNat, ← hi']
  · intro h
    refine BitVec.eq_of_getLsbD_eq fun i _ ↦ ?_
    rw [hbit, BitVec.getLsbD_zero]
    by_cases hi : k ≤ i
    · have hpow : 2 ^ k ≤ 2 ^ i := Nat.pow_le_pow_right (by omega) hi
      rw [← BitVec.testBit_toNat, Nat.testBit_lt_two_pow (Nat.lt_of_lt_of_le h hpow), Bool.and_false]
    · rw [decide_eq_false hi, Bool.false_and]

theorem and_neg_eq_twoPow {w : ℕ} {x : BitVec w} {k : ℕ} (hk : x.getLsbD k = true)
    (hlow : ∀ j, j < k → x.getLsbD j = false) : x &&& -x = BitVec.twoPow w k := by
  apply BitVec.eq_of_getLsbD_eq
  intro i hi
  rw [BitVec.getLsbD_and, BitVec.getLsbD_neg, BitVec.getLsbD_twoPow]
  rcases Nat.lt_trichotomy i k with hik | rfl | hik
  · simp [hlow i hik, Nat.ne_of_gt hik]
  · have hnone : ¬ ∃ j < i, x.getLsbD j = true := by
      rintro ⟨j, hj, hset⟩
      rw [hlow j hj] at hset
      cases hset
    simp [hk, hi, hnone]
  · have hsome : ∃ j < i, x.getLsbD j = true := ⟨k, hik, hk⟩
    simp [hi, hsome, Nat.ne_of_lt hik]

theorem exists_lowest {w : ℕ} {x : BitVec w} (h : x ≠ 0#w) :
    ∃ k < w, x.getLsbD k = true ∧ ∀ j, j < k → x.getLsbD j = false := by
  have hset : ∃ k, x.getLsbD k = true := by
    by_contra hnone
    push Not at hnone
    apply h
    apply BitVec.eq_of_getLsbD_eq
    intro i _
    simpa using hnone i
  refine ⟨Nat.find hset, ?_, Nat.find_spec hset, fun j hj ↦ ?_⟩
  · exact BitVec.lt_of_getLsbD (Nat.find_spec hset)
  · simpa using Nat.find_min hset hj

abbrev Mask := Fin 4 → BitVec 64

namespace Mask

def has (m : Mask) (d : BitVec 8) : Bool := (m (hi d)).getLsbD (lo d)

def set (m : Mask) (d : BitVec 8) : Mask :=
  Function.update m (hi d) (m (hi d) ||| 1#64 <<< (lo d).val)

def clear (m : Mask) (d : BitVec 8) : Mask :=
  Function.update m (hi d) (m (hi d) &&& ~~~(1#64 <<< (lo d).val))

theorem test_iff (m : Mask) (d : BitVec 8) :
    m (hi d) &&& 1#64 <<< (lo d).val ≠ 0#64 ↔ m.has d = true :=
  and_bit_ne_zero _ (lo d).isLt

@[simp] theorem has_zero (d : BitVec 8) : has (fun _ ↦ 0#64) d = false := by simp [has]

theorem has_set (m : Mask) (d e : BitVec 8) :
    (m.set d).has e = true ↔ e = d ∨ m.has e = true := by
  by_cases hh : hi e = hi d
  · rw [has, set, hh, Function.update_self, getLsbD_or_bit _ (lo e).isLt, has, hh]
    have hl : (lo e).val = (lo d).val ↔ e = d :=
      ⟨fun h ↦ byte_ext hh (Fin.ext h), fun h ↦ by rw [h]⟩
    rw [hl]
  · have hne : e ≠ d := fun h ↦ hh (by rw [h])
    rw [has, set, Function.update_of_ne hh, has]
    exact (or_iff_right hne).symm

theorem has_clear (m : Mask) (d e : BitVec 8) :
    (m.clear d).has e = true ↔ e ≠ d ∧ m.has e = true := by
  by_cases hh : hi e = hi d
  · rw [has, clear, hh, Function.update_self, getLsbD_and_not_bit _ (lo d).isLt (lo e).isLt,
      has, hh]
    have hl : (lo e).val = (lo d).val ↔ e = d :=
      ⟨fun h ↦ byte_ext hh (Fin.ext h), fun h ↦ by rw [h]⟩
    rw [Ne, hl]
  · have hne : e ≠ d := fun h ↦ hh (by rw [h])
    rw [has, clear, Function.update_of_ne hh, has]
    exact (and_iff_right hne).symm

theorem word_eq_zero (m : Mask) (i : Fin 4) :
    m i = 0#64 ↔ ∀ d, hi d = i → m.has d = false := by
  constructor
  · intro h d hd
    rw [has, hd, h, BitVec.getLsbD_zero]
  · intro h
    apply BitVec.eq_of_getLsbD_eq
    intro c hc
    have hbit := h (byteOf i ⟨c, hc⟩) (hi_byteOf _ _)
    rw [has, hi_byteOf, lo_byteOf] at hbit
    simpa using hbit

theorem word_set (m : Mask) (d : BitVec 8) (i : Fin 4) :
    (m.set d) i = 0#64 ↔ i ≠ hi d ∧ m i = 0#64 := by
  simp only [word_eq_zero, ← Bool.not_eq_true, has_set, not_or]
  constructor
  · intro h
    exact ⟨fun hi ↦ (h d hi.symm).1 rfl, fun e he ↦ (h e he).2⟩
  · rintro ⟨hne, h⟩ e he
    exact ⟨fun hed ↦ hne (by rw [← he, hed]), h e he⟩

end Mask

structure FirstIn (vals : Mask) (startBit endBit : ℕ) (d : BitVec 8) : Prop where
  ge : startBit ≤ d.toNat
  le : d.toNat ≤ endBit
  has : vals.has d = true
  least : ∀ e, startBit ≤ e.toNat → vals.has e = true → d.toNat ≤ e.toNat

theorem FirstIn.unique {vals : Mask} {startBit endBit : ℕ} {d e : BitVec 8}
    (hd : FirstIn vals startBit endBit d) (he : FirstIn vals startBit endBit e) : d = e := by
  have h₁ := hd.least e he.ge he.has
  have h₂ := he.least d hd.ge hd.has
  exact BitVec.eq_of_toNat_eq (by omega)

theorem FirstIn.skip {vals : Mask} {endBit : ℕ} {c d : BitVec 8} (hc : vals.has c = false) :
    FirstIn vals c.toNat endBit d ↔ FirstIn vals (c.toNat + 1) endBit d := by
  have hne : ∀ e, vals.has e = true → e.toNat ≠ c.toNat := by
    intro e he heq
    rw [BitVec.eq_of_toNat_eq heq, hc] at he
    cases he
  constructor
  · intro h
    have hd := hne d h.has
    have hge := h.ge
    exact ⟨by omega, h.le, h.has, fun e he ↦ h.least e (by omega)⟩
  · intro h
    have hge := h.ge
    refine ⟨by omega, h.le, h.has, fun e he hset ↦ h.least e ?_ hset⟩
    have hec := hne e hset
    omega

/-- The positions from `startBit` to `endBit` that are set, a position `i` being bit `i % 64` of
the word `i / 64`. -/
def bitsInRange (vals : Mask) (startBit endBit : ℕ) : Set ℕ :=
  {i | startBit ≤ i ∧ i ≤ endBit ∧ ∃ h : i / 64 < 4, (vals ⟨i / 64, h⟩).getLsbD (i % 64) = true}

theorem mem_bitsInRange {vals : Mask} {startBit endBit i : ℕ} :
    i ∈ bitsInRange vals startBit endBit ↔
      ∃ d : BitVec 8, d.toNat = i ∧ startBit ≤ i ∧ i ≤ endBit ∧ vals.has d = true := by
  constructor
  · rintro ⟨hs, he, hlt, hbit⟩
    set d := byteOf ⟨i / 64, hlt⟩ ⟨i % 64, Nat.mod_lt i (by decide)⟩ with hd
    have hval : d.toNat = i := by
      rw [hd, toNat_byteOf]
      exact Nat.div_add_mod i 64
    refine ⟨d, hval, hs, he, ?_⟩
    rw [Mask.has, hd, hi_byteOf, lo_byteOf]
    exact hbit
  · rintro ⟨d, rfl, hs, he, hbit⟩
    have hlt : d.toNat / 64 < 4 := hi_val d ▸ (hi d).isLt
    have hhi : hi d = ⟨d.toNat / 64, hlt⟩ := Fin.ext (hi_val d)
    rw [Mask.has, hhi, lo_val] at hbit
    exact ⟨hs, he, hlt, hbit⟩

theorem FirstIn.isLeast {vals : Mask} {startBit endBit : ℕ} {d : BitVec 8}
    (h : FirstIn vals startBit endBit d) : IsLeast (bitsInRange vals startBit endBit) d.toNat := by
  refine ⟨mem_bitsInRange.mpr ⟨d, rfl, h.ge, h.le, h.has⟩, fun i hi ↦ ?_⟩
  obtain ⟨e, rfl, hs, -, hbit⟩ := mem_bitsInRange.mp hi
  exact h.least e hs hbit

end RadixBench.Foundation
