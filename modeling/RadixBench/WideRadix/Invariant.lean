import RadixBench.WideRadix.Model
import RadixBench.Foundation.Walk

namespace RadixBench.WideRadix

open Foundation Memory

theorem extractByte_eq (key : BitVec 64) (rem : ℕ) (h : rem ≤ 7) :
    extractByte key (7 - rem) = digit key rem := by
  rw [extractByte, digit, Nat.sub_sub_self h, Nat.shiftLeft_eq]

theorem index_eq (d : BitVec 8) : Fin.ofNat 4 (d.toNat / 64) = hi d := by
  have hd := d.isLt
  apply Fin.ext
  rw [hi_val, Fin.val_ofNat]
  omega

theorem maskGetBit_eq (mask : Mask) (d : BitVec 8) : maskGetBit mask d = mask.has d := by
  rw [maskGetBit, index_eq, ← lo_val, Bool.eq_iff_iff, decide_eq_true_iff]
  exact Mask.test_iff mask d

theorem maskSetBit_eq (mask : Mask) (d : BitVec 8) : maskSetBit mask d = mask.set d := by
  rw [maskSetBit, index_eq, ← lo_val]
  rfl

theorem maskClearBit_eq (mask : Mask) (d : BitVec 8) : maskClearBit mask d = mask.clear d := by
  rw [maskClearBit, index_eq, ← lo_val]
  rfl

theorem nextByte_cases (mask : Mask) (n byte : ℕ) (hn : byte + n = 256) :
    (∃ d, nextByte mask n byte = some d ∧ FirstIn mask byte 255 d) ∨
    (nextByte mask n byte = none ∧ ∀ d : BitVec 8, byte ≤ d.toNat → mask.has d = false) := by
  induction n generalizing byte with
  | zero =>
    refine .inr ⟨rfl, fun d hd ↦ ?_⟩
    have hlt := d.isLt
    omega
  | succ n ih =>
    have hval : (BitVec.ofNat 8 byte).toNat = byte := by
      rw [BitVec.toNat_ofNat]
      omega
    rw [nextByte, maskGetBit_eq]
    by_cases hbit : mask.has (BitVec.ofNat 8 byte) = true
    · rw [if_pos hbit]
      refine .inl ⟨_, rfl, by omega, by omega, hbit, fun e he _ ↦ by omega⟩
    · rw [if_neg hbit]
      have hclear := Bool.eq_false_of_not_eq_true hbit
      obtain ⟨d, hd, hfirst⟩ | ⟨hnone, hall⟩ := ih (byte + 1) (by omega)
      · refine .inl ⟨d, hd, ?_⟩
        rw [← hval] at hfirst ⊢
        exact (FirstIn.skip hclear).mpr hfirst
      · refine .inr ⟨hnone, fun e he ↦ ?_⟩
        by_cases heq : e.toNat = byte
        · rwa [← BitVec.eq_of_toNat_eq (hval.trans heq.symm)]
        · exact hall e (by omega)

def next (m : Memory WideRadixNode) (x : ℕ) (d : BitVec 8) : Option ℕ := (m.cell x).children d

def At (m : Memory WideRadixNode) (root : ℕ) (p : List (BitVec 8)) (x : ℕ) : Prop :=
  p.length ≤ 8 ∧ walk (next m) root p = some x

def nodeRegion (x : ℕ) : Region := ⟨x, sizeofWideRadixNode⟩

theorem nodeRegion_contains (x : ℕ) : (nodeRegion x).Contains x := by
  simp [nodeRegion, Region.Contains, sizeofWideRadixNode]

structure Sound (m : Memory WideRadixNode) (root : ℕ) : Prop where
  live : ∀ {p x}, At m root p x → nodeRegion x ∈ m.live
  unshared : Unshared (next m) root 8
  mask_iff : ∀ {p x}, At m root p x → ∀ d, (m.cell x).childMask.has d = true ↔
    (m.cell x).children d ≠ none
  leaf_iff : ∀ {p x}, At m root p x → ((m.cell x).isLeaf = true ↔ p.length = 8)
  leaf_end : ∀ {p x}, At m root p x → p.length = 8 → ∀ d, (m.cell x).children d = none

section

variable {m m' : Memory WideRadixNode} {root : ℕ}

theorem at_nil : At m root [] root := ⟨Nat.zero_le _, rfl⟩

theorem at_snoc {p : List (BitVec 8)} {d : BitVec 8} {y : ℕ} :
    At m root (p ++ [d]) y ↔ ∃ x, At m root p x ∧ p.length < 8 ∧
      (m.cell x).children d = some y := by
  simp only [At, walk_snoc, List.length_append, List.length_singleton, Option.bind_eq_some_iff,
    next]
  constructor
  · rintro ⟨hlen, x, hx, hy⟩
    exact ⟨x, ⟨by omega, hx⟩, hlen, hy⟩
  · rintro ⟨x, ⟨-, hx⟩, hlen, hy⟩
    exact ⟨hlen, x, hx, hy⟩

theorem At.unique {p : List (BitVec 8)} {x y : ℕ} (hx : At m root p x) (hy : At m root p y) :
    x = y := Option.some.inj (hx.2.symm.trans hy.2)

theorem Sound.at_injective (h : Sound m root) {p q : List (BitVec 8)} {x : ℕ}
    (hp : At m root p x) (hq : At m root q x) : p = q :=
  h.unshared.injective hp.1 hq.1 hp.2 hq.2

theorem Sound.exists_child (h : Sound m root) {p : List (BitVec 8)} {x : ℕ} (hx : At m root p x)
    {d : BitVec 8} (hbit : (m.cell x).childMask.has d = true) :
    ∃ y, (m.cell x).children d = some y :=
  Option.ne_none_iff_exists'.mp ((h.mask_iff hx d).mp hbit)

theorem Sound.child_none (h : Sound m root) {p : List (BitVec 8)} {x : ℕ} (hx : At m root p x)
    {d : BitVec 8} (hbit : ¬ (m.cell x).childMask.has d = true) :
    (m.cell x).children d = none := by
  by_contra hne
  exact hbit ((h.mask_iff hx d).mpr hne)

end

end RadixBench.WideRadix
