import RadixBench.RadixNew.Runs

namespace RadixBench.RadixNew

open Foundation Memory Pool

def treeStep (A : Allocator) (t : WideRadixTree) : MapOp → Exec WideRadixTree
  | .insert key value => .ok (treeInsertOrReturnExisting A t key value).2.2
  | .remove key => .ok (treeRemove t key).2

/-- Calls in any order and on any keys, whose allocations may fail at will. -/
abbrev TreeReachable (A : Allocator) (log2Max log2Align : BitVec 8) :=
  Reachable (fun t ↦ ∃ m, t = treeInit A m log2Max log2Align) (fun _ _ ↦ True) (treeStep A)

def Admitted (log2Max log2Align : BitVec 8) (key : BitVec 64) : Prop :=
  2 ^ log2Align.toNat ∣ key.toNat ∧ key.toNat < 2 ^ log2Max.toNat

structure Untouched (A : Allocator) (t : WideRadixTree) (key key' : BitVec 64) : Prop where
  insert : ∀ value, (treeInsertOrReturnExisting A t key value).1 = 0 →
    treeFind (treeInsertOrReturnExisting A t key value).2.2 key' = treeFind t key'
  remove : treeFind (treeRemove t key).2 key' = treeFind t key'

def Unaliased (log2Max log2Align : BitVec 8) : Prop :=
  ∀ A t, TreeReachable A log2Max log2Align t → ∀ key key', Admitted log2Max log2Align key →
    Admitted log2Max log2Align key' → key ≠ key' → Untouched A t key key'

theorem TreeReachable.sound {A : Allocator} {log2Max log2Align : BitVec 8}
    (hlt : log2Align.toNat < log2Max.toNat) (hle : log2Max.toNat ≤ log2Align.toNat + 64)
    {t : WideRadixTree} (h : TreeReachable A log2Max log2Align t) :
    t.numLevels = computeNumLevels log2Max log2Align ∧ ∃ live, t.Sound live := by
  refine Reachable.invariant_of_returns (I := fun t : WideRadixTree ↦
    t.numLevels = computeNumLevels log2Max log2Align ∧ ∃ live, t.Sound live) ?_ ?_ h
  · rintro t ⟨m, rfl⟩
    exact ⟨rfl, _, (treeInit_sound A m hlt hle).1⟩
  · rintro t op ⟨hn, live, hs⟩ -
    cases op with
    | insert key value =>
      refine ⟨_, rfl, ?_⟩
      obtain ⟨t', live', heq, hs', hsame, -⟩ | ⟨q, d, t', live', -, heq, hs', hins⟩ :=
        hs.insert_cases A key value
      · rw [heq]
        exact ⟨hsame.numLevels.trans hn, live', hs'⟩
      · rw [heq]
        exact ⟨hins.numLevels.trans hn, live', hs'⟩
    | remove key =>
      obtain ⟨q, d, live', -, -, hs', hrem⟩ := WideRadixTree.treeRemove_removed hs key
      exact ⟨_, rfl, hrem.numLevels.trans hn, live', hs'⟩

theorem digits_eq_iff_mod {n : ℕ} {key key' : BitVec 64} :
    digits key n = digits key' n ↔ key.toNat % 2 ^ (8 * n) = key'.toNat % 2 ^ (8 * n) := by
  have hpow : 2 ^ (8 * n) = 256 ^ n := by
    rw [pow_mul]
    norm_num
  rw [hpow, ← ofDigits_digits, ← ofDigits_digits]
  exact ⟨fun h ↦ by rw [h], ofDigits_injective (by rw [length_digits, length_digits])⟩

namespace WideRadixTree

variable {t : WideRadixTree} {live : Bool → List ℕ} {key key' : BitVec 64}

theorem stored_congr (h : 0 < t.numLevels) (heq : digits key' t.numLevels = digits key t.numLevels) :
    t.stored key' = t.stored key := by
  obtain ⟨last, hn⟩ := Nat.exists_eq_succ_of_ne_zero h.ne'
  have hpath : digits (key >>> 8) last ++ [digit key 0] = digits key t.numLevels := by
    rw [hn]
    exact (digits_snoc key last).symm
  rw [← content_eq_stored hpath, ← content_eq_stored (hpath.trans heq.symm)]

/-- A call on `key` is noticed under `key'` when both have the same bytes and the call changes
what is stored there. -/
theorem Sound.insert_untouched_iff (A : Allocator) (h : t.Sound live) {value : BitVec 64}
    (hzero : (treeInsertOrReturnExisting A t key value).1 = 0) :
    treeFind (treeInsertOrReturnExisting A t key value).2.2 key' = treeFind t key' ↔
      digits key' t.numLevels ≠ digits key t.numLevels ∨ value = 0#64 ∨ treeFind t key ≠ 0#64 := by
  obtain ⟨t', -, heq, -⟩ | ⟨q, d, t', live', hq, heq, hs', hins⟩ := h.insert_cases A key value
  · rw [heq] at hzero
    cases hzero
  · rw [heq, hs'.treeFind_eq, h.treeFind_eq, h.treeFind_eq, hins.stored_path hq]
    by_cases hsame : digits key' t.numLevels = digits key t.numLevels
    · rw [or_iff_right (not_not.mpr hsame), stored_congr h.levels_pos hsame]
      by_cases hold : t.stored key = 0#64
      · rw [if_pos ⟨hsame, hold⟩, hold]
        simp
      · rw [if_neg fun hand ↦ hold hand.2]
        exact iff_of_true rfl (.inr hold)
    · rw [if_neg fun hand ↦ hsame hand.1]
      exact iff_of_true rfl (.inl hsame)

theorem Sound.remove_untouched_iff (h : t.Sound live) :
    treeFind (treeRemove t key).2 key' = treeFind t key' ↔
      digits key' t.numLevels ≠ digits key t.numLevels ∨ treeFind t key = 0#64 := by
  obtain ⟨q, d, live', hq, -, hs', hrem⟩ := treeRemove_removed h key
  rw [hs'.treeFind_eq, h.treeFind_eq, h.treeFind_eq, hrem.stored_path hq]
  by_cases hsame : digits key' t.numLevels = digits key t.numLevels
  · rw [if_pos hsame, or_iff_right (not_not.mpr hsame), stored_congr h.levels_pos hsame]
    exact eq_comm
  · rw [if_neg hsame]
    exact iff_of_true rfl (.inl hsame)

theorem Sound.untouched (A : Allocator) (h : t.Sound live)
    (hne : digits key' t.numLevels ≠ digits key t.numLevels) : Untouched A t key key' :=
  ⟨fun _ hzero ↦ (h.insert_untouched_iff A hzero).mpr (.inl hne),
    h.remove_untouched_iff.mpr (.inl hne)⟩

end WideRadixTree

def fresh (n : ℕ) : WideRadixTree :=
  { treeInit bumpAllocator Memory.empty 8 0 with numLevels := n }

theorem fresh_insert : ∀ i : Fin 8,
    (treeInsertOrReturnExisting bumpAllocator (fresh (i + 1)) 0 1).1 = 0 := by decide +kernel

theorem not_unaliased {log2Max log2Align : BitVec 8} (hlt : log2Align.toNat < log2Max.toNat)
    (hle : log2Max.toNat ≤ 64) (hshort : 8 * computeNumLevels log2Max log2Align < log2Max.toNat) :
    ¬ Unaliased log2Max log2Align := by
  intro hun
  set n := computeNumLevels log2Max log2Align with hn
  obtain ⟨k, hk, hnk, hak⟩ : ∃ k, k < log2Max.toNat ∧ 8 * n ≤ k ∧ log2Align.toNat ≤ k :=
    ⟨log2Max.toNat - 1, by omega, by omega, by omega⟩
  have hval : (BitVec.twoPow 64 k).toNat = 2 ^ k := by
    rw [BitVec.toNat_twoPow]
    exact Nat.mod_eq_of_lt (Nat.pow_lt_pow_right (by norm_num) (by omega))
  have hzero : Admitted log2Max log2Align 0 := ⟨dvd_zero _, Nat.two_pow_pos _⟩
  have hadm : Admitted log2Max log2Align (BitVec.twoPow 64 k) := by
    rw [Admitted, hval]
    exact ⟨pow_dvd_pow 2 hak, Nat.pow_lt_pow_right (by norm_num) hk⟩
  have hne : 0 ≠ BitVec.twoPow 64 k := by
    intro heq
    have hpos := Nat.two_pow_pos k
    rw [← hval, ← heq] at hpos
    cases hpos
  have hreach : TreeReachable bumpAllocator log2Max log2Align (fresh n) := .init ⟨Memory.empty, rfl⟩
  obtain ⟨-, live, hs⟩ := hreach.sound hlt (by omega)
  obtain ⟨hpos, hle8⟩ := computeNumLevels_bounds hlt (by omega)
  have hok : (treeInsertOrReturnExisting bumpAllocator (fresh n) 0 1).1 = 0 := by
    have hi := fresh_insert ⟨n - 1, by omega⟩
    rwa [show n - 1 + 1 = n by omega] at hi
  have hsame : digits (BitVec.twoPow 64 k) n = digits 0 n := by
    rw [digits_eq_iff_mod, hval]
    exact Nat.mod_eq_zero_of_dvd (pow_dvd_pow 2 hnk)
  have hold : treeFind (fresh n) 0 = 0#64 := by
    rw [hs.treeFind_eq]
    exact ((treeInit_sound bumpAllocator Memory.empty hlt (by omega)).2 _ _).1
  have hfind := (hun _ _ hreach 0 _ hzero hadm hne).insert 1 hok
  rcases (hs.insert_untouched_iff bumpAllocator hok).mp hfind with hdiff | hone | hfound
  · exact hdiff hsame
  · exact absurd hone (by decide)
  · exact hfound hold

/-- The number of low bits of a key that the levels look at. -/
def keyBits (log2Max log2Align : BitVec 8) : ℕ := 8 * computeNumLevels log2Max log2Align

/-- A call on one key is noticed under another only if they have the low `8 * numLevels` bits in
common. No two keys that `treeInit` is told of do so exactly when the levels cover all bits. -/
theorem keySpace_unaliased_iff {log2Max log2Align : BitVec 8}
    (hlt : log2Align.toNat < log2Max.toNat) (hle : log2Max.toNat ≤ 64) :
    (∀ A t, TreeReachable A log2Max log2Align t → ∀ key key' : BitVec 64,
      (∀ value, (treeInsertOrReturnExisting A t key value).1 = 0 →
        (treeFind (treeInsertOrReturnExisting A t key value).2.2 key' = treeFind t key' ↔
          key'.toNat % 2 ^ keyBits log2Max log2Align ≠ key.toNat % 2 ^ keyBits log2Max log2Align ∨
            value = 0#64 ∨ treeFind t key ≠ 0#64)) ∧
      (treeFind (treeRemove t key).2 key' = treeFind t key' ↔
        key'.toNat % 2 ^ keyBits log2Max log2Align ≠ key.toNat % 2 ^ keyBits log2Max log2Align ∨
          treeFind t key = 0#64)) ∧
    (Unaliased log2Max log2Align ↔ log2Max.toNat ≤ keyBits log2Max log2Align) := by
  refine ⟨fun A t hreach key key' ↦ ?_, fun hun ↦ ?_, ?_⟩
  · obtain ⟨hn, live, hs⟩ := hreach.sound hlt (by omega)
    have hbits : digits key' (computeNumLevels log2Max log2Align) ≠
        digits key (computeNumLevels log2Max log2Align) ↔
          key'.toNat % 2 ^ keyBits log2Max log2Align ≠
            key.toNat % 2 ^ keyBits log2Max log2Align := digits_eq_iff_mod.not
    refine ⟨fun value hzero ↦ ?_, ?_⟩
    · rw [hs.insert_untouched_iff A hzero, hn]
      exact or_congr_left hbits
    · rw [hs.remove_untouched_iff, hn]
      exact or_congr_left hbits
  · by_contra hshort
    exact not_unaliased hlt hle (Nat.not_le.mp hshort) hun
  · intro hcover A t hreach key key' hkey hkey' hne
    obtain ⟨hn, live, hs⟩ := hreach.sound hlt (by omega)
    have hrange : ∀ {key}, Admitted log2Max log2Align key → t.InRange key := by
      intro key hkey
      rw [WideRadixTree.InRange, hn]
      exact hkey.2.trans_le (Nat.pow_le_pow_right (by norm_num) hcover)
    exact hs.untouched A fun heq ↦ hne ((WideRadixTree.digits_eq_iff (hrange hkey)
      (hrange hkey')).mp heq).symm

theorem keySpace_unaliased_iff_bytes : Unaliased 24 3 ↔ 24 ≤ 8 * computeNumLevels 24 3 :=
  (keySpace_unaliased_iff (by decide) (by decide)).2

/-- The benchmarks' own tree: its seven levels leave out the top byte of the keys, so that an
insertion of 0 is found under 2 ^ 56. -/
theorem keySpace_aliased : ¬ Unaliased 64 8 ∧ TreeReachable bumpAllocator 64 8 (fresh 7) ∧
    Admitted 64 8 0 ∧ Admitted 64 8 0x0100000000000000 ∧
    (treeInsertOrReturnExisting bumpAllocator (fresh 7) 0 1).1 = 0 ∧
    treeFind (fresh 7) 0x0100000000000000 = 0#64 ∧
    treeFind (treeInsertOrReturnExisting bumpAllocator (fresh 7) 0 1).2.2 0x0100000000000000 =
      1#64 := by
  refine ⟨not_unaliased (by decide) (by decide) (by decide), .init ⟨Memory.empty, rfl⟩,
    ⟨by decide, by decide⟩, ⟨by decide, by decide⟩, ?_, ?_, ?_⟩
  all_goals decide +kernel

end RadixBench.RadixNew
