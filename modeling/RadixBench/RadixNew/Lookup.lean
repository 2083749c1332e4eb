import RadixBench.RadixNew.Removal
import RadixBench.Pool.Runs

namespace RadixBench.RadixNew

open Foundation Memory Pool

namespace WideRadixTree

variable {t t' : WideRadixTree} {live : Bool → List ℕ}

theorem Sound.hasBit_of_node (h : t.Sound live) {q : List (BitVec 8)} {x : NodePtr}
    (hx : t.At q x) (hne : t.node x ≠ 0) {r : List (BitVec 8)} {e : BitVec 8}
    (hpre : r ++ [e] <+: q) : t.HasBit r e := by
  obtain ⟨z, hz⟩ : ∃ z, t.At (r ++ [e]) z := by
    have hw := hx.2
    obtain ⟨s, rfl⟩ := hpre
    rw [walk_append, Option.bind_eq_some_iff] at hw
    obtain ⟨z, hz, -⟩ := hw
    have hlen := hx.1
    rw [List.length_append] at hlen
    exact ⟨z, by omega, hz⟩
  obtain ⟨y, b, hy, hb, hlen, rfl⟩ := at_snoc.mp hz
  refine ⟨y, hy, ?_⟩
  by_contra hbit
  have hzero := h.clear hy (Bool.eq_false_of_not_eq_true hbit) hb
  rw [slotZero_inner hlen] at hzero
  rw [at_below_zero hz hzero hx hpre] at hx
  rw [hx.unique hz] at hne
  exact hne hzero

theorem HasBit.above (h : t.Sound live) {q : List (BitVec 8)} {d : BitVec 8} (hq : t.HasBit q d)
    {r : List (BitVec 8)} {e : BitVec 8} (hpre : r ++ [e] <+: q) : t.HasBit r e := by
  obtain ⟨x, hx, hbit⟩ := hq
  refine h.hasBit_of_node hx (fun hzero ↦ ?_) hpre
  rw [hzero] at hbit
  exact absurd hbit (by simp)

theorem Sound.hasBit_of_content (h : t.Sound live) {q : List (BitVec 8)} {d : BitVec 8}
    (hq : q.length + 1 = t.numLevels) (hne : t.content q d ≠ 0#64) {r : List (BitVec 8)}
    {e : BitVec 8} (hpre : r ++ [e] <+: q ++ [d]) : t.HasBit r e := by
  cases hw : walk t.next .root q with
  | none => exact absurd (content_of_walk_none d hw) hne
  | some x =>
    have hx : t.At q x := ⟨by omega, hw⟩
    cases hb : (t.node x).children (hi d) with
    | none => exact absurd (content_of_null hx hb) hne
    | some b =>
      rw [content_of_at hx hb] at hne
      rcases concat_prefix_concat.mp hpre with hpre | ⟨rfl, rfl⟩
      · refine h.hasBit_of_node hx (fun hzero ↦ ?_) hpre
        rw [hzero] at hb
        cases hb
      · refine ⟨x, hx, ?_⟩
        by_contra hbit
        have hzero := h.clear hx (Bool.eq_false_of_not_eq_true hbit) hb
        exact hne ((slotZero_last hq).mp hzero)

theorem Sound.findFrom_eq (h : t.Sound live) (key : BitVec 64) (rem : ℕ) {p : List (BitVec 8)}
    {x : NodePtr} (hx : t.At p x) (hlen : p.length + rem + 1 = t.numLevels) :
    ∃ q d, q ++ [d] = p ++ digits key (rem + 1) ∧ t.findFrom key rem x = t.content q d := by
  induction rem generalizing p x with
  | zero =>
    refine ⟨p, digit key 0, rfl, ?_⟩
    by_cases hbit : (t.node x).bits.has (digit key 0) = true
    · rw [findFrom, if_neg ((Mask.test_iff _ _).mpr hbit)]
      cases hb : (t.node x).children (hi (digit key 0)) with
      | none => exact (content_of_null hx hb).symm
      | some b => exact (content_of_at hx hb).symm
    · rw [findFrom, if_pos (not_not.mp fun hne ↦ hbit ((Mask.test_iff _ _).mp hne))]
      symm
      by_contra hne
      exact hbit ((hx.hasBit _).mp (h.hasBit_of_content hlen hne List.prefix_rfl))
  | succ rem ih =>
    set d := digit key (rem + 1) with hd
    have hfull : p ++ digits key (rem + 1 + 1) = p ++ [d] ++ digits key (rem + 1) :=
      append_digits p key (rem + 1)
    have hinit : p ++ digits key (rem + 1 + 1) =
        p ++ [d] ++ digits (key >>> 8) rem ++ [digit key 0] := by
      rw [hfull, digits_snoc key rem, ← List.append_assoc]
    have hlast : (p ++ [d] ++ digits (key >>> 8) rem).length + 1 = t.numLevels := by
      simp only [List.length_append, List.length_singleton, length_digits]
      omega
    by_cases hbit : (t.node x).bits.has d = true
    · cases hb : (t.node x).children (hi d) with
      | none =>
        refine ⟨_, _, hinit.symm, ?_⟩
        rw [findFrom, if_neg ((Mask.test_iff _ _).mpr hbit)]
        simp only [← hd, hb]
        refine (content_of_walk_none _ (not_at_below_null hx hb ?_)).symm
        exact List.prefix_append _ _
      | some b =>
        have hx' : t.At (p ++ [d]) (.item b (lo d)) := at_snoc.mpr ⟨x, b, hx, hb, by omega, rfl⟩
        obtain ⟨q, e, hq, hfind⟩ := ih hx' (by
          rw [List.length_append, List.length_singleton]
          omega)
        refine ⟨q, e, by rw [hq, hfull], ?_⟩
        rw [findFrom, if_neg ((Mask.test_iff _ _).mpr hbit)]
        simp only [← hd, hb, hfind]
    · refine ⟨_, _, hinit.symm, ?_⟩
      rw [findFrom, if_pos (not_not.mp fun hne ↦ hbit ((Mask.test_iff _ _).mp hne))]
      symm
      by_contra hne
      refine hbit ((hx.hasBit _).mp (h.hasBit_of_content hlast hne ?_))
      rw [List.append_assoc]
      exact List.prefix_append _ _

def stored (t : WideRadixTree) (key : BitVec 64) : BitVec 64 :=
  t.content (digits key t.numLevels).dropLast (digit key 0)

theorem digits_eq_concat {key : BitVec 64} {n : ℕ} {q : List (BitVec 8)} {d : BitVec 8}
    (h : q ++ [d] = digits key n) :
    q = (digits key n).dropLast ∧ d = digit key 0 ∧ q.length + 1 = n := by
  have hlen := congrArg List.length h
  rw [length_digits, List.length_append, List.length_singleton] at hlen
  subst hlen
  rw [digits_snoc] at h ⊢
  obtain ⟨hq, hd⟩ := List.append_singleton_inj.mp h
  rw [List.dropLast_concat]
  exact ⟨hq, hd, rfl⟩

theorem content_eq_stored {key : BitVec 64} {q : List (BitVec 8)} {d : BitVec 8}
    (h : q ++ [d] = digits key t.numLevels) : t.content q d = t.stored key := by
  obtain ⟨rfl, rfl, -⟩ := digits_eq_concat h
  rfl

theorem Sound.treeFind_eq (h : t.Sound live) (key : BitVec 64) :
    treeFind t key = t.stored key := by
  obtain ⟨last, hn⟩ := Nat.exists_eq_succ_of_ne_zero h.levels_pos.ne'
  obtain ⟨q, d, hq, hfind⟩ := h.findFrom_eq key last (at_nil h.levels_pos) (by
    rw [List.length_nil, hn]
    omega)
  rw [treeFind, hn]
  exact hfind.trans (content_eq_stored (by rw [hq, hn]; rfl))

theorem sound_of_root_zero (hroot : t.root = 0) (hpools : t.PoolsSound fun _ ↦ [])
    (hpos : 0 < t.numLevels) (hle : t.numLevels ≤ 8) :
    t.Sound (fun _ ↦ []) ∧ ∀ q d, t.content q d = 0#64 ∧ ¬ t.HasBit q d := by
  have hzero : t.node .root = 0 := hroot
  have hat : ∀ {p x}, t.At p x → p = [] ∧ x = .root := by
    intro p x hx
    obtain rfl : p = [] := at_below_zero (at_nil hpos) hzero hx List.nil_prefix
    exact ⟨rfl, hx.unique (at_nil hpos)⟩
  have hnone : ∀ {p x i}, t.At p x → (t.node x).children i = none := by
    intro p x i hx
    obtain ⟨rfl, rfl⟩ := hat hx
    rw [hzero]
    rfl
  refine ⟨⟨hpools, hpos, hle, ?_, ?_, ?_, ?_, ?_⟩, fun q d ↦ ⟨?_, ?_⟩⟩
  · intro p x i b hx hb
    rw [hnone hx] at hb
    cases hb
  · intro l b hb
    cases hb
  · intro p q x y i j b hx hy hb
    rw [hnone hx] at hb
    cases hb
  · intro p x i hx
    obtain ⟨rfl, rfl⟩ := hat hx
    rw [hzero]
    exact iff_of_true rfl rfl
  · intro p x d b hx hbit hb
    rw [hnone hx] at hb
    cases hb
  · cases hw : walk t.next .root q with
    | none => exact content_of_walk_none d hw
    | some x =>
      cases q with
      | nil =>
        cases hw
        exact content_of_null (at_nil hpos) (hnone (at_nil hpos))
      | cons e q =>
        rw [walk, next, hzero] at hw
        cases hw
  · rintro ⟨x, hx, hbit⟩
    obtain ⟨rfl, rfl⟩ := hat hx
    rw [hzero] at hbit
    exact absurd hbit (by simp)

end WideRadixTree

theorem computeNumLevels_bounds {log2Max log2Align : BitVec 8}
    (hlt : log2Align.toNat < log2Max.toNat) (hle : log2Max.toNat ≤ log2Align.toNat + 64) :
    0 < computeNumLevels log2Max log2Align ∧ computeNumLevels log2Max log2Align ≤ 8 := by
  rw [computeNumLevels, Int.shiftRight_eq_div_pow]
  omega

theorem objectPoolInit_some (A : Allocator) (m : Memory Block) {objectSize capacity : ℕ}
    (hsize : objectSize ≠ 0) (hcap : capacity ≠ 0) :
    ∃ r pool m', objectPoolInit A m objectSize capacity = (r, some pool, m') := by
  rw [objectPoolInit, if_neg (not_or.mpr ⟨hsize, hcap⟩)]
  cases createNewPool A m objectSize capacity with
  | mk b m' =>
    cases b with
    | none => exact ⟨_, _, _, rfl⟩
    | some b => exact ⟨_, _, _, rfl⟩

open WideRadixTree in
theorem treeInit_pools (A : Allocator) (m : Memory Block) (log2Max log2Align : BitVec 8) :
    (treeInit A m log2Max log2Align).PoolsSound (fun _ ↦ []) := by
  obtain ⟨r, nonLeaf, m₁, h₁⟩ := objectPoolInit_some A m
    (show 64 * sizeofWideRadixNode ≠ 0 by decide) (show 100 ≠ 0 by decide)
  obtain ⟨r', leaf, m₂, h₂⟩ := objectPoolInit_some A m₁
    (show 64 * sizeofValue ≠ 0 by decide) (show 1000 ≠ 0 by decide)
  obtain ⟨hinv₁, hfree₁, -, -, -, -⟩ := objectPoolInit_invariant A m (by decide) (by decide) h₁
  obtain ⟨hinv₂, hfree₂, hu, -, -, hapart⟩ :=
    objectPoolInit_invariant A m₁ (by decide) (by decide) h₂
  have htree : treeInit A m log2Max log2Align =
      ⟨0, computeNumLevels log2Max log2Align, nonLeaf, leaf, m₂⟩ := by
    simp only [treeInit, h₁, h₂, Option.getD_some]
  rw [htree]
  refine ⟨fun l ↦ ?_, fun b hb c hc ↦ ?_, fun l ↦ ?_⟩
  · cases l with
    | true => exact hinv₂
    | false => exact hinv₁.of_subset hu.live
  · exact (hapart c hc _ (hinv₁.region_live b hb)).symm
  · cases l with
    | true => exact hfree₂ _ (blank_zero _)
    | false => exact (hfree₁ _ (blank_zero _)).of_unchanged hinv₁.sound hu

theorem treeInit_sound (A : Allocator) (m : Memory Block) {log2Max log2Align : BitVec 8}
    (hlt : log2Align.toNat < log2Max.toNat) (hle : log2Max.toNat ≤ log2Align.toNat + 64) :
    (treeInit A m log2Max log2Align).Sound (fun _ ↦ []) ∧
      ∀ q d, (treeInit A m log2Max log2Align).content q d = 0#64 ∧
        ¬ (treeInit A m log2Max log2Align).HasBit q d := by
  obtain ⟨hpos, hle8⟩ := computeNumLevels_bounds hlt hle
  exact WideRadixTree.sound_of_root_zero rfl (treeInit_pools A m log2Max log2Align) hpos hle8

end RadixBench.RadixNew
