import RadixBench.RadixNew.Unlinking
import RadixBench.RadixNew.Allocation

namespace RadixBench.RadixNew

open Foundation Memory Pool

namespace WideRadixTree

variable {t t' : WideRadixTree} {live : Bool → List ℕ}

theorem PoolsSound.free (h : t.PoolsSound live) {leaf : Bool} {b : ℕ} (hb : b ∈ live leaf)
    (hblank : Blank leaf (t.memory.cell b)) :
    (t.setPool leaf (objectPoolFree (t.pool leaf) b)).PoolsSound
      (Function.update live leaf ((live leaf).erase b)) := by
  have hrel := objectPoolFree_live (h.pools leaf) hb
  have hregion : ∀ c ∈ (objectPoolFree (t.pool leaf) b).pools,
      ∃ c' ∈ (t.pool leaf).pools, c'.region = c.region := by
    intro c hc
    have hmem := List.mem_map_of_mem (f := ObjectPoolBlock.region) hc
    rw [hrel.regions] at hmem
    exact List.mem_map.mp hmem
  have hother : ∀ leaf' c, leaf' ≠ leaf → c ∈ (t.pool leaf').pools →
      ∀ c' ∈ (objectPoolFree (t.pool leaf) b).pools, c.region.Disjoint c'.region := by
    intro leaf' c hne hc c' hc'
    obtain ⟨c'', hc'', hr⟩ := hregion c' hc'
    exact hr ▸ h.apart_of_ne hne hc hc''
  refine ⟨fun leaf' ↦ ?_, ?_, fun leaf' ↦ ?_⟩
  · rw [memory_setPool]
    by_cases hl : leaf' = leaf
    · subst hl
      rw [pool_setPool_self, Function.update_self]
      exact hrel.invariant
    · rw [pool_setPool_of_ne _ hl, Function.update_of_ne hl]
      exact h.pools leaf'
  · intro c hc c' hc'
    cases leaf with
    | true => exact hother false c (by decide) hc c' hc'
    | false => exact (hother true c' (by decide) hc' c hc).symm
  · rw [memory_setPool]
    by_cases hl : leaf' = leaf
    · subst hl
      rw [pool_setPool_self]
      exact hrel.free _ (h.blank leaf') hblank
    · rw [pool_setPool_of_ne _ hl]
      exact h.blank leaf'

namespace Sound

theorem child_ne (h : t.Sound live) {p : List (BitVec 8)} {x : NodePtr} {i : Fin 4} {b : ℕ}
    (hx : t.At p x) (hb : (t.node x).children i = some b) (c : Fin 64) : x ≠ .item b c := by
  rintro rfl
  induction p using List.reverseRecOn with
  | nil => cases hx.2
  | append_singleton p d =>
    obtain ⟨y, b', hy, hb', -, heq⟩ := at_snoc.mp hx
    cases heq
    have hlen := congrArg List.length (h.unshared hx hy hb hb').1
    rw [List.length_append, List.length_singleton] at hlen
    omega

theorem unlinked (h : t.Sound live) {p : List (BitVec 8)} {x : NodePtr} (hx : t.At p x)
    {d : BitVec 8} {b : ℕ} (hb : (t.node x).children (hi d) = some b)
    (hzero : t.SlotZero (t.isLast p) b (lo d))
    (hlast : (t.node x).bits.clear d (hi d) = 0#64) :
    Unlinked t ((t.setPool (t.isLast p) (objectPoolFree (t.pool (t.isLast p)) b)).setNode x
      ⟨(t.node x).bits.clear d, Function.update (t.node x).children (hi d) none⟩) live p x d b := by
  have hbit : ∀ e, hi e = hi d → (t.node x).bits.has e = true → e = d := by
    intro e he hset
    have hclear := (Mask.word_eq_zero _ _).mp hlast e he
    rw [← Bool.not_eq_true, Mask.has_clear] at hclear
    tauto
  have hall : ∀ c, t.SlotZero (t.isLast p) b c := by
    intro c
    by_cases hc : byteOf (hi d) c = d
    · rwa [← hc, lo_byteOf] at hzero
    · have hclear := h.clear hx (d := byteOf (hi d) c) (b := b)
        (Bool.eq_false_of_not_eq_true fun hset ↦ hc (hbit _ (hi_byteOf _ _) hset))
        (by rw [hi_byteOf, hb])
      rwa [lo_byteOf] at hclear
  refine ⟨by simp, ?_, hb, hall, hbit, node_setNode_self .., fun hne ↦ ?_, fun a c ↦ ?_⟩
  · refine (h.toPoolsSound.free (h.owned hx hb) hall).setNode (fun a i hxa ↦ ?_) _
    have ha := h.node_live (hxa ▸ hx)
    have hne : a ≠ b := by
      rintro rfl
      exact h.child_ne hx hb i hxa
    by_cases hleaf : false = t.isLast p
    · rw [hleaf, Function.update_self, ← hleaf]
      exact (List.mem_erase_of_ne hne).mpr ha
    · rwa [Function.update_of_ne hleaf]
  · rw [node_setNode_of_ne _ hne, node_setPool]
  · rw [value_setNode, value_setPool]

end Sound

theorem setNode_setPool (x : NodePtr) (n : WideRadixNode) (leaf : Bool) (pool : ObjectPool) :
    (t.setNode x n).setPool leaf pool = (t.setPool leaf pool).setNode x n := by
  cases leaf <;> cases x <;> rfl

theorem clearSlot_free {x : NodePtr} {d : BitVec 8} {leaf : Bool} {b : ℕ}
    (hb : (t.node x).children (hi d) = some b)
    (hword : (t.node x).bits.clear d (hi d) = 0#64) :
    t.clearSlot x (hi d) (lo d) leaf = (t.setPool leaf (objectPoolFree (t.pool leaf) b)).setNode x
      ⟨(t.node x).bits.clear d, Function.update (t.node x).children (hi d) none⟩ := by
  rw [Mask.clear, Function.update_self] at hword
  rw [clearSlot, if_pos hword]
  simp only [hb, pool_setNode, node_setNode_self, setNode_setPool, setNode_setNode, Mask.clear]

theorem clearSlot_keep {x : NodePtr} {d : BitVec 8} {leaf : Bool}
    (h : (t.node x).children (hi d) = none ∨ (t.node x).bits.clear d (hi d) ≠ 0#64) :
    t.clearSlot x (hi d) (lo d) leaf =
      t.setNode x { t.node x with bits := (t.node x).bits.clear d } := by
  rw [clearSlot]
  split_ifs with hword
  · have hnull := h.resolve_right fun hne ↦ hne (by rwa [Mask.clear, Function.update_self])
    simp only [hnull, Mask.clear]
  · rfl

structure Cleared (t t' : WideRadixTree) (p : List (BitVec 8)) (d : BitVec 8) : Prop
    extends SameContent t t' where
  failures : t'.memory.failures = t.memory.failures
  hasBit : ∀ q e, t'.HasBit q e ↔ t.HasBit q e ∧ ¬ (q = p ∧ e = d)
  at_above : ∀ {q y}, q.length ≤ p.length → t.At q y → t'.At q y

theorem Sound.clearSlot (h : t.Sound live) {p : List (BitVec 8)} {x : NodePtr} (hx : t.At p x)
    {d : BitVec 8}
    (hzero : ∀ b, (t.node x).children (hi d) = some b → t.SlotZero (t.isLast p) b (lo d)) :
    ∃ live', (t.clearSlot x (hi d) (lo d) (t.isLast p)).Sound live' ∧
      Cleared t (t.clearSlot x (hi d) (lo d) (t.isLast p)) p d := by
  have hkeep : ((t.node x).children (hi d) = none ↔ (t.node x).bits.clear d (hi d) = 0#64) →
      let t' := t.setNode x { t.node x with bits := (t.node x).bits.clear d }
      t'.Sound live ∧ Cleared t t' p d := by
    intro hword
    obtain ⟨hcontent, hbits, hat⟩ := h.setBits_content hx ((t.node x).bits.clear d)
    refine ⟨h.clearBit hx hzero hword, ⟨by simp, fun e _ ↦ hcontent _ e⟩, by simp,
      fun q e ↦ ?_, fun _ hy ↦ (hat _ _).mpr hy⟩
    rw [hbits]
    split_ifs with hq
    · rw [hq, hx.hasBit, Mask.has_clear]
      tauto
    · tauto
  cases hb : (t.node x).children (hi d) with
  | none =>
    have hword : (t.node x).bits.clear d (hi d) = 0#64 := by
      rw [Mask.clear, Function.update_self, (h.null_iff hx).mp hb, BitVec.zero_and]
    rw [clearSlot_keep (.inl hb)]
    exact ⟨live, hkeep (iff_of_true hb hword)⟩
  | some b =>
    by_cases hword : (t.node x).bits.clear d (hi d) = 0#64
    · have hun := h.unlinked hx hb (hzero b hb) hword
      rw [clearSlot_free hb hword]
      refine ⟨_, hun.sound h hx, ⟨hun.numLevels, fun e hq ↦ hun.content_eq h hx e hq⟩, by simp,
        hun.hasBit_iff h hx, fun {q y} hq hy ↦ ?_⟩
      refine (hun.at_iff h hx q y).mpr ⟨hy, fun e _ hpre ↦ ?_⟩
      have hlen := length_lt_of_snoc hpre
      omega
    · have hdone := hkeep (iff_of_false (by rw [hb]; exact Option.some_ne_none b) hword)
      rw [clearSlot_keep (.inr hword)]
      exact ⟨live, hdone⟩

end WideRadixTree

end RadixBench.RadixNew
