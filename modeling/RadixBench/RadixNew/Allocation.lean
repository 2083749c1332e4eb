import RadixBench.RadixNew.Linking

namespace RadixBench.RadixNew

open Foundation Memory Pool

namespace WideRadixTree

variable {t t' : WideRadixTree} {live : Bool → List ℕ}

@[simp] theorem setNode_setNode (x : NodePtr) (n n' : WideRadixNode) :
    (t.setNode x n).setNode x n' = t.setNode x n' := by
  cases x with
  | root => rfl
  | item b i => simp [setNode, write]

/-- The new tree reads like the old one, apart from the presence bits. -/
structure SameContent (t t' : WideRadixTree) : Prop where
  numLevels : t'.numLevels = t.numLevels
  content : ∀ {q} e, q.length + 1 = t.numLevels → t'.content q e = t.content q e

theorem SameContent.trans {t'' : WideRadixTree} (h : t.SameContent t') (h' : t'.SameContent t'') :
    t.SameContent t'' :=
  ⟨h'.numLevels.trans h.numLevels, fun e hq ↦
    (h'.content e (by rwa [h.numLevels])).trans (h.content e hq)⟩

/-- The pool that the blocks below `x` come from is exchanged, with the memory. -/
def withPool (t : WideRadixTree) (leaf : Bool) (pool : ObjectPool) (m : Memory Block) :
    WideRadixTree :=
  { t.setPool leaf pool with memory := m }

theorem withPool_pool_self (leaf : Bool) (pool : ObjectPool) (m : Memory Block) :
    (t.withPool leaf pool m).pool leaf = pool := by cases leaf <;> rfl

theorem withPool_pool_of_ne {leaf leaf' : Bool} (pool : ObjectPool) (m : Memory Block)
    (h : leaf' ≠ leaf) : (t.withPool leaf pool m).pool leaf' = t.pool leaf' := by
  cases leaf <;> cases leaf' <;> first | rfl | exact absurd rfl h

theorem withPool_node (leaf : Bool) (pool : ObjectPool) (m : Memory Block) {x : NodePtr}
    (h : ∀ b i, x = .item b i → m.cell b = t.memory.cell b) :
    (t.withPool leaf pool m).node x = t.node x := by
  cases x with
  | root => cases leaf <;> rfl
  | item b i =>
    change (m.cell b).node i = _
    rw [h b i rfl]
    rfl

@[simp] theorem withPool_numLevels (leaf : Bool) (pool : ObjectPool) (m : Memory Block) :
    (t.withPool leaf pool m).numLevels = t.numLevels := by cases leaf <;> rfl

namespace Sound

theorem node_unchanged (h : t.Sound live) {m : Memory Block} (hu : Unchanged t.memory m)
    (leaf : Bool) (pool : ObjectPool) {q : List (BitVec 8)} {y : NodePtr} (hy : t.At q y) :
    (t.withPool leaf pool m).node y = t.node y := by
  refine withPool_node leaf pool m fun b i hyi ↦ ?_
  subst hyi
  obtain ⟨c, hc, hcont⟩ := (h.pools false).sound.live_contains (h.node_live hy)
  exact hu.same b ⟨_, (h.pools false).region_live c hc, hcont⟩

theorem value_unchanged (h : t.Sound live) {m : Memory Block} (hu : Unchanged t.memory m)
    (leaf : Bool) (pool : ObjectPool) {q : List (BitVec 8)} {y : NodePtr} {i : Fin 4} {b : ℕ}
    (hy : t.At q y) (hb : (t.node y).children i = some b) (c : Fin 64) :
    (t.withPool leaf pool m).value b c = t.value b c := by
  have hcell := hu.same b (h.block_live hy hb)
  change (m.cell b).value c = _
  rw [hcell]
  rfl

end Sound

namespace PoolsSound

theorem alloc (h : t.PoolsSound live) {leaf : Bool} {a : ℕ} {pool : ObjectPool}
    {m : Memory Block} (ha : Allocated (t.pool leaf) t.memory (live leaf) a pool m) :
    (t.withPool leaf pool m).PoolsSound (Function.update live leaf (a :: live leaf)) := by
  have hother : ∀ leaf' c, leaf' ≠ leaf → c ∈ (t.pool leaf').pools →
      ∀ c' ∈ pool.pools, c.region.Disjoint c'.region := by
    intro leaf' c hne hc c' hc'
    rcases ha.regions c' hc' with ⟨b, hb, hr⟩ | hr
    · rw [hr]
      exact h.apart_of_ne hne hc hb
    · exact (hr _ ((h.pools leaf').region_live c hc)).symm
  refine ⟨fun leaf' ↦ ?_, ?_, fun leaf' ↦ ?_⟩
  · by_cases hl : leaf' = leaf
    · subst hl
      rw [withPool_pool_self, Function.update_self]
      exact ha.invariant
    · rw [withPool_pool_of_ne _ _ hl, Function.update_of_ne hl]
      exact (h.pools leaf').of_subset ha.unchanged.live
  · intro b hb c hc
    cases leaf with
    | true => exact hother false b (by decide) hb c hc
    | false => exact (hother true c (by decide) hc b hb).symm
  · by_cases hl : leaf' = leaf
    · subst hl
      rw [withPool_pool_self]
      exact (ha.free _ (blank_zero _) (h.blank leaf')).2
    · rw [withPool_pool_of_ne _ _ hl]
      exact (h.blank leaf').of_unchanged (h.pools leaf').sound ha.unchanged

theorem alloc_not_live (h : t.PoolsSound live) {leaf : Bool} {a : ℕ} {pool : ObjectPool}
    {m : Memory Block} (ha : Allocated (t.pool leaf) t.memory (live leaf) a pool m)
    (leaf' : Bool) : a ∉ live leaf' := by
  by_cases hl : leaf' = leaf
  · subst hl
    exact ha.not_live
  · intro hlive
    obtain ⟨c, hc, hcont⟩ := (h.pools leaf').sound.live_contains hlive
    obtain ⟨c', hc', hcont'⟩ := ha.invariant.sound.live_contains List.mem_cons_self
    rcases ha.regions c' hc' with ⟨b, hb, hr⟩ | hr
    · rw [hr] at hcont'
      exact (h.apart_of_ne hl hc hb).not_contains hcont hcont'
    · exact (hr _ ((h.pools leaf').region_live c hc)).not_contains hcont' hcont

theorem alloc_failed (h : t.PoolsSound live) (leaf : Bool) {m : Memory Block}
    (hl : m.live = t.memory.live) (hu : Unchanged t.memory m) :
    (t.withPool leaf (t.pool leaf) m).PoolsSound live := by
  have hpool : ∀ leaf', (t.withPool leaf (t.pool leaf) m).pool leaf' = t.pool leaf' := by
    intro leaf'
    by_cases hl : leaf' = leaf
    · subst hl
      exact withPool_pool_self ..
    · exact withPool_pool_of_ne _ _ hl
  refine ⟨fun leaf' ↦ ?_, ?_, fun leaf' ↦ ?_⟩
  · rw [hpool]
    exact (h.pools leaf').of_subset (by rw [← hl]; exact fun _ hr ↦ hr)
  · rw [hpool, hpool]
    exact h.apart
  · rw [hpool]
    exact (h.blank leaf').of_unchanged (h.pools leaf').sound hu

end PoolsSound

structure SameReads (t t' : WideRadixTree) : Prop where
  numLevels : t'.numLevels = t.numLevels
  node : ∀ {q y}, t.At q y → t'.node y = t.node y
  value : ∀ {q y i b}, t.At q y → (t.node y).children i = some b → ∀ c, t'.value b c = t.value b c

namespace SameReads

theorem at_iff (hr : t.SameReads t') (q : List (BitVec 8)) (y : NodePtr) : t'.At q y ↔ t.At q y :=
  at_congr t t' hr.numLevels (fun q y hy ↦ by rw [hr.node hy]) q y

theorem children_iff (hr : t.SameReads t') {q : List (BitVec 8)} {y : NodePtr} {i : Fin 4}
    {b : ℕ} : t'.At q y ∧ (t'.node y).children i = some b ↔
      t.At q y ∧ (t.node y).children i = some b := by
  rw [hr.at_iff]
  exact and_congr_right fun hy ↦ by rw [hr.node hy]

theorem sound (hr : t.SameReads t') (h : t.Sound live) (hpools : t'.PoolsSound live) :
    t'.Sound live := by
  have hlast : t'.isLast = t.isLast := by
    funext q
    rw [isLast, isLast, hr.numLevels]
  refine ⟨hpools, hr.numLevels ▸ h.levels_pos, hr.numLevels ▸ h.levels_le, ?_, ?_, ?_, ?_, ?_⟩
  · intro q y i b hy hb
    obtain ⟨hy', hb'⟩ := hr.children_iff.mp ⟨hy, hb⟩
    exact hlast ▸ h.owned hy' hb'
  · intro leaf b hb
    obtain ⟨q, y, i, hy, hleaf, hb⟩ := h.reach hb
    obtain ⟨hy', hb'⟩ := hr.children_iff.mpr ⟨hy, hb⟩
    exact ⟨q, y, i, hy', hlast ▸ hleaf, hb'⟩
  · intro q r y z i j b hy hz hb hc
    obtain ⟨hy', hb'⟩ := hr.children_iff.mp ⟨hy, hb⟩
    obtain ⟨hz', hc'⟩ := hr.children_iff.mp ⟨hz, hc⟩
    exact h.unshared hy' hz' hb' hc'
  · intro q y i hy
    have hy' := (hr.at_iff q y).mp hy
    rw [hr.node hy']
    exact h.null_iff hy'
  · intro q y e b hy hbit hb
    obtain ⟨hy', hb'⟩ := hr.children_iff.mp ⟨hy, hb⟩
    rw [hr.node hy'] at hbit
    rw [hlast]
    refine (h.clear hy' hbit hb').mono (fun _ h0 ↦ by rw [hr.value hy' hb', h0])
      fun hleaf h0 ↦ ?_
    rw [hr.node (hy'.child hb' hleaf), h0]

theorem sameContent (hr : t.SameReads t') : t.SameContent t' := by
  refine ⟨hr.numLevels, fun e hq ↦ content_congr hr.numLevels (by omega) fun v _ ↦ ?_⟩
  constructor
  · rintro ⟨y, b, hy, hb, rfl⟩
    obtain ⟨hy', hb'⟩ := hr.children_iff.mp ⟨hy, hb⟩
    exact ⟨y, b, hy', hb', (hr.value hy' hb' _).symm⟩
  · rintro ⟨y, b, hy, hb, rfl⟩
    obtain ⟨hy', hb'⟩ := hr.children_iff.mpr ⟨hy, hb⟩
    exact ⟨y, b, hy', hb', hr.value hy hb _⟩

theorem hasBit_iff (hr : t.SameReads t') (q : List (BitVec 8)) (e : BitVec 8) :
    t'.HasBit q e ↔ t.HasBit q e := by
  refine exists_congr fun y ↦ ?_
  rw [hr.at_iff]
  exact and_congr_right fun hy ↦ by rw [hr.node hy]

end SameReads

namespace Sound

theorem alloc_failed (h : t.Sound live) (leaf : Bool) {m : Memory Block}
    (hl : m.live = t.memory.live) (hu : Unchanged t.memory m) :
    (t.withPool leaf (t.pool leaf) m).Sound live ∧
      t.SameContent (t.withPool leaf (t.pool leaf) m) ∧
      ∀ q e, (t.withPool leaf (t.pool leaf) m).HasBit q e ↔ t.HasBit q e := by
  have hreads : t.SameReads (t.withPool leaf (t.pool leaf) m) :=
    ⟨withPool_numLevels .., fun hy ↦ h.node_unchanged hu _ _ hy,
      fun hy hb c ↦ h.value_unchanged hu _ _ hy hb c⟩
  exact ⟨hreads.sound h (h.toPoolsSound.alloc_failed leaf hl hu), hreads.sameContent,
    hreads.hasBit_iff⟩

/-- The tree of a successful allocation, with the two writes that follow it. -/
theorem linked (h : t.Sound live) {p : List (BitVec 8)} {x : NodePtr} (hx : t.At p x)
    {d : BitVec 8} {a : ℕ} {pool : ObjectPool} {m : Memory Block}
    (ha : Allocated (t.pool (t.isLast p)) t.memory (live (t.isLast p)) a pool m) :
    Linked t ((t.withPool (t.isLast p) pool m).setNode x
      ⟨(t.node x).bits.set d, Function.update (t.node x).children (hi d) (some a)⟩)
      live p x d a := by
  have hnot := h.toPoolsSound.alloc_not_live ha
  have hsame : ∀ {q y}, t.At q y → (t.withPool (t.isLast p) pool m).node y = t.node y :=
    fun hy ↦ h.node_unchanged ha.unchanged _ _ hy
  have hxa : ∀ c, NodePtr.item a c ≠ x := by
    rintro c rfl
    exact hnot false (h.node_live hx)
  refine ⟨by simp, by simpa [withPool] using ha.failures, ?_, hnot, node_setNode_self .., ?_, ?_,
    fun c ↦ ?_⟩
  · refine (h.toPoolsSound.alloc ha).setNode (fun b i hxi ↦ ?_) _
    have hb := h.node_live (hxi ▸ hx)
    by_cases hleaf : false = t.isLast p
    · rw [hleaf, Function.update_self, ← hleaf]
      exact List.mem_cons_of_mem _ hb
    · rwa [Function.update_of_ne hleaf]
  · intro q y hy hyx
    rw [node_setNode_of_ne _ hyx, hsame hy]
  · intro q y i b hy hb c
    rw [value_setNode]
    exact h.value_unchanged ha.unchanged _ _ hy hb c
  · have hblank : Blank (t.isLast p) (m.cell a) := (ha.free _ (blank_zero _) (h.blank _)).1
    rw [SlotZero, value_setNode, node_setNode_of_ne _ (hxa c)]
    exact hblank c

end Sound

structure Entered (t t' : WideRadixTree) (p : List (BitVec 8)) (x : NodePtr) (d : BitVec 8)
    (b : ℕ) : Prop extends SameContent t t' where
  failures : t'.memory.failures = t.memory.failures
  hasBit : ∀ q e, t'.HasBit q e ↔ t.HasBit q e ∨ q = p ∧ e = d
  at_self : t'.At p x
  child : (t'.node x).children (hi d) = some b

theorem enter_failed (A : Allocator) (h : t.Sound live) {p : List (BitVec 8)} {x : NodePtr}
    (hx : t.At p x) {d : BitVec 8} (hb : (t.node x).children (hi d) = none)
    (hfail : (objectPoolAlloc A (t.pool (t.isLast p)) t.memory).1 = none) :
    ∃ t', t.enter A x d (t.isLast p) = (none, t') ∧ t'.Sound live ∧ t.SameContent t' ∧
      (∀ q e, t'.HasBit q e ↔ t.HasBit q e) ∧ t.memory.failures < t'.memory.failures := by
  obtain ⟨m, hrun, -, -, hfl, hl, hu⟩ | ⟨a, pool, m, hrun, -⟩ :=
    objectPoolAlloc_cases A (h.pools (t.isLast p))
  · obtain ⟨hs, hsame, hbits⟩ := h.alloc_failed (t.isLast p) hl hu
    refine ⟨t.withPool (t.isLast p) (t.pool (t.isLast p)) m, ?_, hs, hsame, hbits, hfl⟩
    have hnode : (t.withPool (t.isLast p) (t.pool (t.isLast p)) m).node x = t.node x :=
      h.node_unchanged hu _ _ hx
    have hnull : ((t.withPool (t.isLast p) (t.pool (t.isLast p)) m).node x).children (hi d) =
        none := by rw [hnode, hb]
    rw [withPool] at hnull
    simp only [enter, hb, hrun, hnull]
    rfl
  · rw [hrun] at hfail
    cases hfail

theorem enter_cases (A : Allocator) (h : t.Sound live) {p : List (BitVec 8)} {x : NodePtr}
    (hx : t.At p x) (d : BitVec 8) (hpath : ∀ q e, q ++ [e] = p → t.HasBit q e) :
    (∃ t', t.enter A x d (t.isLast p) = (none, t') ∧ t'.Sound live ∧ t.SameContent t' ∧
      t.memory.failures < t'.memory.failures) ∨
    (∃ b t' live', t.enter A x d (t.isLast p) = (some b, t') ∧ t'.Sound live' ∧
      Entered t t' p x d b) := by
  cases hb : (t.node x).children (hi d) with
  | some b =>
    obtain ⟨hcontent, hbits, hat⟩ := h.setBits_content hx ((t.node x).bits.set d)
    refine .inr ⟨b, t.setNode x { t.node x with bits := (t.node x).bits.set d }, live, ?_,
      h.setBit hx hb, ⟨⟨by simp, fun {q} e _ ↦ hcontent q e⟩, by simp, fun q e ↦ ?_,
        (hat p x).mpr hx, ?_⟩⟩
    · simp only [enter, hb]
    · rw [hbits]
      split_ifs with hq
      · rw [hq, hx.hasBit, Mask.has_set, or_comm]
        simp
      · simp [hq]
    · rw [node_setNode_self, ← hb]
  | none =>
    obtain ⟨m, hfail, -⟩ | ⟨a, pool, m, hok, ha⟩ :=
      objectPoolAlloc_cases A (h.pools (t.isLast p))
    · obtain ⟨t', hrun, hs, hsame, -, hfl⟩ := enter_failed A h hx hb (by rw [hfail])
      exact .inl ⟨t', hrun, hs, hsame, hfl⟩
    · have hlink := h.linked hx (d := d) ha
      refine .inr ⟨a, _, _, ?_, hlink.sound h hx hb hpath, ⟨⟨hlink.numLevels, fun {q} e hq ↦
        hlink.content_eq h hx hb e hq⟩, hlink.failures, hlink.hasBit_iff h hx hb,
        (hlink.at_iff h hx hb p x).mpr (.inl hx), ?_⟩⟩
      · have hnode : (t.withPool (t.isLast p) pool m).node x = t.node x :=
          h.node_unchanged ha.unchanged _ _ hx
        rw [withPool] at hnode
        simp only [enter, hb, hok, node_setNode_self, Function.update_self, hnode, setNode_setNode]
        rfl
      · rw [node_setNode_self]
        exact Function.update_self ..

end WideRadixTree

end RadixBench.RadixNew
