import RadixBench.Pool.Runs
import RadixBench.Pool.Sizes

namespace RadixBench.Pool

open Foundation Memory ObjectPoolBlock

variable {C : Type} {pool pool' : ObjectPool} {m m' : Memory C} {live : List ℕ}

namespace ObjectPoolBlock

variable {b : ObjectPoolBlock}

def range (b : ObjectPoolBlock) : Region := ⟨b.pool, wrap (b.capacity * b.objectSize)⟩

def Holds (b : ObjectPoolBlock) (a : ℕ) : Prop := b.pool ≤ a ∧ a < b.limit

instance (b : ObjectPoolBlock) (a : ℕ) : Decidable (b.Holds a) :=
  inferInstanceAs (Decidable (_ ∧ _))

theorem holds_iff (h : b.range.base + b.range.size < 2 ^ 64) (a : ℕ) :
    b.Holds a ↔ b.range.Contains a := by
  have hlimit : b.limit = b.range.base + b.range.size := wrap_of_lt h
  rw [Holds, hlimit]
  rfl

end ObjectPoolBlock

/-- What holds of the blocks of a pool whatever their sizes are. -/
structure Ranged (pool : ObjectPool) (m : Memory C) : Prop where
  fits : ∀ r ∈ pool.pools.map range, r.base + r.size < 2 ^ 64
  live : ∀ r ∈ pool.pools.map range, r ∈ m.live
  disjoint : (pool.pools.map range).Pairwise Region.Disjoint
  top_le : ∀ b ∈ pool.pools, b.freeListTop ≤ b.capacity

theorem ranges_eq {pools pools' : List ObjectPoolBlock}
    (h : pools'.map shape = pools.map shape) : pools'.map range = pools.map range := by
  have hmap := congrArg (List.map fun x : ℕ × ℕ × ℕ ↦ Region.mk x.1 (wrap (x.2.2 * x.2.1))) h
  rwa [List.map_map, List.map_map] at hmap

theorem Ranged.of_shapes (h : Ranged pool m) (hshapes : pool'.pools.map shape = pool.pools.map shape)
    (hlive : m.live ⊆ m'.live) (htop : ∀ b ∈ pool'.pools, b.freeListTop ≤ b.capacity) :
    Ranged pool' m' := by
  have hranges := ranges_eq hshapes
  exact ⟨hranges ▸ h.fits, fun r hr ↦ hlive (h.live r (hranges ▸ hr)), hranges ▸ h.disjoint, htop⟩

theorem take_top_le (h : ∀ b ∈ pool.pools, b.freeListTop ≤ b.capacity) (i : ℕ) :
    ∀ b ∈ (pool.take i).2.pools, b.freeListTop ≤ b.capacity := by
  rw [ObjectPool.take]
  cases hb : pool.pools[i]? with
  | none => exact h
  | some b =>
    have hle := h b (List.mem_of_getElem? hb)
    dsimp only
    split_ifs
    · exact h
    · intro c hc
      rcases List.mem_or_eq_of_mem_set hc with hc | rfl
      · exact h c hc
      · exact (Nat.sub_le _ _).trans hle
    · intro c hc
      rcases List.mem_or_eq_of_mem_set hc with hc | rfl
      · exact h c hc
      · exact (Nat.sub_le _ _).trans hle

theorem Ranged.take (h : Ranged pool m) (i : ℕ) : Ranged (pool.take i).2 m :=
  h.of_shapes (take_shapes pool i) (fun _ hr ↦ hr) (take_top_le h.top_le i)

theorem Ranged.free (h : Ranged pool m) (a : ℕ) : Ranged (objectPoolFree pool a) m := by
  refine h.of_shapes (objectPoolFree_shapes pool a) (fun _ hr ↦ hr) ?_
  rw [objectPoolFree]
  cases pool.pools.findIdx? (fun b ↦ b.pool ≤ a ∧ a < b.limit) with
  | none => exact h.top_le
  | some i =>
    dsimp only
    cases hb : pool.pools[i]? with
    | none => exact h.top_le
    | some b =>
      dsimp only
      split_ifs with hlt
      · intro c hc
        rcases List.mem_or_eq_of_mem_set hc with hc | rfl
        · exact h.top_le c hc
        · exact hlt
      · exact h.top_le

/-- The test finds at most one block, which takes the object back unless all of its objects are
free. -/
theorem Ranged.free_eq_iff (h : Ranged pool m) (a : ℕ) : objectPoolFree pool a = pool ↔
    ∀ b ∈ pool.pools, b.Holds a → b.freeListTop = b.capacity := by
  rw [objectPoolFree]
  cases hi : pool.pools.findIdx? (fun b ↦ b.pool ≤ a ∧ a < b.limit) with
  | none =>
    refine iff_of_true rfl fun b hb hholds ↦ ?_
    exact absurd hholds (of_decide_eq_false (List.findIdx?_eq_none_iff.mp hi b hb))
  | some i =>
    obtain ⟨hlt, hholds, -⟩ := List.findIdx?_eq_some_iff_getElem.mp hi
    have hget : pool.pools[i]? = some pool.pools[i] := List.getElem?_eq_getElem hlt
    have hholds : pool.pools[i].Holds a := of_decide_eq_true hholds
    dsimp only
    rw [hget]
    dsimp only
    by_cases htop : pool.pools[i].freeListTop < pool.pools[i].capacity
    · rw [if_pos htop]
      refine iff_of_false (fun heq ↦ ?_) fun hall ↦ ?_
      · have hblock := congrArg (fun p : ObjectPool ↦ p.pools[i]?.map freeListTop) heq
        simp [ObjectPool.setBlock, hlt] at hblock
      · exact htop.ne (hall _ (List.getElem_mem hlt) hholds)
    · rw [if_neg htop]
      refine iff_of_true rfl fun b hb hb' ↦ ?_
      have hle := h.top_le _ (List.getElem_mem hlt)
      obtain rfl : b = pool.pools[i] := by
        by_contra hne
        have hfits : ∀ c ∈ pool.pools, c.range.base + c.range.size < 2 ^ 64 := fun c hc ↦
          h.fits _ (List.mem_map_of_mem hc)
        have hsymm : Std.Symm fun b c : ObjectPoolBlock ↦ b.range.Disjoint c.range :=
          ⟨fun _ _ hbc ↦ hbc.symm⟩
        have hdis := (List.pairwise_map.mp h.disjoint).forall hb (List.getElem_mem hlt) hne
        exact hdis.not_contains ((holds_iff (hfits b hb) a).mp hb')
          ((holds_iff (hfits _ (List.getElem_mem hlt)) a).mp hholds)
      omega

section

variable [Zero C] {A : Allocator} {objectSize capacity : ℕ}

theorem Ranged.append (h : Ranged pool m) {b : ObjectPoolBlock} {r : Region} (current : Option ℕ)
    (hcreated : Created b objectSize capacity r m m') :
    Ranged { pool with pools := pool.pools ++ [b], currentPool := current } m' := by
  have hrange : b.range = r := by
    obtain ⟨base, size⟩ := r
    obtain rfl : base = b.pool := hcreated.base
    obtain rfl : size = wrap (objectSize * capacity) := hcreated.size
    rw [range, hcreated.block_eq, Nat.mul_comm]
  have hmap : (pool.pools ++ [b]).map range = pool.pools.map range ++ [r] := by
    rw [List.map_append, List.map_singleton, hrange]
  obtain ⟨block, list, hlive⟩ := hcreated.live
  refine ⟨?_, ?_, ?_, fun c hc ↦ ?_⟩
  · dsimp only
    rw [hmap]
    intro r' hr'
    rcases List.mem_append.mp hr' with hr' | hr'
    · exact h.fits r' hr'
    · rw [List.mem_singleton.mp hr']
      exact hcreated.fits
  · dsimp only
    rw [hmap]
    intro r' hr'
    rcases List.mem_append.mp hr' with hr' | hr'
    · exact hcreated.unchanged.live (h.live r' hr')
    · rw [List.mem_singleton.mp hr', hlive]
      simp
  · dsimp only
    rw [hmap]
    refine List.pairwise_append.mpr ⟨h.disjoint, List.pairwise_singleton _ _, fun r' hr' r'' hr'' ↦ ?_⟩
    rw [List.mem_singleton.mp hr'']
    exact (hcreated.apart r' (h.live r' hr')).symm
  · rcases List.mem_append.mp hc with hc | hc
    · exact h.top_le c hc
    · rw [List.mem_singleton.mp hc, hcreated.block_eq]

theorem Ranged.alloc (h : Ranged pool m) {r : Option ℕ}
    (hrun : objectPoolAlloc A pool m = (r, pool', m')) : Ranged pool' m' := by
  obtain ⟨i, -, htake, rfl⟩ | ⟨-, ⟨hnew, -, rfl⟩ | ⟨b, hnew, htake⟩⟩ := objectPoolAlloc_inv hrun
  · have hpool : Ranged { pool with currentPool := some i } m' := ⟨h.1, h.2, h.3, h.4⟩
    have htaken := hpool.take i
    rwa [htake] at htaken
  · exact h.of_shapes rfl (createNewPool_none hnew).2.2.live h.top_le
  · obtain ⟨range, hcreated⟩ := createNewPool_some hnew
    have htaken := (h.append (some pool.pools.length) hcreated).take pool.pools.length
    rwa [htake] at htaken

theorem objectPoolInit_ranged {r : ℤ}
    (h : objectPoolInit A m objectSize capacity = (r, some pool, m')) : Ranged pool m' := by
  have hempty : ∀ m : Memory C, Ranged ⟨objectSize, capacity, [], none⟩ m := fun m ↦
    ⟨by simp, by simp, by simp, by simp⟩
  rw [objectPoolInit] at h
  split_ifs at h with hzero
  · cases h
  cases hnew : createNewPool A m objectSize capacity with
  | mk b m₁ =>
    rw [hnew] at h
    cases b with
    | none =>
      cases h
      exact hempty m'
    | some b =>
      cases h
      obtain ⟨range, hcreated⟩ := createNewPool_some hnew
      exact (hempty m).append (some 0) hcreated

theorem poolStep_ranged {s : PoolState C} (op : PoolOp) (h : Ranged s.pool s.memory) :
    ∃ s', poolStep A s op = .ok s' ∧ Ranged s'.pool s'.memory := by
  cases op with
  | alloc =>
    cases hrun : objectPoolAlloc A s.pool s.memory with
    | mk r rest =>
      obtain ⟨pool', m'⟩ := rest
      rw [poolStep, hrun]
      cases r with
      | none => exact ⟨_, rfl, h.alloc hrun⟩
      | some a => exact ⟨_, rfl, h.alloc hrun⟩
  | free a => exact ⟨_, rfl, h.free a⟩

theorem PoolReachable.ranged {s : PoolState C} (h : PoolReachable A objectSize capacity s) :
    Ranged s.pool s.memory :=
  Reachable.invariant_of_returns (I := fun s : PoolState C ↦ Ranged s.pool s.memory)
    (fun _ ⟨_, _, hinit, _⟩ ↦ objectPoolInit_ranged hinit)
    (fun _ op hr _ ↦ poolStep_ranged op hr) h

end

theorem Sound.full_iff (h : Sound pool m live) {b : ObjectPoolBlock} (hb : b ∈ pool.pools) :
    b.freeListTop = b.capacity ↔ ∀ a ∈ live, ¬ b.region.Contains a := by
  have hcount := (h.wellFormed b hb).count
  have hused := h.used_eq hb
  have hzero : b.used = 0 ↔ ∀ a ∈ live, ¬ b.region.Contains a := by
    rw [hused, List.length_eq_zero_iff, List.filter_eq_nil_iff]
    simp only [decide_eq_true_iff]
  rw [← hzero]
  omega

/-- In every state of every run, `objectPoolFree` ignores a pointer exactly when the block that
holds it, if any, has all of its objects on the free list. As long as the sizes of the blocks do
not wrap around, this says that no live object is in that block. -/
theorem objectPoolFree_ignores_iff [Zero C] {A : Allocator} {objectSize capacity : ℕ}
    {s : PoolState C} (h : PoolReachable A objectSize capacity s) (obj : ℕ) :
    (objectPoolFree s.pool obj = s.pool ↔
      ∀ b ∈ s.pool.pools, b.Holds obj → b.freeListTop = b.capacity) ∧
    (Fits objectSize (2 * capacity) → ∀ b ∈ s.pool.pools,
      (b.freeListTop = b.capacity ↔ ∀ a ∈ s.live, ¬ b.region.Contains a)) :=
  ⟨h.ranged.free_eq_iff obj, fun hfits _ hb ↦
    (PoolReachable.invariant hfits.1 hfits.2 h).1.sound.full_iff hb⟩

theorem objectPoolFree_ignores_iff_two : ∃ s : PoolState ℕ, s.live.length = 2 ∧
    (objectPoolFree s.pool 7 = s.pool ↔
      ∀ b ∈ s.pool.pools, b.Holds 7 → b.freeListTop = b.capacity) := by
  have h₀ : PoolReachable (C := ℕ) bumpAllocator 8 5 ⟨_, _, []⟩ := .init ⟨Memory.empty, 0, rfl, rfl⟩
  have h₁ := h₀.step (l := .alloc) (by simp [PoolLegal]) rfl
  have h₂ := h₁.step (l := .alloc) (by simp [PoolLegal]) rfl
  exact ⟨_, rfl, (objectPoolFree_ignores_iff h₂ 7).1⟩

/-- Two objects are handed out and the first one is freed. When it is freed again, the next two
allocations both hand it out. -/
theorem objectPoolFree_twice : ∃ s : PoolState ℕ, PoolReachable bumpAllocator 8 5 s ∧
    90 ∉ s.live ∧ objectPoolFree s.pool 90 ≠ s.pool ∧
    ∃ pool m pool' m',
      objectPoolAlloc bumpAllocator (objectPoolFree s.pool 90) s.memory = (some 90, pool, m) ∧
      objectPoolAlloc bumpAllocator pool m = (some 90, pool', m') := by
  have h₀ : PoolReachable (C := ℕ) bumpAllocator 8 5 ⟨_, _, []⟩ := .init ⟨Memory.empty, 0, rfl, rfl⟩
  have h₁ := h₀.step (l := .alloc) (by simp [PoolLegal]) rfl
  have h₂ := h₁.step (l := .alloc) (by simp [PoolLegal]) rfl
  have h₃ := h₂.step (l := .free 90) (by simp only [PoolLegal]; decide +kernel) rfl
  refine ⟨_, h₃, by decide +kernel, fun heq ↦ ?_, _, _, _, _, rfl, rfl⟩
  have hfull := ((PoolReachable.ranged h₃).free_eq_iff 90).mp heq
  revert hfull
  decide +kernel

end RadixBench.Pool
