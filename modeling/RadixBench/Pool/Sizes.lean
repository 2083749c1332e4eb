import Mathlib.Algebra.GroupWithZero.Nat
import RadixBench.Pool.Operations

namespace RadixBench.Pool

open Foundation Memory ObjectPoolBlock

variable {C : Type} [Zero C]

/-- The elements of an array of `n` elements of `size` bytes at `base`, at addresses that are
computed without wrapping around, lie inside the region `r`. -/
def ArrayInside (base size n : ℕ) (r : Region) : Prop :=
  ∀ i < n, r.base ≤ base + i * size ∧ base + (i + 1) * size ≤ r.base + r.size

/-- The two arrays of the block `b` lie inside the regions that were requested for them, which
are the last two regions of the memory `m`. -/
def Requested (b : ObjectPoolBlock) (m : Memory C) : Prop :=
  ∃ objects list rest, m.live = list :: objects :: rest ∧ objects.base = b.pool ∧
    ArrayInside b.pool b.objectSize b.capacity objects ∧
    ArrayInside list.base sizeofPointer b.capacity list

theorem le_wrap_iff {n : ℕ} : n ≤ wrap n ↔ n < 2 ^ 64 := by
  constructor
  · exact fun h ↦ h.trans_lt (Nat.mod_lt n (Nat.two_pow_pos 64))
  · exact fun h ↦ (wrap_of_lt h).ge

theorem arrayInside_iff {base size n : ℕ} :
    ArrayInside base size n ⟨base, wrap (size * n)⟩ ↔ size * n < 2 ^ 64 := by
  rw [← le_wrap_iff]
  constructor
  · intro h
    cases n with
    | zero => exact Nat.zero_le _
    | succ n =>
      have hlast := (h n (Nat.lt_succ_self n)).2
      dsimp only at hlast
      rw [Nat.mul_comm size]
      rw [Nat.mul_comm size] at hlast
      omega
  · intro h i hi
    have hle := Nat.mul_le_mul_left size (Nat.succ_le_of_lt hi)
    rw [Nat.mul_comm size (i + 1)] at hle
    dsimp only
    omega

theorem requested_iff {A : Allocator} {m m' : Memory C} {objectSize capacity : ℕ}
    {b : ObjectPoolBlock} (h : createNewPool A m objectSize capacity = (some b, m')) :
    Requested b m' ↔ Fits objectSize capacity := by
  obtain ⟨range, hcreated⟩ := createNewPool_some h
  obtain ⟨block, list, hlive⟩ := hcreated.live
  have hsize : b.objectSize = objectSize := by rw [hcreated.block_eq]
  have hcap : b.capacity = capacity := by rw [hcreated.block_eq]
  have hobjects : ArrayInside b.pool objectSize capacity range ↔ objectSize * capacity < 2 ^ 64 := by
    obtain ⟨base, size⟩ := range
    obtain rfl : base = b.pool := hcreated.base
    obtain rfl : size = wrap (objectSize * capacity) := hcreated.size
    exact arrayInside_iff
  constructor
  · rintro ⟨objects, r, rest, hlive', -, hinside, hlist⟩
    obtain ⟨rfl, htail⟩ := List.cons.inj (hlive'.symm.trans hlive)
    obtain ⟨rfl, -⟩ := List.cons.inj htail
    rw [hsize, hcap, hobjects] at hinside
    rw [hcap, arrayInside_iff] at hlist
    exact ⟨hinside, hlist⟩
  · rintro ⟨hinside, hlist⟩
    refine ⟨_, _, _, hlive, hcreated.base, ?_, ?_⟩
    · rw [hsize, hcap, hobjects]
      exact hinside
    · rw [hcap, arrayInside_iff]
      exact hlist

def ObjectPoolBlock.shape (b : ObjectPoolBlock) : ℕ × ℕ × ℕ := (b.pool, b.objectSize, b.capacity)

omit [Zero C] in
theorem Requested.congr {b b' : ObjectPoolBlock} {m : Memory C} (h : Requested b m)
    (hshape : b'.shape = b.shape) : Requested b' m := by
  obtain ⟨hpool, hrest⟩ := Prod.mk.inj hshape
  obtain ⟨hsize, hcap⟩ := Prod.mk.inj hrest
  rw [Requested, hpool, hsize, hcap]
  exact h

theorem map_shape_set {pools : List ObjectPoolBlock} {i : ℕ} {b b' : ObjectPoolBlock}
    (hb : pools[i]? = some b) (hshape : b'.shape = b.shape) :
    (pools.set i b').map shape = pools.map shape := by
  obtain ⟨pre, post, rfl, hset⟩ := split_at hb
  rw [hset, List.map_append, List.map_append, List.map_cons, List.map_cons, hshape]

theorem take_shapes (pool : ObjectPool) (i : ℕ) :
    (pool.take i).2.pools.map shape = pool.pools.map shape := by
  rw [ObjectPool.take]
  cases hb : pool.pools[i]? with
  | none => rfl
  | some b =>
    dsimp only
    split_ifs
    · rfl
    · exact map_shape_set hb rfl
    · exact map_shape_set hb rfl

theorem objectPoolFree_shapes (pool : ObjectPool) (a : ℕ) :
    (objectPoolFree pool a).pools.map shape = pool.pools.map shape := by
  rw [objectPoolFree]
  cases pool.pools.findIdx? (fun b ↦ b.pool ≤ a ∧ a < b.limit) with
  | none => rfl
  | some i =>
    dsimp only
    cases hb : pool.pools[i]? with
    | none => rfl
    | some b =>
      dsimp only
      split_ifs
      · exact map_shape_set hb rfl
      · rfl

/-- An allocation takes an object from a block with a free one. If there is none, it fails, or it
takes the object from a new block. -/
theorem objectPoolAlloc_inv {A : Allocator} {pool pool' : ObjectPool} {m m' : Memory C}
    {r : Option ℕ} (h : objectPoolAlloc A pool m = (r, pool', m')) :
    (∃ i, pool.poolToUse = some i ∧ { pool with currentPool := some i }.take i = (r, pool') ∧
      m' = m) ∨
    pool.poolToUse = none ∧
      (createNewPool A m pool.objectSize (wrap (pool.initialCapacity * 2)) = (none, m') ∧
          r = none ∧ pool' = pool ∨
        ∃ b, createNewPool A m pool.objectSize (wrap (pool.initialCapacity * 2)) = (some b, m') ∧
          { pool with pools := pool.pools ++ [b], currentPool := some pool.pools.length }.take
            pool.pools.length = (r, pool')) := by
  rw [objectPoolAlloc] at h
  cases hu : pool.poolToUse with
  | some i =>
    simp only [hu] at h
    obtain ⟨rfl, rfl, rfl⟩ : _ = r ∧ _ = pool' ∧ m = m' := by simpa using h
    exact .inl ⟨i, rfl, rfl, rfl⟩
  | none =>
    simp only [hu] at h
    cases hnew : createNewPool A m pool.objectSize (wrap (pool.initialCapacity * 2)) with
    | mk b m₁ =>
      rw [hnew] at h
      cases b with
      | none =>
        obtain ⟨rfl, rfl, rfl⟩ : none = r ∧ pool = pool' ∧ m₁ = m' := by simpa using h
        exact .inr ⟨rfl, .inl ⟨rfl, rfl, rfl⟩⟩
      | some b =>
        obtain ⟨rfl, rfl, rfl⟩ : _ = r ∧ _ = pool' ∧ m₁ = m' := by simpa using h
        exact .inr ⟨rfl, .inr ⟨b, rfl, rfl⟩⟩

theorem objectPoolAlloc_shapes {A : Allocator} {pool pool' : ObjectPool} {m m' : Memory C}
    {r : Option ℕ} (h : objectPoolAlloc A pool m = (r, pool', m')) :
    pool'.pools.map shape = pool.pools.map shape ∧ (pool.poolToUse = none → r = none) ∨
    pool.poolToUse = none ∧ ∃ b,
      createNewPool A m pool.objectSize (wrap (pool.initialCapacity * 2)) = (some b, m') ∧
      pool'.pools.map shape = pool.pools.map shape ++ [b.shape] := by
  obtain ⟨i, hu, htake, -⟩ | ⟨hu, ⟨-, hr, rfl⟩ | ⟨b, hnew, htake⟩⟩ := objectPoolAlloc_inv h
  · have hshapes := take_shapes { pool with currentPool := some i } i
    rw [htake] at hshapes
    exact .inl ⟨hshapes, fun hnone ↦ absurd (hnone.symm.trans hu) (Option.some_ne_none i).symm⟩
  · exact .inl ⟨rfl, fun _ ↦ hr⟩
  · have hshapes := take_shapes
      { pool with pools := pool.pools ++ [b], currentPool := some pool.pools.length }
      pool.pools.length
    rw [htake] at hshapes
    refine .inr ⟨hu, b, hnew, hshapes.trans ?_⟩
    rw [List.map_append, List.map_singleton]

theorem objectPoolInit_block {A : Allocator} {objectSize capacity : ℕ} {pool : ObjectPool}
    {m m' : Memory C} (h : objectPoolInit A m objectSize capacity = (0, some pool, m')) :
    ∃ b, createNewPool A m objectSize capacity = (some b, m') ∧ pool.pools = [b] := by
  rw [objectPoolInit] at h
  split_ifs at h with hzero
  · cases h
  cases hnew : createNewPool A m objectSize capacity with
  | mk b m₁ =>
    rw [hnew] at h
    cases b with
    | none => cases h
    | some b =>
      cases h
      exact ⟨b, rfl, rfl⟩

/-- The arrays of a block lie inside the regions that they were requested in exactly when the sizes
of the two requests did not wrap around, for the first block of a pool and for the later ones. -/
theorem objectPool_requested_iff (A : Allocator) :
    (∀ (objectSize capacity : ℕ) (m m' : Memory C) (pool : ObjectPool),
      objectPoolInit A m objectSize capacity = (0, some pool, m') →
      ∃ b, pool.pools = [b] ∧ b.capacity = capacity ∧
        (Requested b m' ↔ Fits objectSize capacity)) ∧
    ∀ (pool pool' : ObjectPool) (m m' : Memory C) (r : Option ℕ),
      objectPoolAlloc A pool m = (r, pool', m') → pool.pools.length < pool'.pools.length →
      ∃ b, pool'.pools.getLast? = some b ∧ b.capacity = wrap (pool.initialCapacity * 2) ∧
        (Requested b m' ↔ Fits pool.objectSize (wrap (pool.initialCapacity * 2))) := by
  refine ⟨fun objectSize capacity m m' pool h ↦ ?_, fun pool pool' m m' r h hlength ↦ ?_⟩
  · obtain ⟨b, hnew, hpools⟩ := objectPoolInit_block h
    obtain ⟨range, hcreated⟩ := createNewPool_some hnew
    exact ⟨b, hpools, by rw [hcreated.block_eq], requested_iff hnew⟩
  · obtain ⟨hsame, -⟩ | ⟨-, b, hnew, hshapes⟩ := objectPoolAlloc_shapes h
    · have hlength' := congrArg List.length hsame
      rw [List.length_map, List.length_map] at hlength'
      omega
    · have hlast := congrArg List.getLast? hshapes
      rw [List.getLast?_map, List.getLast?_concat, Option.map_eq_some_iff] at hlast
      obtain ⟨b', hb', hshape⟩ := hlast
      obtain ⟨range, hcreated⟩ := createNewPool_some hnew
      have hcap : b'.capacity = b.capacity := congrArg (fun x ↦ x.2.2) hshape
      refine ⟨b', hb', hcap.trans (by rw [hcreated.block_eq]), Iff.trans ?_ (requested_iff hnew)⟩
      exact ⟨fun hr ↦ hr.congr hshape.symm, fun hr ↦ hr.congr hshape⟩

theorem objectPool_requested_iff_five : ∃ pool m' b,
    objectPoolInit bumpAllocator (Memory.empty : Memory ℕ) 8 5 = (0, some pool, m') ∧
      pool.pools = [b] ∧ (Requested b m' ↔ Fits 8 5) := by
  obtain ⟨b, hb, -, hiff⟩ :=
    (objectPool_requested_iff (C := ℕ) bumpAllocator).1 8 5 Memory.empty _ _ rfl
  exact ⟨_, _, b, rfl, hb, hiff⟩

/-- For two objects of `2 ^ 63 + 4` bytes 8 bytes are requested. -/
theorem objectPoolInit_wraps : ∃ pool m' b,
    objectPoolInit bumpAllocator (Memory.empty : Memory ℕ) (2 ^ 63 + 4) 2 = (0, some pool, m') ∧
      pool.pools = [b] ∧ b.capacity = 2 ∧ m'.live.map Region.size = [16, 8, 56] ∧
      ¬ Requested b m' := by
  have hnew : createNewPool bumpAllocator (Memory.empty : Memory ℕ) (2 ^ 63 + 4) 2 = (some _, _) :=
    rfl
  refine ⟨_, _, _, rfl, rfl, rfl, rfl, ?_⟩
  rw [requested_iff hnew]
  decide

end RadixBench.Pool
