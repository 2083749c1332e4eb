import Mathlib.Algebra.GroupWithZero.Nat
import RadixBench.Pool.Operations
import RadixBench.Foundation.Execution

namespace RadixBench.Pool

open Foundation Memory ObjectPoolBlock

variable {C : Type} [Zero C]

inductive PoolOp
  | alloc
  | free (obj : ℕ)

structure PoolState (C : Type) where
  pool : ObjectPool
  memory : Memory C
  live : List ℕ

def poolStep (A : Allocator) (s : PoolState C) : PoolOp → Exec (PoolState C)
  | .alloc =>
    match objectPoolAlloc A s.pool s.memory with
    | (none, pool, memory) => .ok ⟨pool, memory, s.live⟩
    | (some obj, pool, memory) => .ok ⟨pool, memory, obj :: s.live⟩
  | .free obj => .ok ⟨objectPoolFree s.pool obj, s.memory, s.live.erase obj⟩

def PoolLegal (s : PoolState C) : PoolOp → Prop
  | .alloc => True
  | .free obj => obj ∈ s.live

/-- The pools that `objectPoolInit` leaves behind, also when an allocation failed. -/
def PoolInitial (A : Allocator) (objectSize initialCapacity : ℕ) (s : PoolState C) : Prop :=
  ∃ m r, objectPoolInit A m objectSize initialCapacity = (r, some s.pool, s.memory) ∧ s.live = []

abbrev PoolReachable (A : Allocator) (objectSize initialCapacity : ℕ) :=
  Reachable (PoolInitial (C := C) A objectSize initialCapacity) PoolLegal (poolStep A)

theorem objectPoolInit_sound (A : Allocator) (m : Memory C) {objectSize capacity : ℕ}
    (hfits : Fits objectSize capacity) {r : ℤ} {pool : ObjectPool} {m' : Memory C}
    (h : objectPoolInit A m objectSize capacity = (r, some pool, m')) :
    Sound pool m' [] ∧ (∀ Z : C → Prop, Z 0 → FreeAll Z pool m') ∧ Unchanged m m' ∧
      pool.objectSize = objectSize ∧ pool.initialCapacity = capacity ∧
      ∀ b ∈ pool.pools, ∀ r ∈ m.live, b.region.Disjoint r := by
  rw [objectPoolInit] at h
  split_ifs at h with hzero
  · cases h
  obtain ⟨hsize, hcap⟩ := not_or.mp hzero
  have hsize := Nat.pos_of_ne_zero hsize
  have hempty : ∀ m : Memory C, Sound ⟨objectSize, capacity, [], none⟩ m [] := fun m ↦
    ⟨hsize, Nat.pos_of_ne_zero hcap, by simp, by simp, by simp, by simp, by simp, by simp⟩
  obtain ⟨m₁, hnew, -, -, hsame⟩ | ⟨b, m₁, hnew, -, hfresh, hsame⟩ :=
    createNewPool_cases A m hsize hfits
  · rw [hnew] at h
    cases h
    exact ⟨hempty m', by simp [FreeAll], hsame, rfl, rfl, by simp⟩
  · rw [hnew] at h
    cases h
    have hsound := (hempty m).append (some 0) hfresh hsame
    refine ⟨hsound, fun Z h0 ↦ ?_, hsame, rfl, rfl, ?_⟩
    · exact FreeAll.append h0 (some 0) (hempty m) (by simp [FreeAll]) hfresh hsame
    · simpa using hfresh.apart

theorem Fits.mono {objectSize capacity capacity' : ℕ} (h : Fits objectSize capacity')
    (hle : capacity ≤ capacity') : Fits objectSize capacity :=
  ⟨(Nat.mul_le_mul_left objectSize hle).trans_lt h.1,
    (Nat.mul_le_mul_left sizeofPointer hle).trans_lt h.2⟩

theorem objectPoolInit_invariant (A : Allocator) (m : Memory C) {objectSize capacity : ℕ}
    (hprod : objectSize * (2 * capacity) < 2 ^ 64)
    (hlist : sizeofPointer * (2 * capacity) < 2 ^ 64) {r : ℤ} {pool : ObjectPool} {m' : Memory C}
    (h : objectPoolInit A m objectSize capacity = (r, some pool, m')) :
    Invariant pool m' [] ∧ (∀ Z : C → Prop, Z 0 → FreeAll Z pool m') ∧ Unchanged m m' ∧
      pool.objectSize = objectSize ∧ pool.initialCapacity = capacity ∧
      ∀ b ∈ pool.pools, ∀ r ∈ m.live, b.region.Disjoint r := by
  have hfits : Fits objectSize (2 * capacity) := ⟨hprod, hlist⟩
  have hle : capacity ≤ 2 * capacity := Nat.le_mul_of_pos_left capacity Nat.two_pos
  obtain ⟨hsound, hfree, hsame, hsize, hcap, hapart⟩ := objectPoolInit_sound A m (hfits.mono hle) h
  refine ⟨hsound.invariant ?_, hfree, hsame, hsize, hcap, hapart⟩
  rw [hsize, hcap]
  exact hfits

theorem poolStep_invariant (A : Allocator) {s : PoolState C} (op : PoolOp)
    (h : Invariant s.pool s.memory s.live) (hl : PoolLegal s op) :
    ∃ s', poolStep A s op = .ok s' ∧ Invariant s'.pool s'.memory s'.live ∧
      s'.pool.objectSize = s.pool.objectSize := by
  cases op with
  | alloc =>
    have hsize := (objectPoolAlloc_sizes A s.pool s.memory).1
    simp only [poolStep]
    obtain ⟨m', heq, -, -, -, hlive, -⟩ | ⟨a, pool', m', heq, hdone⟩ :=
      objectPoolAlloc_cases A h
    · rw [heq]
      exact ⟨_, rfl, h.of_subset (by simp [hlive]), rfl⟩
    · rw [heq] at hsize ⊢
      exact ⟨_, rfl, hdone.invariant, hsize⟩
  | free a =>
    exact ⟨_, rfl, (objectPoolFree_live h hl).invariant, (objectPoolFree_sizes s.pool a).1⟩

theorem PoolReachable.invariant {A : Allocator} {objectSize capacity : ℕ}
    (hprod : objectSize * (2 * capacity) < 2 ^ 64)
    (hlist : sizeofPointer * (2 * capacity) < 2 ^ 64) {s : PoolState C}
    (h : PoolReachable A objectSize capacity s) :
    Invariant s.pool s.memory s.live ∧ s.pool.objectSize = objectSize := by
  refine Reachable.invariant_of_returns (I := fun s ↦ Invariant s.pool s.memory s.live ∧
    s.pool.objectSize = objectSize) ?_ ?_ h
  · rintro s ⟨m, r, hinit, hlive⟩
    have hinv := objectPoolInit_invariant A m hprod hlist hinit
    exact ⟨hlive ▸ hinv.1, hinv.2.2.2.1⟩
  · intro s op hinv hl
    obtain ⟨s', hs, hinv', hsize⟩ := poolStep_invariant A op hinv.1 hl
    exact ⟨s', hs, hinv', hsize.trans hinv.2⟩

namespace Sound

variable {pool : ObjectPool} {m : Memory C} {live : List ℕ}

omit [Zero C] in
theorem disjoint_of_ne (h : Sound pool m live) {b c : ObjectPoolBlock} (hb : b ∈ pool.pools)
    (hc : c ∈ pool.pools) (hne : b ≠ c) : b.region.Disjoint c.region := by
  have hd := List.pairwise_map.mp h.disjoint
  have hsymm : Std.Symm fun b c : ObjectPoolBlock ↦ b.region.Disjoint c.region :=
    ⟨fun _ _ hbc ↦ hbc.symm⟩
  exact hd.forall hb hc hne

omit [Zero C] in
theorem exists_unique_block (h : Sound pool m live) {a : ℕ} (ha : a ∈ live) :
    ∃ b ∈ pool.pools, (∃ i < b.capacity, a = b.pool + i * pool.objectSize) ∧
      ∀ c ∈ pool.pools, c.region.Contains a → c = b := by
  obtain ⟨b, hb, hout⟩ := (h.live_iff a).mp ha
  have hobj := mem_objects.mp hout.1
  rw [h.size_eq b hb] at hobj
  refine ⟨b, hb, hobj, fun c hc hcont ↦ ?_⟩
  by_contra hne
  exact (h.disjoint_of_ne hc hb hne).not_contains hcont
    (objects_contains (h.wellFormed b hb).size_pos hout.1)

omit [Zero C] in
theorem live_apart (h : Sound pool m live) {a a' : ℕ} (ha : a ∈ live) (ha' : a' ∈ live)
    (hne : a ≠ a') : a + pool.objectSize ≤ a' ∨ a' + pool.objectSize ≤ a := by
  obtain ⟨b, hb, hout⟩ := (h.live_iff a).mp ha
  obtain ⟨c, hc, hout'⟩ := (h.live_iff a').mp ha'
  have hbound := objects_bound hout.1
  have hbound' := objects_bound hout'.1
  by_cases hbc : b = c
  · subst hbc
    rw [← h.size_eq b hb]
    exact objects_apart hout.1 hout'.1 hne
  · have hdis := h.disjoint_of_ne hb hc hbc
    simp only [Region.Disjoint, region] at hdis
    simp only [h.size_eq b hb] at hdis hbound
    simp only [h.size_eq c hc] at hdis hbound'
    omega

omit [Zero C] in
theorem mem_live_iff (h : Sound pool m live) {b : ObjectPoolBlock} (hb : b ∈ pool.pools)
    {a : ℕ} : (a ∈ live ∧ b.region.Contains a) ↔ b.Out a := by
  constructor
  · rintro ⟨ha, hcont⟩
    obtain ⟨c, hc, hout⟩ := (h.live_iff a).mp ha
    obtain ⟨d, hd, -, huniq⟩ := h.exists_unique_block ha
    obtain rfl := huniq b hb hcont
    obtain rfl := huniq c hc (objects_contains (h.wellFormed c hc).size_pos hout.1)
    exact hout
  · intro hout
    exact ⟨(h.live_iff a).mpr ⟨b, hb, hout⟩,
      objects_contains (h.wellFormed b hb).size_pos hout.1⟩

omit [Zero C] in
theorem used_eq (h : Sound pool m live) {b : ObjectPoolBlock} (hb : b ∈ pool.pools) :
    b.used = (live.filter (fun a ↦ b.region.Contains a)).length := by
  have hwf := h.wellFormed b hb
  rw [← hwf.used_eq]
  refine List.Perm.length_eq ((List.perm_ext_iff_of_nodup
    ((objects_nodup hwf.size_pos).filter _) (h.live_nodup.filter _)).mpr fun a ↦ ?_)
  have hiff := h.mem_live_iff hb (a := a)
  simp only [Out] at hiff
  simpa using hiff.symm

omit [Zero C] in
theorem mem_free_iff (h : Sound pool m live) {b : ObjectPoolBlock} (hb : b ∈ pool.pools)
    {a : ℕ} : a ∈ b.free ↔ a ∈ b.objects ∧ a ∉ live := by
  have hwf := h.wellFormed b hb
  constructor
  · intro ha
    have hobj := hwf.subset a ha
    refine ⟨hobj, fun hlive ↦ ?_⟩
    exact ((h.mem_live_iff hb).mp ⟨hlive, objects_contains hwf.size_pos hobj⟩).2 ha
  · rintro ⟨hobj, hlive⟩
    by_contra ha
    exact hlive ((h.live_iff a).mpr ⟨b, hb, hobj, ha⟩)

end Sound

structure Exclusive (A : Allocator) (objectSize : ℕ) (s : PoolState C) : Prop where
  /-- An object handed out was not live, starts at a multiple of the object size in
  exactly one block, and does not overlap a live object. -/
  alloc : ∀ {obj pool m}, objectPoolAlloc A s.pool s.memory = (some obj, pool, m) →
    obj ∉ s.live ∧
    (∃ b ∈ pool.pools, (∃ i < b.capacity, obj = b.pool + i * objectSize) ∧
      ∀ c ∈ pool.pools, c.region.Contains obj → c = b) ∧
    ∀ obj' ∈ s.live, obj + objectSize ≤ obj' ∨ obj' + objectSize ≤ obj
  /-- `NULL` means that no block had room and that the allocator refused a new one. -/
  alloc_null : ∀ {pool m}, objectPoolAlloc A s.pool s.memory = (none, pool, m) →
    pool = s.pool ∧ (∀ b ∈ s.pool.pools, b.freeListTop = 0) ∧
    createNewPool A s.memory objectSize (2 * s.pool.initialCapacity) = (none, m) ∧
    s.memory.failures < m.failures
  live_apart : ∀ obj ∈ s.live, ∀ obj' ∈ s.live, obj ≠ obj' →
    obj + objectSize ≤ obj' ∨ obj' + objectSize ≤ obj
  used_eq : ∀ b ∈ s.pool.pools, b.used = (s.live.filter (fun a ↦ b.region.Contains a)).length
  capacity_eq : ∀ b ∈ s.pool.pools, b.used + b.freeListTop = b.capacity
  free_nodup : ∀ b ∈ s.pool.pools, b.free.Nodup
  mem_free : ∀ b ∈ s.pool.pools, ∀ a, a ∈ b.free ↔ a ∈ b.objects ∧ a ∉ s.live

/-- In every run the objects a pool hands out are exclusive, its blocks account for
every object, and it gives up only when the allocator does. -/
theorem objectPool_exclusive (A : Allocator) {objectSize capacity : ℕ}
    (hprod : objectSize * (2 * capacity) < 2 ^ 64)
    (hlist : sizeofPointer * (2 * capacity) < 2 ^ 64) {s : PoolState C}
    (h : PoolReachable A objectSize capacity s) : Exclusive A objectSize s := by
  obtain ⟨hinv, rfl⟩ := PoolReachable.invariant hprod hlist h
  refine ⟨?_, ?_, fun a ha a' ha' ↦ hinv.sound.live_apart ha ha', fun b hb ↦ hinv.sound.used_eq hb,
    fun b hb ↦ (hinv.wellFormed b hb).count, fun b hb ↦ (hinv.wellFormed b hb).nodup,
    fun b hb a ↦ hinv.sound.mem_free_iff hb⟩
  · intro obj pool m hobj
    have hsize := (objectPoolAlloc_sizes A s.pool s.memory).1
    rw [hobj] at hsize
    obtain ⟨m', heq, -⟩ | ⟨a, pool', m', heq, hdone⟩ := objectPoolAlloc_cases A hinv
    · rw [heq] at hobj
      cases hobj
    · rw [heq] at hobj
      cases hobj
      have hmem : obj ∈ obj :: s.live := List.mem_cons_self
      refine ⟨hdone.not_live, ?_, fun obj' ho ↦ ?_⟩
      · rw [← hsize]
        exact hdone.invariant.sound.exists_unique_block hmem
      · rw [← hsize]
        refine hdone.invariant.sound.live_apart hmem (List.mem_cons_of_mem _ ho) ?_
        rintro rfl
        exact hdone.not_live ho
  · intro pool m hobj
    obtain ⟨m', heq, htop, hnew, hfail, -⟩ | ⟨a, pool', m', heq, -⟩ := objectPoolAlloc_cases A hinv
    · rw [heq] at hobj
      cases hobj
      exact ⟨rfl, htop, hnew, hfail⟩
    · rw [heq] at hobj
      cases hobj

theorem objectPool_exclusive_two :
    ∃ s : PoolState ℕ, s.live.length = 2 ∧ Exclusive bumpAllocator 8 s := by
  have h₀ : PoolReachable (C := ℕ) bumpAllocator 8 5 ⟨_, _, []⟩ := .init ⟨Memory.empty, 0, rfl, rfl⟩
  have h₁ := h₀.step (l := .alloc) (by simp [PoolLegal]) rfl
  have h₂ := h₁.step (l := .alloc) (by simp [PoolLegal]) rfl
  exact ⟨_, rfl, objectPool_exclusive bumpAllocator (by decide) (by decide) h₂⟩

end RadixBench.Pool
