import Mathlib.Algebra.BigOperators.Group.List.Basic
import Mathlib.Algebra.Order.Floor.Div
import Mathlib.GroupTheory.GroupAction.Ring
import RadixBench.Pool.Sizes
import RadixBench.Pool.Runs

namespace RadixBench.Pool

open Foundation Memory ObjectPoolBlock

variable {C : Type}

namespace Sound

variable {pool : ObjectPool} {m : Memory C} {live : List ℕ}

theorem live_perm (h : Sound pool m live) :
    live.Perm (pool.pools.flatMap fun b ↦ b.objects.filter fun a ↦ a ∉ b.free) := by
  have hout : ∀ {b : ObjectPoolBlock} {a : ℕ},
      a ∈ b.objects.filter (fun a ↦ a ∉ b.free) ↔ b.Out a := by
    intro b a
    rw [List.mem_filter, decide_eq_true_iff, Out]
  refine (List.perm_ext_iff_of_nodup h.live_nodup (List.nodup_flatMap.mpr ⟨fun b hb ↦ ?_, ?_⟩)).mpr
    fun a ↦ ?_
  · exact (objects_nodup (h.wellFormed b hb).size_pos).filter _
  · refine List.Pairwise.imp_of_mem (fun {b b'} hb hb' hdis ↦ ?_) (List.pairwise_map.mp h.disjoint)
    refine List.disjoint_left.mpr fun a ha ha' ↦ ?_
    exact hdis.not_contains (objects_contains (h.wellFormed b hb).size_pos (hout.mp ha).1)
      (objects_contains (h.wellFormed b' hb').size_pos (hout.mp ha').1)
  · simp only [h.live_iff, List.mem_flatMap, hout]

theorem live_length (h : Sound pool m live) :
    live.length + (pool.pools.map freeListTop).sum = (pool.pools.map capacity).sum := by
  have hused : pool.pools.map (fun b ↦ (b.objects.filter fun a ↦ a ∉ b.free).length) =
      pool.pools.map used := List.map_congr_left fun b hb ↦ (h.wellFormed b hb).used_eq
  have hcount : pool.pools.map (fun b ↦ b.used + b.freeListTop) = pool.pools.map capacity :=
    List.map_congr_left fun b hb ↦ (h.wellFormed b hb).count
  rw [h.live_perm.length_eq, List.length_flatMap, hused, ← hcount, List.sum_map_add]

end Sound

variable [Zero C]

/-- A pool in use, together with the largest number of objects that have been live at once. -/
structure PeakState (C : Type) extends PoolState C where
  peak : ℕ

def peakStep (A : Allocator) (s : PeakState C) (op : PoolOp) : Exec (PeakState C) := do
  let s' ← poolStep A s.toPoolState op
  .ok ⟨s', max s.peak s'.live.length⟩

/-- Only live objects are freed, and no `calloc` fails. -/
def PeakLegal (A : Allocator) (s : PeakState C) (op : PoolOp) : Prop :=
  PoolLegal s.toPoolState op ∧
    ∀ s', poolStep A s.toPoolState op = .ok s' → s'.memory.failures = s.memory.failures

def PeakInitial (A : Allocator) (objectSize initialCapacity : ℕ) (s : PeakState C) : Prop :=
  (∃ m, objectPoolInit A m objectSize initialCapacity = (0, some s.pool, s.memory)) ∧
    s.live = [] ∧ s.peak = 0

abbrev PeakReachable (A : Allocator) (objectSize initialCapacity : ℕ) :=
  Reachable (PeakInitial (C := C) A objectSize initialCapacity) (PeakLegal A) (peakStep A)

def GrowsFitting (s : PeakState C) (op : PoolOp) : Prop :=
  op = .alloc → (∀ b ∈ s.pool.pools, b.freeListTop = 0) →
    Fits s.pool.objectSize (2 * s.pool.initialCapacity)

/-- The runs in which the sizes of no block wrap around. -/
abbrev FittingReachable (A : Allocator) (objectSize initialCapacity : ℕ) :=
  Reachable (fun s : PeakState C ↦ PeakInitial A objectSize initialCapacity s ∧
    Fits objectSize initialCapacity) (fun s op ↦ PeakLegal A s op ∧ GrowsFitting s op) (peakStep A)

structure Grown (initialCapacity k : ℕ) (s : PeakState C) : Prop where
  sound : Sound s.pool s.memory s.live
  initial : s.pool.initialCapacity = initialCapacity
  capacities : s.pool.pools.map capacity = initialCapacity :: List.replicate k (2 * initialCapacity)
  live_le : s.live.length ≤ s.peak
  peak_le : s.peak ≤ initialCapacity + k * (2 * initialCapacity)
  lt_peak : ∀ j, k = j + 1 → initialCapacity + j * (2 * initialCapacity) < s.peak

variable {A : Allocator} {initialCapacity k : ℕ} {s : PeakState C}

omit [Zero C] in
theorem Grown.sum_eq (h : Grown initialCapacity k s) :
    (s.pool.pools.map capacity).sum = initialCapacity + k * (2 * initialCapacity) := by
  rw [h.capacities, List.sum_cons, List.sum_replicate, smul_eq_mul]

omit [Zero C] in
theorem capacities_eq {pools pools' : List ObjectPoolBlock}
    (h : pools'.map shape = pools.map shape) : pools'.map capacity = pools.map capacity := by
  have hmap := congrArg (List.map fun x : ℕ × ℕ × ℕ ↦ x.2.2) h
  rwa [List.map_map, List.map_map] at hmap

theorem Grown.alloc (h : Grown initialCapacity k s) (hfits : GrowsFitting s .alloc)
    {a : ℕ} {pool' : ObjectPool} {m' : Memory C}
    (hrun : objectPoolAlloc A s.pool s.memory = (some a, pool', m'))
    (hout : HandsOut s.pool s.memory s.live a pool' m') :
    ∃ k', Grown initialCapacity k' ⟨⟨pool', m', a :: s.live⟩, max s.peak (a :: s.live).length⟩ := by
  have hinitial : pool'.initialCapacity = initialCapacity := by
    have hsizes := (objectPoolAlloc_sizes A s.pool s.memory).2
    rw [hrun] at hsizes
    exact hsizes.trans h.initial
  have hcap : 0 < initialCapacity := h.initial ▸ h.sound.capacity_pos
  have hsum := h.sum_eq
  have hpeak := h.peak_le
  have hlive := h.live_le
  obtain ⟨hshapes, -⟩ | ⟨hnone, b, hnew, hshapes⟩ := objectPoolAlloc_shapes hrun
  · have hcaps := capacities_eq hshapes
    have hlength := hout.sound.live_length
    rw [hcaps, hsum] at hlength
    refine ⟨k, hout.sound, hinitial, hcaps.trans h.capacities, le_max_right _ _,
      max_le hpeak (by omega), fun j hj ↦ (h.lt_peak j hj).trans_le (le_max_left _ _)⟩
  · -- All blocks are full, so there have never been more live objects than now.
    have hfull := poolToUse_none hnone
    have htops : (s.pool.pools.map freeListTop).sum = 0 := by
      refine List.sum_eq_zero fun x hx ↦ ?_
      obtain ⟨b, hb, rfl⟩ := List.mem_map.mp hx
      exact hfull b hb
    have hlength := h.sound.live_length
    rw [htops, hsum] at hlength
    obtain ⟨range, hcreated⟩ := createNewPool_some hnew
    have hlist : sizeofPointer * (2 * s.pool.initialCapacity) < 2 ^ 64 := (hfits rfl hfull).2
    rw [sizeofPointer] at hlist
    have hbcap : b.capacity = 2 * initialCapacity := by
      rw [hcreated.block_eq, wrap_of_lt (by omega), h.initial, Nat.mul_comm]
    have hcaps : pool'.pools.map capacity =
        initialCapacity :: List.replicate (k + 1) (2 * initialCapacity) := by
      have hmap := congrArg (List.map fun x : ℕ × ℕ × ℕ ↦ x.2.2) hshapes
      rw [List.map_append, List.map_map, List.map_map, List.map_singleton] at hmap
      refine hmap.trans ?_
      rw [List.replicate_succ', ← List.cons_append, ← h.capacities, ← hbcap]
      rfl
    refine ⟨k + 1, hout.sound, hinitial, hcaps, le_max_right _ _, ?_, fun j hj ↦ ?_⟩
    · rw [List.length_cons, Nat.succ_mul]
      dsimp only
      omega
    · obtain rfl := Nat.succ.inj hj
      dsimp only
      rw [List.length_cons]
      omega

omit [Zero C] in
theorem Grown.free (h : Grown initialCapacity k s) {a : ℕ} (ha : a ∈ s.live) :
    Grown initialCapacity k ⟨⟨objectPoolFree s.pool a, s.memory, s.live.erase a⟩,
      max s.peak (s.live.erase a).length⟩ := by
  have hle : (s.live.erase a).length ≤ s.peak := (List.length_erase_le).trans h.live_le
  refine ⟨(h.sound.free_live ha).1, (objectPoolFree_sizes s.pool a).2.trans h.initial,
    (capacities_eq (objectPoolFree_shapes s.pool a)).trans h.capacities, le_max_right _ _, ?_,
    fun j hj ↦ (h.lt_peak j hj).trans_le (le_max_left _ _)⟩
  exact max_le h.peak_le (hle.trans h.peak_le)

theorem peakStep_grown (h : Grown initialCapacity k s) (op : PoolOp) (hl : PeakLegal A s op)
    (hfits : GrowsFitting s op) : ∃ s', peakStep A s op = .ok s' ∧ ∃ k', Grown initialCapacity k' s' := by
  cases op with
  | alloc =>
    obtain ⟨m', hrun, -, -, hfail, -⟩ | ⟨a, pool', m', hrun, hout⟩ :=
      h.sound.alloc_cases A fun hnone ↦ hfits rfl (poolToUse_none hnone)
    · have hsame := hl.2 ⟨s.pool, m', s.live⟩ (by rw [poolStep, hrun])
      exact absurd hsame hfail.ne'
    · exact ⟨_, by rw [peakStep, poolStep, hrun]; rfl, h.alloc hfits hrun hout⟩
  | free a => exact ⟨_, rfl, k, h.free hl.1⟩

theorem PeakInitial.grown {objectSize : ℕ} (h : PeakInitial A objectSize initialCapacity s)
    (hfits : Fits objectSize initialCapacity) : Grown initialCapacity 0 s := by
  obtain ⟨⟨m, hinit⟩, hlive, hpeak⟩ := h
  obtain ⟨hsound, -, -, -, hinitial, -⟩ := objectPoolInit_sound A m hfits hinit
  obtain ⟨b, hnew, hpools⟩ := objectPoolInit_block hinit
  obtain ⟨range, hcreated⟩ := createNewPool_some hnew
  refine ⟨hlive ▸ hsound, hinitial, ?_, by simp [hlive], by simp [hpeak], nofun⟩
  rw [hpools, hcreated.block_eq]
  rfl

theorem FittingReachable.grown {objectSize : ℕ}
    (h : FittingReachable A objectSize initialCapacity s) : ∃ k, Grown initialCapacity k s :=
  Reachable.invariant_of_returns (I := fun s ↦ ∃ k, Grown initialCapacity k s)
    (fun _ hinit ↦ ⟨0, hinit.1.grown hinit.2⟩)
    (fun _ op ⟨_, hg⟩ hl ↦ peakStep_grown hg op hl.1 hl.2) h

/-- In every run whose blocks have sizes that do not wrap around, a pool has as many blocks as the
largest number of objects that have been live at once needs, each of them twice as large as the
first one. -/
theorem objectPool_growth {objectSize : ℕ} (h : FittingReachable A objectSize initialCapacity s) :
    s.pool.pools.length = 1 + (s.peak - initialCapacity) ⌈/⌉ (2 * initialCapacity) ∧
      s.pool.pools.map capacity =
        initialCapacity :: List.replicate (s.pool.pools.length - 1) (2 * initialCapacity) := by
  obtain ⟨k, hg⟩ := h.grown
  have hlength : s.pool.pools.length = k + 1 := by
    have hmap := congrArg List.length hg.capacities
    rwa [List.length_map, List.length_cons, List.length_replicate] at hmap
  have hcap : 0 < initialCapacity := hg.initial ▸ hg.sound.capacity_pos
  have hceil : (s.peak - initialCapacity) ⌈/⌉ (2 * initialCapacity) = k := by
    rw [Nat.ceilDiv_eq_add_pred_div]
    have hle := hg.peak_le
    cases k with
    | zero => exact Nat.div_eq_of_lt (by omega)
    | succ j =>
      have hlt := hg.lt_peak j rfl
      rw [Nat.succ_mul j] at hle
      refine Nat.div_eq_of_lt_le ?_ ?_
      · rw [Nat.succ_mul j]
        omega
      · rw [Nat.succ_mul (j + 1), Nat.succ_mul j]
        omega
  rw [hceil, hlength, Nat.add_comm 1 k, Nat.add_sub_cancel]
  exact ⟨rfl, hg.capacities⟩

def afterStep (A : Allocator) (s : PeakState C) (op : PoolOp) : PeakState C :=
  (peakStep A s op).toOption.getD s

theorem peakStep_eq (A : Allocator) (s : PeakState C) (op : PoolOp) :
    ∃ s', poolStep A s.toPoolState op = .ok s' ∧
      peakStep A s op = .ok (afterStep A s op) ∧ (afterStep A s op).toPoolState = s' := by
  obtain ⟨s', hs⟩ : ∃ s', poolStep A s.toPoolState op = .ok s' := by
    cases op with
    | alloc =>
      rw [poolStep]
      split
      · exact ⟨_, rfl⟩
      · exact ⟨_, rfl⟩
    | free a => exact ⟨_, rfl⟩
  refine ⟨s', hs, ?_, ?_⟩
  · rw [afterStep, peakStep, hs]
    rfl
  · rw [afterStep, peakStep, hs]
    rfl

theorem PeakReachable.after {objectSize : ℕ} (h : PeakReachable A objectSize initialCapacity s)
    (op : PoolOp) (hl : PoolLegal s.toPoolState op)
    (hfail : (afterStep A s op).memory.failures = s.memory.failures) :
    PeakReachable A objectSize initialCapacity (afterStep A s op) := by
  obtain ⟨s', hs, hstep, heq⟩ := peakStep_eq A s op
  refine h.step ⟨hl, fun s'' hs'' ↦ ?_⟩ hstep
  obtain rfl := Except.ok.inj (hs.symm.trans hs'')
  rw [← heq]
  exact hfail

/-- Two allocations from a pool with room for one object. -/
theorem objectPool_growth_one : ∃ s : PeakState ℕ, s.peak = 2 ∧
    s.pool.pools.length = 1 + (s.peak - 1) ⌈/⌉ (2 * 1) ∧
    s.pool.pools.map capacity = 1 :: List.replicate (s.pool.pools.length - 1) (2 * 1) := by
  have h₀ : FittingReachable (C := ℕ) bumpAllocator 8 1 ⟨⟨_, _, []⟩, 0⟩ :=
    .init ⟨⟨⟨Memory.empty, rfl⟩, rfl, rfl⟩, by decide⟩
  have h₁ := h₀.step (l := .alloc)
    ⟨⟨by simp [PoolLegal], fun s' h ↦ by cases h; rfl⟩, fun _ _ ↦ by decide⟩ rfl
  have h₂ := h₁.step (l := .alloc)
    ⟨⟨by simp [PoolLegal], fun s' h ↦ by cases h; rfl⟩, fun _ _ ↦ by decide⟩ rfl
  exact ⟨_, rfl, objectPool_growth h₂⟩

/-- A pool for two objects of `2 ^ 63 + 4` bytes, for which 8 bytes have been requested. -/
def wrapped : PeakState ℕ :=
  match objectPoolInit bumpAllocator Memory.empty (2 ^ 63 + 4) 2 with
  | (_, pool, m) => ⟨⟨pool.getD ⟨0, 0, [], none⟩, m, []⟩, 0⟩

theorem wrapped_reachable : PeakReachable bumpAllocator (2 ^ 63 + 4) 2 wrapped :=
  .init ⟨⟨Memory.empty, rfl⟩, rfl, rfl⟩

def wrappedThree : PeakState ℕ :=
  afterStep bumpAllocator (afterStep bumpAllocator (afterStep bumpAllocator wrapped .alloc) .alloc)
    .alloc

/-- The first allocation drops an object that is outside of the 8 bytes, and the third one creates
a block when only one object is live. -/
theorem objectPool_growth_wraps : PeakReachable bumpAllocator (2 ^ 63 + 4) 2 wrappedThree ∧
    wrappedThree.peak = 1 ∧ wrappedThree.pool.pools.length = 2 ∧
      1 + (wrappedThree.peak - 2) ⌈/⌉ (2 * 2) = 1 := by
  have h₁ := wrapped_reachable.after .alloc trivial (by decide +kernel)
  have h₂ := h₁.after .alloc trivial (by decide +kernel)
  have h₃ := h₂.after .alloc trivial (by decide +kernel)
  have hpeak : wrappedThree.peak = 1 := by decide +kernel
  exact ⟨h₃, hpeak, by decide +kernel, by rw [hpeak]; rfl⟩

end RadixBench.Pool
