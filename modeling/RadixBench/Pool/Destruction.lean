import RadixBench.Pool.Runs
import RadixBench.Pool.Simulation

namespace RadixBench.Pool.Heap

open Foundation Memory

variable {C : Type} {m m' m₀ : Memory (Cell C)} {μ : Memory C} {l l' : List Placed}
  {pool : ObjectPool} {pool' : Pool.ObjectPool} {old : List Region} {others S : List ℕ} {fuel : ℕ}

def view (m : Memory (Cell C)) : Memory C where
  live := m.live
  calls := m.calls
  failures := m.failures
  cell a := (m.cell a).object

theorem shadows_view (m : Memory (Cell C)) : Shadows m (view m) := ⟨rfl, rfl, rfl, fun _ ↦ rfl⟩

/-- The blocks of a pool lie apart from `others`, and beside the two `old` is live. -/
structure Ledger (m : Memory (Cell C)) (l : List Placed) (others : List ℕ)
    (old : List Region) : Prop where
  nodup : (l.flatMap Placed.addresses ++ others).Nodup
  held : ∀ a ∈ others, m.Held a
  rest : Rest m {a | a ∈ l.flatMap Placed.addresses ++ others} old

theorem Ledger.extends {head : Option ℕ} (h : Ledger m l others old) (hext : Extends m m' l l')
    (hlaid : Laid m' head l') : Ledger m' l' others old := by
  obtain ⟨new, regions, haddr, hlive, hregions, hfresh⟩ := hext.taken
  have hnew : ∀ a ∈ others, a ∉ new := fun a ha hmem ↦ by
    obtain ⟨r, hr, rfl, -⟩ := h.held a ha
    exact hfresh r hr hmem
  refine ⟨?_, fun a ha ↦ hext.frame.held (h.held a ha), ?_⟩
  · have hold := List.nodup_append'.mp h.nodup
    refine List.nodup_append'.mpr ⟨hlaid.nodup, hold.2.1, fun a ha hother ↦ ?_⟩
    rw [haddr, List.mem_append] at ha
    exact ha.elim (fun ha ↦ hold.2.2 ha hother) (hnew a hother)
  · have hset : ({a | a ∈ l'.flatMap Placed.addresses ++ others} : Set ℕ) =
        {a | a ∈ l.flatMap Placed.addresses ++ others} ∪ {a | a ∈ new} := by
      ext a
      simp only [haddr, Set.mem_ofPred_eq, Set.mem_union, List.mem_append]
      tauto
    rw [hset]
    exact h.rest.append regions hlive hregions hfresh

theorem Ledger.swap {head : Option ℕ} (h : Ledger m l (l'.flatMap Placed.addresses) old)
    (hlaid : Laid m head l) : Ledger m l' (l.flatMap Placed.addresses) old := by
  have hset : ({a | a ∈ l'.flatMap Placed.addresses ++ l.flatMap Placed.addresses} : Set ℕ) =
      {a | a ∈ l.flatMap Placed.addresses ++ l'.flatMap Placed.addresses} := by
    ext a
    simp only [Set.mem_ofPred_eq, List.mem_append, or_comm]
  refine ⟨List.nodup_append_comm.mp h.nodup, fun a ha ↦ ?_, hset ▸ h.rest⟩
  obtain ⟨x, hx, hax⟩ := List.mem_flatMap.mp ha
  exact (hlaid.block x hx).held a hax

theorem Represents.frame (h : Represents pool m pool' l) (hframe : Frame m m' S)
    (hS : ∀ a ∈ l.flatMap Placed.addresses, a ∉ S) : Represents pool m' pool' l :=
  { h with laid := h.laid.frame hframe hS }

theorem map_base_sublist (l : List Placed) :
    (l.map Placed.base).Sublist (l.flatMap Placed.addresses) := by
  induction l with
  | nil => exact .slnil
  | cons x l ih =>
    rw [List.map_cons, List.flatMap_cons]
    exact (ih.trans (List.sublist_append_right [x.block.pool, x.freeList] _)).cons_cons x.base

theorem Laid.length_le {head : Option ℕ} (h : Laid m head l) : l.length ≤ m.live.length := by
  have hnodup := h.nodup.sublist (map_base_sublist l)
  have hsub : l.map Placed.base ⊆ m.live.map Region.base := fun a ha ↦ by
    obtain ⟨x, hx, rfl⟩ := List.mem_map.mp ha
    obtain ⟨r, hr, hbase, -⟩ := (h.block x hx).held _ Placed.base_mem
    exact List.mem_map.mpr ⟨r, hr, hbase⟩
  simpa using (hnodup.subperm hsub).length_le

theorem objectPoolInit_simulates [Zero C] (A : Allocator) (hs : Shadows m μ)
    (objectSize capacity : ℕ) (hsize : 0 < objectSize) (hcap : 0 < capacity)
    (hfits : Fits objectSize (2 * capacity)) :
    ∃ r pool m₁ pool' μ₁ l, objectPoolInit A m objectSize capacity = (r, some pool, m₁) ∧
      Pool.objectPoolInit A μ objectSize capacity = (r, some pool', μ₁) ∧
      Represents pool m₁ pool' l ∧ Shadows m₁ μ₁ ∧ Extends m m₁ [] l := by
  have hzero : ¬ (objectSize = 0 ∨ capacity = 0) := by omega
  have hfits₁ := hfits.mono (Nat.le_mul_of_pos_left capacity Nat.two_pos)
  rw [objectPoolInit, Pool.objectPoolInit, if_neg hzero, if_neg hzero]
  obtain ⟨m₁, μ₁, hnew, hnew', hs₁, hlive, hframe⟩ | ⟨x, m₁, μ₁, hnew, hnew', hs₁, hmade⟩ :=
    createNewPool_simulates hs A hsize hcap hfits₁
  · rw [hnew, hnew']
    exact ⟨-1, _, m₁, _, μ₁, [], rfl, rfl, ⟨⟨rfl, by simp, List.nodup_nil⟩, rfl, rfl, rfl, rfl,
      hsize, hcap, hfits⟩, hs₁, .of_same hframe (List.Subset.refl _) hlive rfl⟩
  · rw [hnew, hnew']
    obtain ⟨regions, hlive, hregions⟩ := hmade.live
    exact ⟨0, _, m₁, _, μ₁, [x], rfl, rfl, ⟨⟨⟨rfl, hmade.last⟩, by simpa using hmade.isIn,
      by simpa using hmade.nodup⟩, rfl, rfl, rfl, rfl, hsize, hcap, hfits⟩, hs₁,
      hmade.frame, x.addresses, regions, by simp, hlive, hregions, hmade.fresh⟩

section Runs

structure HeapState (C : Type) where
  pool : ObjectPool
  memory : Memory (Cell C)
  live : List ℕ

structure InHeap (s : HeapState C) (t : PoolState C) : Prop where
  live : s.live = t.live
  memory : view s.memory = t.memory
  represents : ∃ l, Represents s.pool s.memory t.pool l

def Kept (s : HeapState C) (t : PoolState C) (old : List Region) : Prop :=
  s.live = t.live ∧ Shadows s.memory t.memory ∧
    ∃ l, Represents s.pool s.memory t.pool l ∧ Ledger s.memory l [] old

theorem Shadows.view_eq (h : Shadows m μ) : view m = μ := by
  obtain ⟨live, calls, failures, cell⟩ := μ
  obtain ⟨rfl, rfl, rfl, hobject⟩ := h
  rw [view, Memory.mk.injEq]
  exact ⟨rfl, rfl, rfl, funext hobject⟩

theorem Kept.destroy {s : HeapState C} {t : PoolState C} (h : Kept s t old) :
    ∃ m', objectPoolDestroy s.memory.live.length s.pool s.memory = .ok (⟨0, 0, none, none⟩, m') ∧
      m'.live = old := by
  obtain ⟨-, -, l, hrep, hledger⟩ := h
  obtain ⟨m', hrun, hfreed⟩ := freeBlocks_frees hrep.laid hrep.laid.length_le
  have hrest := hledger.rest
  rw [List.append_nil] at hrest
  exact ⟨m', by rw [objectPoolDestroy, hrun, ok_bind], hrest.freed hfreed⟩

variable [Zero C]

/-- The loops take at most one round for each live region. -/
def heapStep (A : Allocator) (s : HeapState C) : PoolOp → Exec (HeapState C)
  | .alloc => do
    let (obj, pool, memory) ← objectPoolAlloc A s.memory.live.length s.pool s.memory
    .ok ⟨pool, memory, obj.toList ++ s.live⟩
  | .free obj => do
    let memory ← objectPoolFree s.memory.live.length s.pool s.memory obj
    .ok { s with memory := memory, live := s.live.erase obj }

theorem heapStep_kept (A : Allocator) {s : HeapState C} {t : PoolState C} (h : Kept s t old)
    (op : PoolOp) : ∃ s' t', heapStep A s op = .ok s' ∧ poolStep A t op = .ok t' ∧
      Kept s' t' old := by
  obtain ⟨hlive, hs, l, hrep, hledger⟩ := h
  have hfuel := hrep.laid.length_le
  cases op with
  | alloc =>
    obtain ⟨obj, pool₁, m₁, pool₁', μ₁, l₁, hrun, hrun', hrep₁, hs₁, hext⟩ :=
      objectPoolAlloc_simulates A hrep hs hfuel
    have hledger₁ := hledger.extends hext hrep₁.laid
    refine ⟨⟨pool₁, m₁, obj.toList ++ s.live⟩, ⟨pool₁', μ₁, obj.toList ++ t.live⟩, ?_, ?_,
      by rw [hlive], hs₁, l₁, hrep₁, hledger₁⟩
    · rw [heapStep, hrun, ok_bind]
    · rw [poolStep, hrun']
      cases obj <;> rfl
  | free obj =>
    obtain ⟨m₁, l₁, hrun, hrep₁, hs₁, hext⟩ := objectPoolFree_simulates hrep hs hfuel obj
    refine ⟨{ s with memory := m₁, live := s.live.erase obj }, _, ?_, rfl, by rw [hlive], hs₁, l₁,
      hrep₁, hledger.extends hext hrep₁.laid⟩
    rw [heapStep, hrun, ok_bind]

theorem heapRun_kept (A : Allocator) {s : HeapState C} {t : PoolState C} (h : Kept s t old)
    (ops : List PoolOp) : ∃ s' t', ops.foldlM (heapStep A) s = .ok s' ∧
      ops.foldlM (poolStep A) t = .ok t' ∧ Kept s' t' old := by
  induction ops generalizing s t with
  | nil => exact ⟨s, t, rfl, rfl, h⟩
  | cons op ops ih =>
    obtain ⟨s₁, t₁, hstep, hstep', h₁⟩ := heapStep_kept A h op
    obtain ⟨s', t', hrun, hrun', h'⟩ := ih h₁
    refine ⟨s', t', ?_, ?_, h'⟩
    · rw [List.foldlM_cons, hstep, ok_bind, hrun]
    · rw [List.foldlM_cons, hstep', ok_bind, hrun']

theorem objectPoolInit_kept (A : Allocator) {objectSize capacity : ℕ} {r : ℤ}
    (hinit : objectPoolInit A m₀ objectSize capacity = (r, some pool, m))
    (hfits : Fits objectSize (2 * capacity)) :
    ∃ pool' μ, Pool.objectPoolInit A (view m₀) objectSize capacity = (r, some pool', μ) ∧
      Kept ⟨pool, m, []⟩ ⟨pool', μ, []⟩ m₀.live := by
  have hpos : ¬ (objectSize = 0 ∨ capacity = 0) := fun hzero ↦ by
    rw [objectPoolInit, if_pos hzero] at hinit
    cases hinit
  obtain ⟨r', pool₁, m₁, pool', μ, l, hrun, hrun', hrep, hs, hext⟩ :=
    objectPoolInit_simulates A (shadows_view m₀) objectSize capacity
      (Nat.pos_of_ne_zero (not_or.mp hpos).1) (Nat.pos_of_ne_zero (not_or.mp hpos).2) hfits
  rw [hinit] at hrun
  cases hrun
  have hledger : Ledger m₀ [] [] m₀.live := ⟨List.nodup_nil, by simp, by simp [Rest]⟩
  exact ⟨pool', μ, hrun', rfl, hs, l, hrep, hledger.extends hext hrep.laid⟩

/-- Whatever calls are made, also with pointers that must not be freed, the linked blocks in the
heap answer as the list of blocks does, and no block is read outside live memory. -/
theorem objectPool_inHeap (A : Allocator) {objectSize capacity : ℕ} {r : ℤ}
    (hinit : objectPoolInit A m₀ objectSize capacity = (r, some pool, m))
    (hfits : Fits objectSize (2 * capacity)) (ops : List PoolOp) :
    ∃ pool' μ s t, Pool.objectPoolInit A (view m₀) objectSize capacity = (r, some pool', μ) ∧
      ops.foldlM (heapStep A) ⟨pool, m, []⟩ = .ok s ∧
      ops.foldlM (poolStep A) ⟨pool', μ, []⟩ = .ok t ∧ InHeap s t := by
  obtain ⟨pool', μ, hinit', h₀⟩ := objectPoolInit_kept A hinit hfits
  obtain ⟨s, t, hrun, hrun', hlive, hs, l, hrep, -⟩ := heapRun_kept A h₀ ops
  exact ⟨pool', μ, s, t, hinit', hrun, hrun', hlive, hs.view_eq, l, hrep⟩

/-- `objectPoolDestroy` gives back what the pool has taken and nothing else, and frees nothing
twice. -/
theorem objectPoolDestroy_frees (A : Allocator) {objectSize capacity : ℕ} {r : ℤ}
    (hinit : objectPoolInit A m₀ objectSize capacity = (r, some pool, m))
    (hfits : Fits objectSize (2 * capacity)) (ops : List PoolOp) :
    ∃ s m', ops.foldlM (heapStep A) ⟨pool, m, []⟩ = .ok s ∧
      objectPoolDestroy s.memory.live.length s.pool s.memory = .ok (⟨0, 0, none, none⟩, m') ∧
      m'.live = m₀.live := by
  obtain ⟨pool', μ, -, h₀⟩ := objectPoolInit_kept A hinit hfits
  obtain ⟨s, t, hrun, -, h⟩ := heapRun_kept A h₀ ops
  obtain ⟨m', hdestroy, hlive⟩ := h.destroy
  exact ⟨s, m', hrun, hdestroy, hlive⟩

/-- A pool whose second object needs a second block. -/
def narrow : HeapState ℕ :=
  match objectPoolInit bumpAllocator Memory.empty 8 1 with
  | (_, some pool, m) => ⟨pool, m, []⟩
  | (_, none, m) => ⟨⟨0, 0, none, none⟩, m, []⟩

theorem objectPool_inHeap_narrow : ∃ pool' μ s t,
    Pool.objectPoolInit bumpAllocator (view (Memory.empty : Memory (Cell ℕ))) 8 1 =
      (0, some pool', μ) ∧
    [PoolOp.alloc, .alloc, .free 3].foldlM (heapStep bumpAllocator) narrow = .ok s ∧
      [PoolOp.alloc, .alloc, .free 3].foldlM (poolStep bumpAllocator) ⟨pool', μ, []⟩ = .ok t ∧
      InHeap s t := by
  have hinit : objectPoolInit bumpAllocator (Memory.empty : Memory (Cell ℕ)) 8 1 =
      (0, some narrow.pool, narrow.memory) := rfl
  exact objectPool_inHeap bumpAllocator hinit (by decide) [PoolOp.alloc, .alloc, .free 3]

theorem objectPoolDestroy_frees_narrow : ∃ s m',
    [PoolOp.alloc, .alloc, .free 3].foldlM (heapStep bumpAllocator) narrow = .ok s ∧
      objectPoolDestroy s.memory.live.length s.pool s.memory = .ok (⟨0, 0, none, none⟩, m') ∧
      m'.live = [] := by
  have hinit : objectPoolInit bumpAllocator (Memory.empty : Memory (Cell ℕ)) 8 1 =
      (0, some narrow.pool, narrow.memory) := rfl
  exact objectPoolDestroy_frees bumpAllocator hinit (by decide) [PoolOp.alloc, .alloc, .free 3]

end Runs

end RadixBench.Pool.Heap
