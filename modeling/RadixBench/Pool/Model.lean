import RadixBench.Foundation.Memory
import RadixBench.Foundation.Execution

namespace RadixBench.Pool

open Foundation

/-- One block of a pool. The objects start at `pool`; `freeList` is the array of
free object pointers, of which the first `freeListTop` are a stack. -/
structure ObjectPoolBlock where
  pool : ℕ
  objectSize : ℕ
  capacity : ℕ
  used : ℕ
  freeList : ℕ → ℕ
  freeListTop : ℕ

/-- `pools` is the chain linked through `next`, and `currentPool` a position in it. -/
structure ObjectPool where
  objectSize : ℕ
  initialCapacity : ℕ
  pools : List ObjectPoolBlock
  currentPool : Option ℕ

def sizeofObjectPoolBlock : ℕ := 56

def sizeofPointer : ℕ := 8

namespace ObjectPoolBlock

def limit (b : ObjectPoolBlock) : ℕ := wrap (b.pool + wrap (b.capacity * b.objectSize))

def initFreeList (pool objectSize capacity : ℕ) : ℕ → ℕ :=
  fun i ↦ if i < capacity then wrap (pool + wrap (i * objectSize)) else 0

end ObjectPoolBlock

variable {C : Type} [Zero C]

def createNewPool (A : Allocator) (m : Memory C) (objectSize capacity : ℕ) :
    Option ObjectPoolBlock × Memory C :=
  match m.calloc A sizeofObjectPoolBlock with
  | (none, m) => (none, m)
  | (some newPool, m) =>
    match m.calloc A (wrap (objectSize * capacity)) with
    | (none, m) => (none, m.free newPool)
    | (some pool, m) =>
      match m.calloc A (wrap (sizeofPointer * capacity)) with
      | (none, m) => (none, (m.free pool).free newPool)
      | (some _, m) => (some {
          pool := pool
          objectSize := objectSize
          capacity := capacity
          used := 0
          freeList := ObjectPoolBlock.initFreeList pool objectSize capacity
          freeListTop := capacity }, m)

/-- The source writes the statements of `createNewPool` out again here. A failed
allocation leaves a pool without blocks; `none` is a pool that was not touched. -/
def objectPoolInit (A : Allocator) (m : Memory C) (objectSize initialCapacity : ℕ) :
    ℤ × Option ObjectPool × Memory C :=
  if objectSize = 0 ∨ initialCapacity = 0 then (-1, none, m)
  else
    match createNewPool A m objectSize initialCapacity with
    | (none, m) => (-1, some ⟨objectSize, initialCapacity, [], none⟩, m)
    | (some firstPool, m) => (0, some ⟨objectSize, initialCapacity, [firstPool], some 0⟩, m)

namespace ObjectPool

def setBlock (pool : ObjectPool) (i : ℕ) (b : ObjectPoolBlock) : ObjectPool :=
  { pool with pools := pool.pools.set i b }

def search (pool : ObjectPool) : Option ℕ :=
  pool.pools.findIdx? (fun b ↦ 0 < b.freeListTop)

/-- The current block when it has a free object, and otherwise the first that has. -/
def poolToUse (pool : ObjectPool) : Option ℕ :=
  match pool.currentPool.bind (fun i ↦ pool.pools[i]?) with
  | some b => if 0 < b.freeListTop then pool.currentPool else pool.search
  | none => pool.search

/-- The end of `objectPoolAlloc`: pop the free list of block `i`. A popped pointer
that is not inside the block is dropped. -/
def take (pool : ObjectPool) (i : ℕ) : Option ℕ × ObjectPool :=
  match pool.pools[i]? with
  | none => (none, pool)
  | some b =>
    if b.freeListTop = 0 then (none, pool)
    else
      let top := b.freeListTop - 1
      let obj := b.freeList top
      if obj < b.pool ∨ b.limit ≤ obj then
        (none, pool.setBlock i { b with freeListTop := top })
      else
        (some obj, pool.setBlock i { b with freeListTop := top, used := wrap (b.used + 1) })

end ObjectPool

def objectPoolAlloc (A : Allocator) (pool : ObjectPool) (m : Memory C) :
    Option ℕ × ObjectPool × Memory C :=
  match pool.poolToUse with
  | some i =>
    let (obj, pool) := { pool with currentPool := some i }.take i
    (obj, pool, m)
  | none =>
    match createNewPool A m pool.objectSize (wrap (pool.initialCapacity * 2)) with
    | (none, m) => (none, pool, m)
    | (some newPool, m) =>
      let i := pool.pools.length
      let (obj, pool) :=
        { pool with pools := pool.pools ++ [newPool], currentPool := some i }.take i
      (obj, pool, m)

/-- `objectPoolFree`: the first block whose address range holds `obj` takes it back,
unless its free list is full. -/
def objectPoolFree (pool : ObjectPool) (obj : ℕ) : ObjectPool :=
  match pool.pools.findIdx? (fun b ↦ b.pool ≤ obj ∧ obj < b.limit) with
  | none => pool
  | some i =>
    match pool.pools[i]? with
    | none => pool
    | some b =>
      if b.freeListTop < b.capacity then
        pool.setBlock i { b with
          freeList := Function.update b.freeList b.freeListTop obj
          freeListTop := b.freeListTop + 1
          used := wrap (2 ^ 64 - 1 + b.used) }
      else pool

end RadixBench.Pool
