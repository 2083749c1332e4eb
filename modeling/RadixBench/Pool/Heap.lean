import RadixBench.Foundation.Release
import RadixBench.Pool.Model

namespace RadixBench.Pool.Heap

open Foundation Memory

/-- The struct `ObjectPoolBlock` as it lies in memory. -/
structure ObjectPoolBlock where
  pool : ℕ
  freeList : ℕ
  objectSize : ℕ
  capacity : ℕ
  used : ℕ
  freeListTop : ℕ
  next : Option ℕ

instance : Zero ObjectPoolBlock := ⟨⟨0, 0, 0, 0, 0, 0, none⟩⟩

def ObjectPoolBlock.limit (b : ObjectPoolBlock) : ℕ :=
  wrap (b.pool + wrap (b.capacity * b.objectSize))

structure ObjectPool where
  objectSize : ℕ
  initialCapacity : ℕ
  pools : Option ℕ
  currentPool : Option ℕ

/-- What is stored at an address: an object of the client, a block or an array of pointers. -/
structure Cell (C : Type) where
  object : C
  block : ObjectPoolBlock
  slots : ℕ → ℕ

variable {C : Type}

def setBlock (m : Memory (Cell C)) (a : ℕ) (b : ObjectPoolBlock) : Memory (Cell C) :=
  m.write a { m.cell a with block := b }

def setSlots (m : Memory (Cell C)) (a : ℕ) (slots : ℕ → ℕ) : Memory (Cell C) :=
  m.write a { m.cell a with slots := slots }

def setObject (m : Memory (Cell C)) (a : ℕ) (c : C) : Memory (Cell C) :=
  m.write a { m.cell a with object := c }

section Creation

variable [Zero C]

instance : Zero (Cell C) := ⟨⟨0, 0, fun _ ↦ 0⟩⟩

def createNewPool (A : Allocator) (m : Memory (Cell C)) (objectSize capacity : ℕ) :
    Option ℕ × Memory (Cell C) :=
  match m.calloc A sizeofObjectPoolBlock with
  | (none, m) => (none, m)
  | (some newPool, m) =>
    match m.calloc A (wrap (objectSize * capacity)) with
    | (none, m) => (none, m.free newPool)
    | (some pool, m) =>
      match m.calloc A (wrap (sizeofPointer * capacity)) with
      | (none, m) => (none, (m.free pool).free newPool)
      | (some freeList, m) =>
        let m := setSlots m freeList (Pool.ObjectPoolBlock.initFreeList pool objectSize capacity)
        (some newPool, setBlock m newPool {
          pool := pool
          freeList := freeList
          objectSize := objectSize
          capacity := capacity
          used := 0
          freeListTop := capacity
          next := none })

/-- The source writes the statements of `createNewPool` out again here. -/
def objectPoolInit (A : Allocator) (m : Memory (Cell C)) (objectSize initialCapacity : ℕ) :
    ℤ × Option ObjectPool × Memory (Cell C) :=
  if objectSize = 0 ∨ initialCapacity = 0 then (-1, none, m)
  else
    match createNewPool A m objectSize initialCapacity with
    | (none, m) => (-1, some ⟨objectSize, initialCapacity, none, none⟩, m)
    | (some firstPool, m) =>
      (0, some ⟨objectSize, initialCapacity, some firstPool, some firstPool⟩, m)

end Creation

/-- The loops over `current` that stop at the first block which `test` accepts. -/
def findBlock (m : Memory (Cell C)) (test : ObjectPoolBlock → Bool) :
    ℕ → Option ℕ → Exec (Option ℕ)
  | _, none => .ok none
  | 0, some _ => .error .outOfFuel
  | fuel + 1, some current => do
    let b := (← m.read current).block
    if test b then .ok (some current) else findBlock m test fuel b.next

def lastBlock (m : Memory (Cell C)) : ℕ → ℕ → Exec ℕ
  | 0, _ => .error .outOfFuel
  | fuel + 1, last => do
    match (← m.read last).block.next with
    | none => .ok last
    | some next => lastBlock m fuel next

def poolToUse (fuel : ℕ) (pool : ObjectPool) (m : Memory (Cell C)) : Exec (Option ℕ) :=
  let search := findBlock m (fun b ↦ 0 < b.freeListTop) fuel pool.pools
  match pool.currentPool with
  | none => search
  | some current => do
    let b := (← m.read current).block
    if 0 < b.freeListTop then .ok (some current) else search

def addBlock (fuel : ℕ) (pool : ObjectPool) (m : Memory (Cell C)) (newPool : ℕ) :
    Exec (ObjectPool × Memory (Cell C)) :=
  match pool.pools with
  | none => .ok ({ pool with pools := some newPool }, m)
  | some first => do
    let last ← lastBlock m fuel first
    .ok (pool, setBlock m last { (m.cell last).block with next := some newPool })

def take (m : Memory (Cell C)) (poolToUse : ℕ) : Exec (Option ℕ × Memory (Cell C)) := do
  let b := (← m.read poolToUse).block
  if b.freeListTop = 0 then .ok (none, m)
  else
    let top := b.freeListTop - 1
    let obj := (← m.read b.freeList).slots top
    if obj < b.pool ∨ b.limit ≤ obj then
      .ok (none, setBlock m poolToUse { b with freeListTop := top })
    else
      .ok (some obj,
        setBlock m poolToUse { b with freeListTop := top, used := wrap (b.used + 1) })

def objectPoolAlloc [Zero C] (A : Allocator) (fuel : ℕ) (pool : ObjectPool)
    (m : Memory (Cell C)) : Exec (Option ℕ × ObjectPool × Memory (Cell C)) := do
  match ← poolToUse fuel pool m with
  | some block =>
    let (obj, m) ← take m block
    .ok (obj, { pool with currentPool := some block }, m)
  | none =>
    match createNewPool A m pool.objectSize (wrap (pool.initialCapacity * 2)) with
    | (none, m) => .ok (none, pool, m)
    | (some newPool, m) =>
      let (pool, m) ← addBlock fuel pool m newPool
      let (obj, m) ← take m newPool
      .ok (obj, { pool with currentPool := some newPool }, m)

def objectPoolFree (fuel : ℕ) (pool : ObjectPool) (m : Memory (Cell C)) (obj : ℕ) :
    Exec (Memory (Cell C)) := do
  match ← findBlock m (fun b ↦ b.pool ≤ obj ∧ obj < b.limit) fuel pool.pools with
  | none => .ok m
  | some current =>
    let b := (← m.read current).block
    if b.freeListTop < b.capacity then
      let slots := (← m.read b.freeList).slots
      let m := setSlots m b.freeList (Function.update slots b.freeListTop obj)
      .ok (setBlock m current { b with
        freeListTop := b.freeListTop + 1
        used := wrap (2 ^ 64 - 1 + b.used) })
    else .ok m

/-- The loop of `objectPoolDestroy`; `0` is `NULL`. -/
def freeBlocks : ℕ → Memory (Cell C) → Option ℕ → Exec (Memory (Cell C))
  | _, m, none => .ok m
  | 0, _, some _ => .error .outOfFuel
  | fuel + 1, m, some current => do
    let next := (← m.read current).block.next
    let pool := (← m.read current).block.pool
    let m ← if pool ≠ 0 then m.release pool else .ok m
    let freeList := (← m.read current).block.freeList
    let m ← if freeList ≠ 0 then m.release freeList else .ok m
    let m ← m.release current
    freeBlocks fuel m next

def objectPoolDestroy (fuel : ℕ) (pool : ObjectPool) (m : Memory (Cell C)) :
    Exec (ObjectPool × Memory (Cell C)) := do
  let m ← freeBlocks fuel m pool.pools
  .ok (⟨0, 0, none, none⟩, m)

end RadixBench.Pool.Heap
