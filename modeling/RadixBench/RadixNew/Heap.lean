import RadixBench.Pool.Heap
import RadixBench.RadixNew.Model

namespace RadixBench.RadixNew.Heap

open Foundation Memory Pool.Heap

structure WideRadixTree where
  root : WideRadixNode
  numLevels : ℕ
  nonLeafPool : ObjectPool
  leafPool : ObjectPool
  memory : Memory (Cell Block)

def treeInit (A : Allocator) (m : Memory (Cell Block)) (log2Max log2Align : BitVec 8) :
    WideRadixTree :=
  let (_, nonLeafPool, m) := objectPoolInit A m (64 * sizeofWideRadixNode) 100
  let (_, leafPool, m) := objectPoolInit A m (64 * sizeofValue) 1000
  { root := 0
    numLevels := computeNumLevels log2Max log2Align
    nonLeafPool := nonLeafPool.getD ⟨0, 0, none, none⟩
    leafPool := leafPool.getD ⟨0, 0, none, none⟩
    memory := m }

def treeDestroy (fuel : ℕ) (t : WideRadixTree) : Exec WideRadixTree := do
  let (nonLeafPool, m) ← objectPoolDestroy fuel t.nonLeafPool t.memory
  let (leafPool, m) ← objectPoolDestroy fuel t.leafPool m
  .ok ⟨0, 0, nonLeafPool, leafPool, m⟩

namespace WideRadixTree

def pool (t : WideRadixTree) (leaf : Bool) : ObjectPool :=
  if leaf then t.leafPool else t.nonLeafPool

def withPool (t : WideRadixTree) (leaf : Bool) (pool : ObjectPool) (m : Memory (Cell Block)) :
    WideRadixTree :=
  if leaf then { t with leafPool := pool, memory := m }
  else { t with nonLeafPool := pool, memory := m }

def setObject (t : WideRadixTree) (block : ℕ) (b : Block) : WideRadixTree :=
  { t with memory := Pool.Heap.setObject t.memory block b }

def setNode (t : WideRadixTree) (x : NodePtr) (n : WideRadixNode) : WideRadixTree :=
  match x with
  | .root => { t with root := n }
  | .item block i =>
    let b := (t.memory.cell block).object
    t.setObject block { b with node := Function.update b.node i n }

def setValue (t : WideRadixTree) (block : ℕ) (i : Fin 64) (v : BitVec 64) : WideRadixTree :=
  let b := (t.memory.cell block).object
  t.setObject block { b with value := Function.update b.value i v }

end WideRadixTree

/-- All that the operations of the tree do to its memory. -/
inductive Call
  | alloc (leaf : Bool)
  | free (leaf : Bool) (obj : ℕ)
  | setNode (x : NodePtr) (n : WideRadixNode)
  | setValue (block : ℕ) (i : Fin 64) (v : BitVec 64)

def call (A : Allocator) (t : WideRadixTree) : Call → Exec WideRadixTree
  | .alloc leaf => do
    let (_, pool, m) ← objectPoolAlloc A t.memory.live.length (t.pool leaf) t.memory
    .ok (t.withPool leaf pool m)
  | .free leaf obj => do
    let m ← objectPoolFree t.memory.live.length (t.pool leaf) t.memory obj
    .ok { t with memory := m }
  | .setNode x n => .ok (t.setNode x n)
  | .setValue block i v => .ok (t.setValue block i v)

end RadixBench.RadixNew.Heap
