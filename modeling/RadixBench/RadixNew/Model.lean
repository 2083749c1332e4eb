import RadixBench.Pool.Model
import RadixBench.Foundation.Mask
import RadixBench.Foundation.Digits

namespace RadixBench.RadixNew

open Foundation Pool

structure WideRadixNode where
  bits : Mask
  children : Fin 4 → Option ℕ

instance : Zero WideRadixNode := ⟨⟨fun _ ↦ 0#64, fun _ ↦ none⟩⟩

@[simp] theorem bits_zero : (0 : WideRadixNode).bits = fun _ ↦ 0#64 := rfl

/-- An object of either pool. One of the non-leaf pool is an array of 64 nodes, one
of the leaf pool an array of 64 values; a fresh one is zero as both. -/
structure Block where
  node : Fin 64 → WideRadixNode
  value : Fin 64 → BitVec 64

instance : Zero Block := ⟨⟨fun _ ↦ 0, fun _ ↦ 0#64⟩⟩

/-- `&tree->root`, or `&((WideRadixNode *)block)[i]`. -/
inductive NodePtr
  | root
  | item (block : ℕ) (i : Fin 64)
  deriving DecidableEq

/-- The tree with the memory that its pools live in. -/
structure WideRadixTree where
  root : WideRadixNode
  numLevels : ℕ
  nonLeafPool : ObjectPool
  leafPool : ObjectPool
  memory : Memory Block

def sizeofWideRadixNode : ℕ := 64

def sizeofValue : ℕ := 8

namespace WideRadixTree

variable (t : WideRadixTree)

def node : NodePtr → WideRadixNode
  | .root => t.root
  | .item block i => (t.memory.cell block).node i

def setNode (x : NodePtr) (n : WideRadixNode) : WideRadixTree :=
  match x with
  | .root => { t with root := n }
  | .item block i =>
    let b := t.memory.cell block
    { t with memory := t.memory.write block { b with node := Function.update b.node i n } }

def value (block : ℕ) (i : Fin 64) : BitVec 64 := (t.memory.cell block).value i

def setValue (block : ℕ) (i : Fin 64) (v : BitVec 64) : WideRadixTree :=
  let b := t.memory.cell block
  { t with memory := t.memory.write block { b with value := Function.update b.value i v } }

/-- `leaf ? &tree->leafPool : &tree->nonLeafPool`. -/
def pool (leaf : Bool) : ObjectPool := if leaf then t.leafPool else t.nonLeafPool

def setPool (leaf : Bool) (pool : ObjectPool) : WideRadixTree :=
  if leaf then { t with leafPool := pool } else { t with nonLeafPool := pool }

end WideRadixTree

def computeNumLevels (log2Max log2Align : BitVec 8) : ℕ :=
  (((((log2Max.toNat : ℤ) - log2Align.toNat) + 7) >>> (3 : ℕ)) % 256).toNat

/-- The results of the two `objectPoolInit` calls are not looked at. -/
def treeInit (A : Allocator) (m : Memory Block) (log2Max log2Align : BitVec 8) : WideRadixTree :=
  let (_, nonLeafPool, m) := objectPoolInit A m (64 * sizeofWideRadixNode) 100
  let (_, leafPool, m) := objectPoolInit A m (64 * sizeofValue) 1000
  { root := 0
    numLevels := computeNumLevels log2Max log2Align
    nonLeafPool := nonLeafPool.getD ⟨0, 0, [], none⟩
    leafPool := leafPool.getD ⟨0, 0, [], none⟩
    memory := m }

namespace WideRadixTree

/-- One round of the loop of `treeInsertOrReturnExisting` up to the presence bit:
the block of the child, allocated if need be, and `none` for `return -1`. -/
def enter (A : Allocator) (t : WideRadixTree) (x : NodePtr) (d : BitVec 8) (leaf : Bool) :
    Option ℕ × WideRadixTree :=
  let t := match (t.node x).children (hi d) with
    | some _ => t
    | none =>
      match objectPoolAlloc A (t.pool leaf) t.memory with
      | (none, pool, memory) => { t.setPool leaf pool with memory := memory }
      | (some obj, pool, memory) =>
        let t := { t.setPool leaf pool with memory := memory }
        let n := t.node x
        t.setNode x { n with children := Function.update n.children (hi d) (some obj) }
  match (t.node x).children (hi d) with
  | none => (none, t)
  | some block =>
    let n := t.node x
    (some block, t.setNode x { n with bits := n.bits.set d })

/-- The loop of `treeInsertOrReturnExisting`; `rem` is `numLevels - level - 1`. The
result is the returned code, `*existing` and the tree. -/
def insertFrom (A : Allocator) (key v : BitVec 64) :
    ℕ → WideRadixTree → NodePtr → ℤ × BitVec 64 × WideRadixTree
  | 0, t, x =>
    let d := digit key 0
    match t.enter A x d true with
    | (none, t) => (-1, 0#64, t)
    | (some block, t) =>
      let existing := t.value block (lo d)
      (0, existing, if existing = 0#64 then t.setValue block (lo d) v else t)
  | rem + 1, t, x =>
    let d := digit key (rem + 1)
    match t.enter A x d false with
    | (none, t) => (-1, 0#64, t)
    | (some block, t) => insertFrom A key v rem t (.item block (lo d))

end WideRadixTree

def treeInsertOrReturnExisting (A : Allocator) (t : WideRadixTree) (key v : BitVec 64) :
    ℤ × BitVec 64 × WideRadixTree :=
  match t.numLevels with
  | 0 => (0, 0#64, t)
  | last + 1 => t.insertFrom A key v last .root

namespace WideRadixTree

def findFrom (t : WideRadixTree) (key : BitVec 64) : ℕ → NodePtr → BitVec 64
  | 0, x =>
    let d := digit key 0
    if (t.node x).bits (hi d) &&& 1#64 <<< (lo d).val = 0#64 then 0#64
    else
      match (t.node x).children (hi d) with
      | none => 0#64
      | some block => t.value block (lo d)
  | rem + 1, x =>
    let d := digit key (rem + 1)
    if (t.node x).bits (hi d) &&& 1#64 <<< (lo d).val = 0#64 then 0#64
    else
      match (t.node x).children (hi d) with
      | none => 0#64
      | some block => findFrom t key rem (.item block (lo d))

end WideRadixTree

def treeFind (t : WideRadixTree) (key : BitVec 64) : BitVec 64 :=
  match t.numLevels with
  | 0 => 0#64
  | last + 1 => t.findFrom key last .root

/-- `keyLevelIdx` and `keyLevelChild`, the root's first. -/
def getKeyLevelBits (key : BitVec 64) : ℕ → List (Fin 4 × Fin 64)
  | 0 => []
  | n + 1 => getKeyLevelBits (key >>> 8) n ++
      [(Fin.ofNat 4 ((key &&& 0xC0#64) >>> 6).toNat, Fin.ofNat 64 (key &&& 0x3F#64).toNat)]

namespace WideRadixTree

/-- The entries of `nodes`, `keyLevelIdx` and `keyLevelChild` that `treeRemove` has
filled in when its first loop ends, the deepest first. -/
def removePath (t : WideRadixTree) : List (Fin 4 × Fin 64) → NodePtr →
    List (NodePtr × Fin 4 × Fin 64) → List (NodePtr × Fin 4 × Fin 64)
  | [], _, stack => stack
  | [(i, c)], x, stack => (x, i, c) :: stack
  | (i, c) :: level :: rest, x, stack =>
    match (t.node x).children i with
    | none => (x, i, c) :: stack
    | some block => removePath t (level :: rest) (.item block c) ((x, i, c) :: stack)

/-- Clears one presence bit, and gives the block back with the last bit of its word. -/
def clearSlot (t : WideRadixTree) (x : NodePtr) (i : Fin 4) (c : Fin 64) (leaf : Bool) :
    WideRadixTree :=
  let n := t.node x
  let word := n.bits i &&& ~~~(1#64 <<< c.val)
  let t := t.setNode x { n with bits := Function.update n.bits i word }
  if word = 0#64 then
    match n.children i with
    | none => t
    | some block =>
      let t := t.setPool leaf (objectPoolFree (t.pool leaf) block)
      let n := t.node x
      t.setNode x { n with children := Function.update n.children i none }
  else t

/-- The second loop of `treeRemove`; the entry of level 0 ends it. -/
def removeClear (t : WideRadixTree) : List (NodePtr × Fin 4 × Fin 64) → WideRadixTree
  | (x, i, c) :: entry :: stack =>
    let t := t.clearSlot x i c ((entry :: stack).length = t.numLevels - 1)
    let n := t.node x
    if n.bits 0 ≠ 0#64 ∨ n.bits 1 ≠ 0#64 ∨ n.bits 2 ≠ 0#64 ∨ n.bits 3 ≠ 0#64 then t
    else removeClear t (entry :: stack)
  | _ => t

def removeValue (t : WideRadixTree) (stack : List (NodePtr × Fin 4 × Fin 64)) :
    BitVec 64 × WideRadixTree :=
  match stack with
  | [] => (0#64, t)
  | (x, i, c) :: rest =>
    if rest.length = t.numLevels - 1 then
      match (t.node x).children i with
      | none => (0#64, t)
      | some block => (t.value block c, t.setValue block c 0#64)
    else (0#64, t)

end WideRadixTree

def treeRemove (t : WideRadixTree) (key : BitVec 64) : BitVec 64 × WideRadixTree :=
  let stack := t.removePath (getKeyLevelBits key t.numLevels) .root []
  let (v, t) := t.removeValue stack
  (v, t.removeClear stack)

end RadixBench.RadixNew
