import RadixBench.Pool.Destruction
import RadixBench.RadixNew.Aliasing
import RadixBench.RadixNew.Heap

namespace RadixBench.RadixNew

open Foundation Memory Pool

open Heap (Call)

def call (A : Allocator) (t : WideRadixTree) : Call → WideRadixTree
  | .alloc leaf =>
    let (_, pool, m) := objectPoolAlloc A (t.pool leaf) t.memory
    t.withPool leaf pool m
  | .free leaf obj => t.setPool leaf (objectPoolFree (t.pool leaf) obj)
  | .setNode x n => t.setNode x n
  | .setValue block i v => t.setValue block i v

section Calls

variable {A : Allocator} {t t' t'' : WideRadixTree}

def Calls (A : Allocator) (t t' : WideRadixTree) : Prop :=
  ∃ calls : List Call, t' = calls.foldl (call A) t

namespace Calls

theorem refl : Calls A t t := ⟨[], rfl⟩

theorem trans (h : Calls A t t') (h' : Calls A t' t'') : Calls A t t'' := by
  obtain ⟨calls, rfl⟩ := h
  obtain ⟨calls', rfl⟩ := h'
  exact ⟨calls ++ calls', List.foldl_append.symm⟩

theorem one (c : Call) : Calls A t (call A t c) := ⟨[c], rfl⟩

theorem setNode (x : NodePtr) (n : WideRadixNode) : Calls A t (t.setNode x n) := one (.setNode x n)

theorem setValue (block : ℕ) (i : Fin 64) (v : BitVec 64) : Calls A t (t.setValue block i v) :=
  one (.setValue block i v)

theorem free (leaf : Bool) (obj : ℕ) :
    Calls A t (t.setPool leaf (objectPoolFree (t.pool leaf) obj)) := one (.free leaf obj)

theorem alloc (leaf : Bool) {r : Option ℕ} {pool : ObjectPool} {m : Memory Block}
    (h : objectPoolAlloc A (t.pool leaf) t.memory = (r, pool, m)) :
    Calls A t (t.withPool leaf pool m) := by
  have hone := one (A := A) (t := t) (.alloc leaf)
  rwa [call, h] at hone

theorem enter (t : WideRadixTree) (x : NodePtr) (d : BitVec 8) (leaf : Bool) :
    Calls A t (t.enter A x d leaf).2 := by
  rw [WideRadixTree.enter]
  cases hchild : (t.node x).children (hi d) with
  | some block =>
    simp only [hchild]
    exact setNode x _
  | none =>
    cases halloc : objectPoolAlloc A (t.pool leaf) t.memory with
    | mk r rest =>
      obtain ⟨pool, m⟩ := rest
      have hpool : Calls A t (t.withPool leaf pool m) := alloc leaf halloc
      cases r with
      | none =>
        dsimp only
        split
        · exact hpool
        · exact hpool.trans (setNode x _)
      | some obj =>
        have hlink := hpool.trans (setNode x { (t.withPool leaf pool m).node x with
          children := Function.update ((t.withPool leaf pool m).node x).children (hi d) obj })
        dsimp only
        split
        · exact hlink
        · exact hlink.trans (setNode x _)

theorem insertFrom (key v : BitVec 64) (rem : ℕ) (t : WideRadixTree) (x : NodePtr) :
    Calls A t (t.insertFrom A key v rem x).2.2 := by
  induction rem generalizing t x with
  | zero =>
    have henter := enter (A := A) t x (digit key 0) true
    rw [WideRadixTree.insertFrom]
    cases hrun : t.enter A x (digit key 0) true with
    | mk r t₁ =>
      rw [hrun] at henter
      cases r with
      | none => exact henter
      | some block =>
        dsimp only
        split_ifs
        · exact henter.trans (setValue block _ v)
        · exact henter
  | succ rem ih =>
    have henter := enter (A := A) t x (digit key (rem + 1)) false
    rw [WideRadixTree.insertFrom]
    cases hrun : t.enter A x (digit key (rem + 1)) false with
    | mk r t₁ =>
      rw [hrun] at henter
      cases r with
      | none => exact henter
      | some block => exact henter.trans (ih t₁ _)

theorem clearSlot (t : WideRadixTree) (x : NodePtr) (i : Fin 4) (c : Fin 64) (leaf : Bool) :
    Calls A t (t.clearSlot x i c leaf) := by
  rw [WideRadixTree.clearSlot]
  dsimp only
  split_ifs
  · cases (t.node x).children i with
    | none => exact setNode x _
    | some block => exact (setNode x _).trans ((free leaf block).trans (setNode x _))
  · exact setNode x _

theorem removeClear (stack : List (NodePtr × Fin 4 × Fin 64)) (t : WideRadixTree) :
    Calls A t (t.removeClear stack) := by
  induction stack generalizing t with
  | nil => exact refl
  | cons entry stack ih =>
    obtain ⟨x, i, c⟩ := entry
    cases stack with
    | nil => exact refl
    | cons entry stack =>
      rw [WideRadixTree.removeClear]
      split_ifs
      · exact clearSlot t x i c _
      · exact (clearSlot t x i c _).trans (ih _)

theorem removeValue (stack : List (NodePtr × Fin 4 × Fin 64)) (t : WideRadixTree) :
    Calls A t (t.removeValue stack).2 := by
  cases stack with
  | nil => exact refl
  | cons entry stack =>
    obtain ⟨x, i, c⟩ := entry
    rw [WideRadixTree.removeValue]
    split_ifs
    · cases (t.node x).children i with
      | none => exact refl
      | some block => exact setValue block c 0#64
    · exact refl

theorem treeStep {op : MapOp} (h : treeStep A t op = .ok t') : Calls A t t' := by
  cases op with
  | insert key value =>
    obtain rfl := Except.ok.inj h
    rw [treeInsertOrReturnExisting]
    cases t.numLevels with
    | zero => exact refl
    | succ last => exact insertFrom key value last t .root
  | remove key =>
    obtain rfl := Except.ok.inj h
    exact (removeValue _ t).trans (removeClear _ _)

end Calls

end Calls

section Simulation

open Pool.Heap (Placed Shadows Represents Ledger Frame Extends view shadows_view)

variable {A : Allocator} {T : Heap.WideRadixTree} {t : WideRadixTree} {l : Bool → List Placed}
  {old : List Region} {m m' : Memory (Pool.Heap.Cell Block)} {μ μ' : Memory Block}

/-- The pools of `T` are the pools of `t` laid out in the heap, where `old` is live as well. -/
structure Kept (T : Heap.WideRadixTree) (t : WideRadixTree) (l : Bool → List Placed)
    (old : List Region) : Prop where
  root : T.root = t.root
  numLevels : T.numLevels = t.numLevels
  shadows : Shadows T.memory t.memory
  pool : ∀ leaf, Represents (T.pool leaf) T.memory (t.pool leaf) (l leaf)
  ledger : ∀ leaf, Ledger T.memory (l leaf) ((l !leaf).flatMap Placed.addresses) old

theorem Kept.update (h : Kept T t l old) (leaf : Bool) {P : Pool.Heap.ObjectPool}
    {p : ObjectPool} {l₁ : List Placed} (hrep : Represents P m p l₁) (hs : Shadows m μ)
    (hext : Extends T.memory m (l leaf) l₁) :
    Kept (T.withPool leaf P m) (t.withPool leaf p μ) (Function.update l leaf l₁) old := by
  have hother : Represents (T.pool !leaf) m (t.pool !leaf) (l !leaf) :=
    (h.pool !leaf).frame hext.frame fun a ha hmem ↦
      (List.nodup_append'.mp (h.ledger leaf).nodup).2.2 hmem ha
  have hledger := (h.ledger leaf).extends hext hrep.laid
  cases leaf with
  | false =>
    refine ⟨h.root, h.numLevels, hs, fun leaf ↦ ?_, fun leaf ↦ ?_⟩
    · cases leaf
      · exact hrep
      · exact hother
    · cases leaf
      · exact hledger
      · exact hledger.swap hrep.laid
  | true =>
    refine ⟨h.root, h.numLevels, hs, fun leaf ↦ ?_, fun leaf ↦ ?_⟩
    · cases leaf
      · exact hother
      · exact hrep
    · cases leaf
      · exact hledger.swap hrep.laid
      · exact hledger

theorem Kept.setObject (h : Kept T t l old) (block : ℕ) (b : Block) :
    Kept (T.setObject block b) { t with memory := t.memory.write block b } l old := by
  have hframe : Frame T.memory (T.setObject block b).memory [] := .setObject T.memory block b
  refine ⟨h.root, h.numLevels, h.shadows.setObject block b, fun leaf ↦
    (h.pool leaf).frame hframe fun _ _ ↦ List.not_mem_nil, fun leaf ↦ ?_⟩
  have hledger := h.ledger leaf
  exact ⟨hledger.nodup, fun a ha ↦ hframe.held (hledger.held a ha), hledger.rest.congr rfl⟩

theorem Kept.destroy (h : Kept T t l old) {fuel : ℕ} (hfuel : T.memory.live.length ≤ fuel) :
    ∃ m', Heap.treeDestroy fuel T = .ok ⟨0, 0, ⟨0, 0, none, none⟩, ⟨0, 0, none, none⟩, m'⟩ ∧
      m'.live = old := by
  obtain ⟨m₁, hrun₁, hfreed₁⟩ := Pool.Heap.freeBlocks_frees (h.pool false).laid
    ((h.pool false).laid.length_le.trans hfuel)
  have hledger := h.ledger false
  have hlaid := (h.pool true).laid.freed hfreed₁ fun a ha hmem ↦
    (List.nodup_append'.mp hledger.nodup).2.2 hmem ha
  obtain ⟨m₂, hrun₂, hfreed₂⟩ := Pool.Heap.freeBlocks_frees hlaid
    ((h.pool true).laid.length_le.trans hfuel)
  refine ⟨m₂, ?_, hledger.rest.freed ?_⟩
  · have hnonLeaf : Pool.Heap.freeBlocks fuel T.memory T.nonLeafPool.pools = .ok m₁ := hrun₁
    have hleaf : Pool.Heap.freeBlocks fuel m₁ T.leafPool.pools = .ok m₂ := hrun₂
    rw [Heap.treeDestroy, Pool.Heap.objectPoolDestroy, hnonLeaf, ok_bind, ok_bind]
    dsimp only
    rw [Pool.Heap.objectPoolDestroy, hleaf, ok_bind, ok_bind]
  · convert hfreed₁.trans hfreed₂ using 1
    ext a
    simp

structure InHeap (T : Heap.WideRadixTree) (t : WideRadixTree) : Prop where
  root : T.root = t.root
  numLevels : T.numLevels = t.numLevels
  memory : view T.memory = t.memory
  pool : ∀ leaf, ∃ l, Represents (T.pool leaf) T.memory (t.pool leaf) l

end Simulation

end RadixBench.RadixNew
