import RadixBench.Pool.Layout

namespace RadixBench.Pool.Heap

open Foundation Memory

variable {C : Type} {m m' : Memory (Cell C)} {μ μ' : Memory C} {S T : List ℕ}
  {head : Option ℕ} {l pre post : List Placed} {x y : Placed}

theorem Placed.In.read_base (h : x.In m) : m.read x.base = .ok (m.cell x.base) :=
  read_of_live (h.held _ Placed.base_mem).isLive

theorem Placed.In.read_freeList (h : x.In m) : m.read x.freeList = .ok (m.cell x.freeList) :=
  read_of_live (h.held _ Placed.freeList_mem).isLive

section Search

theorem findBlock_cases (test : ObjectPoolBlock → Bool) (test' : Pool.ObjectPoolBlock → Bool)
    (htest : ∀ x next, test (Placed.image x next) = test' x.block) (h : Laid m head l) {fuel : ℕ}
    (hfuel : l.length ≤ fuel) :
    (findBlock m test fuel head = .ok none ∧ (l.map Placed.block).findIdx? test' = none) ∨
      ∃ pre x post, l = pre ++ x :: post ∧ findBlock m test fuel head = .ok (some x.base) ∧
        (l.map Placed.block).findIdx? test' = some pre.length := by
  induction l generalizing head fuel with
  | nil =>
    obtain rfl := h.chain
    exact .inl ⟨by rw [findBlock], rfl⟩
  | cons x l ih =>
    obtain ⟨rfl, -⟩ := h.chain
    have hx := h.block x List.mem_cons_self
    obtain ⟨fuel, rfl⟩ : ∃ n, fuel = n + 1 := ⟨fuel - 1, by simp at hfuel; omega⟩
    have hfuel : l.length ≤ fuel := by simpa using hfuel
    rw [findBlock, hx.read_base, ok_bind, hx.block]
    dsimp only
    rw [htest, List.map_cons, List.findIdx?_cons]
    by_cases hb : test' x.block = true
    · rw [if_pos hb, if_pos hb]
      exact .inr ⟨[], x, l, rfl, rfl, rfl⟩
    · rw [if_neg hb, if_neg hb]
      obtain ⟨hrun, hnone⟩ | ⟨pre, y, post, rfl, hrun, hsome⟩ := ih h.tail hfuel
      · exact .inl ⟨hrun, by rw [hnone]; rfl⟩
      · exact .inr ⟨x :: pre, y, post, rfl, hrun, by rw [hsome]; rfl⟩

theorem lastBlock_eq (h : Laid m head (x :: post)) {pre : List Placed}
    (hl : x :: post = pre ++ [y]) {fuel : ℕ} (hfuel : post.length < fuel) :
    lastBlock m fuel x.base = .ok y.base := by
  induction post generalizing head x pre fuel with
  | nil =>
    obtain ⟨rfl, rfl⟩ : pre = [] ∧ x = y := by
      cases pre <;> simp_all
    obtain ⟨fuel, rfl⟩ : ∃ n, fuel = n + 1 := ⟨fuel - 1, by omega⟩
    have hnone : (m.cell x.base).block.next = none := h.chain.2
    rw [lastBlock, (h.block x List.mem_cons_self).read_base, ok_bind, hnone]
  | cons z post ih =>
    obtain ⟨fuel, rfl⟩ : ∃ n, fuel = n + 1 := ⟨fuel - 1, by omega⟩
    have hnext : (m.cell x.base).block.next = some z.base := h.chain.2.1
    cases pre with
    | nil => cases hl
    | cons w pre =>
      rw [lastBlock, (h.block x List.mem_cons_self).read_base, ok_bind, hnext]
      exact ih h.tail (List.cons.inj hl).2 (by simpa using hfuel)

end Search

section Creation

variable [Zero C] {A : Allocator}

/-- What one call of `calloc` does to both memories. -/
theorem calloc_simulates (h : Shadows m μ) (A : Allocator) (n : ℕ) :
    (∃ m' μ', m.calloc A n = (none, m') ∧ μ.calloc A n = (none, μ') ∧ Shadows m' μ' ∧
      m'.live = m.live ∧ Frame m m' []) ∨
    ∃ a m' μ', m.calloc A n = (some a, m') ∧ μ.calloc A n = (some a, μ') ∧ Shadows m' μ' ∧
      m'.live = ⟨a, n⟩ :: m.live ∧ Frame m m' [] ∧ 0 < a ∧ ∀ r ∈ m.live, r.base ≠ a := by
  have hshadow := h.calloc A n
  obtain ⟨m', heq, hl, -, hc⟩ | ⟨a, m', heq, hpos, -, hfresh, hl, -, hs, -⟩ := calloc_cases A m n
  · rw [heq] at hshadow
    refine .inl ⟨m', (μ.calloc A n).2, heq, Prod.ext hshadow.1.symm rfl, hshadow.2, hl, ?_⟩
    exact .of_live hl fun a _ ↦ by rw [hc]; exact ⟨rfl, rfl⟩
  · rw [heq] at hshadow
    refine .inr ⟨a, m', (μ.calloc A n).2, heq, Prod.ext hshadow.1.symm rfl, hshadow.2, hl, ?_,
      hpos, fun r hr ↦ (hfresh r hr).1.symm⟩
    exact .of_sameOn (by simp [hl]) hs

/-- A block that both versions of `createNewPool` have made. -/
structure Made (x : Placed) (objectSize capacity : ℕ) (m m' : Memory (Cell C)) : Prop where
  block : x.block = ⟨x.block.pool, objectSize, capacity, 0,
    Pool.ObjectPoolBlock.initFreeList x.block.pool objectSize capacity, capacity⟩
  isIn : x.In m'
  last : nextBlock m' x.base = none
  nodup : x.addresses.Nodup
  fresh : ∀ r ∈ m.live, r.base ∉ x.addresses
  live : ∃ new, m'.live = new ++ m.live ∧ ∀ r ∈ new, r.base ∈ x.addresses
  frame : Frame m m' []

theorem createNewPool_simulates (h : Shadows m μ) (A : Allocator) {objectSize capacity : ℕ}
    (hsize : 0 < objectSize) (hcap : 0 < capacity) (hfits : Fits objectSize capacity) :
    (∃ m' μ', createNewPool A m objectSize capacity = (none, m') ∧
      Pool.createNewPool A μ objectSize capacity = (none, μ') ∧ Shadows m' μ' ∧
      m'.live = m.live ∧ Frame m m' []) ∨
    ∃ x m' μ', createNewPool A m objectSize capacity = (some x.base, m') ∧
      Pool.createNewPool A μ objectSize capacity = (some x.block, μ') ∧ Shadows m' μ' ∧
      Made x objectSize capacity m m' := by
  rw [createNewPool, Pool.createNewPool]
  obtain ⟨m₁, μ₁, h₁, h₁', hs₁, hl₁, hf₁⟩ | ⟨a, m₁, μ₁, h₁, h₁', hs₁, hl₁, hf₁, ha, hfa⟩ :=
    calloc_simulates h A sizeofObjectPoolBlock
  · rw [h₁, h₁']
    exact .inl ⟨m₁, μ₁, rfl, rfl, hs₁, hl₁, hf₁⟩
  rw [h₁, h₁']
  dsimp only
  obtain ⟨m₂, μ₂, h₂, h₂', hs₂, hl₂, hf₂⟩ | ⟨p, m₂, μ₂, h₂, h₂', hs₂, hl₂, hf₂, hp, hfp⟩ :=
    calloc_simulates hs₁ A (wrap (objectSize * capacity))
  · rw [h₂, h₂']
    have hlive := free_live (hl₂.trans hl₁) fun r hr ↦ (hfa r hr).symm
    exact .inl ⟨_, _, rfl, rfl, hs₂.free a, hlive, (hf₁.trans hf₂).of_freed hlive rfl⟩
  rw [h₂, h₂']
  dsimp only
  obtain ⟨m₃, μ₃, h₃, h₃', hs₃, hl₃, hf₃⟩ | ⟨f, m₃, μ₃, h₃, h₃', hs₃, hl₃, hf₃, hf, hff⟩ :=
    calloc_simulates hs₂ A (wrap (sizeofPointer * capacity))
  · rw [h₃, h₃']
    have hlive₂ := free_live (hl₃.trans hl₂) fun r hr ↦ (hfp r hr).symm
    have hlive := free_live (hlive₂.trans hl₁) fun r hr ↦ (hfa r hr).symm
    exact .inl ⟨_, _, rfl, rfl, (hs₃.free p).free a, hlive,
      ((hf₁.trans hf₂).trans hf₃).of_freed hlive rfl⟩
  rw [h₃, h₃']
  have hlive : m₃.live = [⟨f, wrap (sizeofPointer * capacity)⟩, ⟨p, wrap (objectSize * capacity)⟩,
      ⟨a, sizeofObjectPoolBlock⟩] ++ m.live := by rw [hl₃, hl₂, hl₁]; rfl
  have hpa : p ≠ a := (hfp ⟨a, sizeofObjectPoolBlock⟩ (by simp [hl₁])).symm
  have hfa' : f ≠ a := (hff ⟨a, sizeofObjectPoolBlock⟩ (by simp [hl₂, hl₁])).symm
  have hfp' : f ≠ p := (hff ⟨p, wrap (objectSize * capacity)⟩ (by simp [hl₂])).symm
  refine .inr ⟨⟨⟨p, objectSize, capacity, 0,
    Pool.ObjectPoolBlock.initFreeList p objectSize capacity, capacity⟩, a, f⟩, _, _, rfl, rfl,
    (hs₃.setSlots f _).setBlock a _, rfl, ⟨?_, ?_, ?_, ?_⟩, ?_, ?_, ?_, ⟨_, hlive, ?_⟩, ?_⟩
  · rw [setBlock, write_cell_self]
    rfl
  · rw [setBlock, write_cell_of_ne _ _ hfa', setSlots, write_cell_self]
  · simp only [Placed.addresses, List.forall_mem_cons]
    exact ⟨ha.ne', hp.ne', hf.ne', by simp⟩
  · have hsizes : 0 < wrap (objectSize * capacity) ∧ 0 < wrap (sizeofPointer * capacity) := by
      rw [wrap_of_lt hfits.1, wrap_of_lt hfits.2]
      exact ⟨Nat.mul_pos hsize hcap, Nat.mul_pos (by decide) hcap⟩
    have hmem : ∀ r ∈ [Region.mk f (wrap (sizeofPointer * capacity)),
        ⟨p, wrap (objectSize * capacity)⟩, ⟨a, sizeofObjectPoolBlock⟩], r ∈ m₃.live := fun r hr ↦
      hlive ▸ List.mem_append_left _ hr
    simp only [List.forall_mem_cons] at hmem
    simp only [Placed.addresses, List.forall_mem_cons]
    exact ⟨⟨_, hmem.2.2.1, rfl, Nat.zero_lt_succ 55⟩, ⟨_, hmem.2.1, rfl, hsizes.1⟩,
      ⟨_, hmem.1, rfl, hsizes.2⟩, by simp⟩
  · rw [nextBlock, setBlock, write_cell_self]
  · simp [Placed.addresses, hpa.symm, hfa'.symm, hfp'.symm]
  · intro r hr
    simp only [Placed.addresses, List.mem_cons, List.not_mem_nil, or_false, not_or]
    exact ⟨hfa r hr, hfp r (by simp [hl₁, hr]), hff r (by simp [hl₂, hl₁, hr])⟩
  · simp [Placed.addresses]
  · exact (((hf₁.trans hf₂).trans hf₃).write_fresh
      (fun r hr ↦ hff r (by simp [hl₂, hl₁, hr])) _).write_fresh hfa _

end Creation

theorem Placed.In.fields (h : x.In m) : ∃ b, (m.cell x.base).block = b ∧
    b = x.image (nextBlock m x.base) ∧ b.freeListTop = x.block.freeListTop ∧
    b.freeList = x.freeList ∧ b.pool = x.block.pool ∧ b.limit = x.block.limit :=
  ⟨_, h.block, rfl, rfl, rfl, rfl, rfl⟩

theorem setSlots_self {a : ℕ} {slots : ℕ → ℕ} (h : (m.cell a).slots = slots) :
    setSlots m a slots = m := by
  have hcell : ({ m.cell a with slots := slots } : Cell C) = m.cell a := by rw [← h]
  rw [setSlots, hcell, Memory.write, Function.update_eq_self]

theorem getElem?_middle {pools : List Pool.ObjectPoolBlock}
    (hpools : pools = (pre ++ x :: post).map Placed.block) : pools[pre.length]? = some x.block := by
  rw [hpools, List.map_append, List.map_cons, List.getElem?_append_right (by simp)]
  simp

theorem setBlock_middle {pool' : Pool.ObjectPool}
    (hpools : pool'.pools = (pre ++ x :: post).map Placed.block) (b : Pool.ObjectPoolBlock) :
    pool'.setBlock pre.length b =
      { pool' with pools := (pre ++ { x with block := b } :: post).map Placed.block } := by
  rw [Pool.ObjectPool.setBlock, hpools]
  simp

theorem take_simulates (h : Laid m head (pre ++ x :: post)) (hs : Shadows m μ)
    (pool' : Pool.ObjectPool) (hpools : pool'.pools = (pre ++ x :: post).map Placed.block) :
    ∃ obj m' b, take m x.base = .ok (obj, m') ∧ pool'.take pre.length =
        (obj, { pool' with pools := (pre ++ { x with block := b } :: post).map Placed.block }) ∧
      b.pool = x.block.pool ∧ Laid m' head (pre ++ { x with block := b } :: post) ∧
      Shadows m' μ ∧ m'.live = m.live ∧ Frame m m' x.addresses := by
  have hx := h.block x (by simp)
  have hslots : ∀ b : Pool.ObjectPoolBlock, b.freeList = x.block.freeList →
      setSlots m x.freeList b.freeList = m := fun b hb ↦ setSlots_self (hb ▸ hx.slots)
  have hself : pool' = { pool' with pools := (pre ++ x :: post).map Placed.block } := by
    rw [← hpools]
  have hupdate : ∀ b : Pool.ObjectPoolBlock, b.pool = x.block.pool →
      b.freeList = x.block.freeList →
      let m' := setBlock m x.base (Placed.image { x with block := b } (nextBlock m x.base))
      Laid m' head (pre ++ { x with block := b } :: post) ∧ Frame m m' x.addresses :=
    fun b hpool hlist ↦ h.update hpool rfl (by rw [hslots b hlist])
  obtain ⟨b, hb, hself', htop_eq, hlist_eq, hpool_eq, hlimit_eq⟩ := hx.fields
  rw [take, hx.read_base, ok_bind, hb, Pool.ObjectPool.take, getElem?_middle hpools]
  dsimp only
  rw [htop_eq, hlist_eq, hpool_eq, hlimit_eq]
  by_cases htop : x.block.freeListTop = 0
  · rw [if_pos htop, if_pos htop]
    exact ⟨none, m, x.block, rfl, by rw [← hself], rfl, h, hs, rfl, .refl m⟩
  · rw [if_neg htop, if_neg htop, hx.read_freeList, ok_bind, hx.slots]
    by_cases hout : x.block.freeList (x.block.freeListTop - 1) < x.block.pool ∨
        x.block.limit ≤ x.block.freeList (x.block.freeListTop - 1)
    · rw [if_pos hout, if_pos hout, setBlock_middle hpools, hself']
      obtain ⟨hlaid, hframe⟩ := hupdate
        { x.block with freeListTop := x.block.freeListTop - 1 } rfl rfl
      exact ⟨none, _, _, rfl, rfl, rfl, hlaid, hs.setBlock _ _, rfl, hframe⟩
    · rw [if_neg hout, if_neg hout, setBlock_middle hpools, hself']
      obtain ⟨hlaid, hframe⟩ := hupdate { x.block with
        freeListTop := x.block.freeListTop - 1, used := wrap (x.block.used + 1) } rfl rfl
      exact ⟨_, _, _, rfl, rfl, rfl, hlaid, hs.setBlock _ _, rfl, hframe⟩

structure Represents (pool : ObjectPool) (m : Memory (Cell C)) (pool' : Pool.ObjectPool)
    (l : List Placed) : Prop where
  laid : Laid m pool.pools l
  pools : pool'.pools = l.map Placed.block
  current : pool.currentPool = (pool'.currentPool.bind (l[·]?)).map Placed.base
  objectSize : pool'.objectSize = pool.objectSize
  initialCapacity : pool'.initialCapacity = pool.initialCapacity
  size_pos : 0 < pool.objectSize
  capacity_pos : 0 < pool.initialCapacity
  fits : Fits pool.objectSize (2 * pool.initialCapacity)

variable {pool : ObjectPool} {pool' : Pool.ObjectPool} {fuel : ℕ}

theorem eq_append_of_getElem? {i : ℕ} (h : l[i]? = some x) :
    ∃ pre post, l = pre ++ x :: post ∧ pre.length = i := by
  obtain ⟨hi, rfl⟩ := List.getElem?_eq_some_iff.mp h
  refine ⟨l.take i, l.drop (i + 1), ?_, by simp [hi.le]⟩
  rw [← List.drop_eq_getElem_cons hi, List.take_append_drop]

theorem poolToUse_cases (h : Represents pool m pool' l) (hfuel : l.length ≤ fuel) :
    (poolToUse fuel pool m = .ok none ∧ pool'.poolToUse = none) ∨
      ∃ pre x post, l = pre ++ x :: post ∧ poolToUse fuel pool m = .ok (some x.base) ∧
        pool'.poolToUse = some pre.length := by
  have hsearch := findBlock_cases (fun b ↦ 0 < b.freeListTop) (fun b ↦ 0 < b.freeListTop)
    (fun _ _ ↦ rfl) h.laid hfuel
  rw [← h.pools] at hsearch
  rw [poolToUse, h.current, Pool.ObjectPool.poolToUse, Pool.ObjectPool.search]
  cases hcurrent : pool'.currentPool with
  | none => exact hsearch
  | some i =>
    have hget : pool'.pools[i]? = (l[i]?).map Placed.block := by rw [h.pools, List.getElem?_map]
    simp only [Option.bind_some, hget]
    cases hi : l[i]? with
    | none => exact hsearch
    | some x =>
      obtain ⟨pre, post, hl, hlen⟩ := eq_append_of_getElem? hi
      have hx := h.laid.block x (List.mem_of_getElem? hi)
      obtain ⟨b, hb, -, htop, -⟩ := hx.fields
      simp only [Option.map_some, hx.read_base, ok_bind, hb, htop]
      by_cases hpos : 0 < x.block.freeListTop
      · rw [if_pos hpos, if_pos hpos]
        exact .inr ⟨pre, x, post, hl, rfl, by rw [hlen]⟩
      · rw [if_neg hpos, if_neg hpos]
        exact hsearch

theorem addBlock_simulates (h : Laid m pool.pools l) (hs : Shadows m μ) (hx : x.In m)
    (hlast : nextBlock m x.base = none) (hnodup : ((l ++ [x]).flatMap Placed.addresses).Nodup)
    (hfuel : l.length ≤ fuel) :
    ∃ head m', addBlock fuel pool m x.base = .ok ({ pool with pools := head }, m') ∧
      Laid m' head (l ++ [x]) ∧ Shadows m' μ ∧ m'.live = m.live ∧
      Frame m m' (l.flatMap Placed.addresses) := by
  rcases List.eq_nil_or_concat' l with rfl | ⟨pre, y, rfl⟩
  · have hnone : pool.pools = none := h.chain
    exact ⟨some x.base, m, by rw [addBlock, hnone], ⟨⟨rfl, hlast⟩, by simpa using hx, hnodup⟩, hs,
      rfl, .refl m⟩
  · obtain ⟨z, post, hz⟩ : ∃ z post, pre ++ [y] = z :: post := by
      cases pre with
      | nil => exact ⟨y, [], rfl⟩
      | cons z pre => exact ⟨z, pre ++ [y], rfl⟩
    have hlastBlock : lastBlock m fuel z.base = .ok y.base := by
      refine lastBlock_eq (hz ▸ h) hz.symm ?_
      rw [hz, List.length_cons] at hfuel
      omega
    have hrun : addBlock fuel pool m x.base =
        .ok (pool, setBlock m y.base { (m.cell y.base).block with next := some x.base }) := by
      have hhead : pool.pools = some z.base := (hz ▸ h.chain).1
      rw [addBlock, hhead]
      dsimp only
      rw [hlastBlock, ok_bind]
    refine ⟨pool.pools, _, hrun, h.append hx hlast hnodup rfl, hs.setBlock _ _, rfl, ?_⟩
    exact .write m _ _ (by simp [Placed.addresses])

structure Extends (m m' : Memory (Cell C)) (l l' : List Placed) : Prop where
  frame : Frame m m' (l.flatMap Placed.addresses)
  taken : ∃ new regions, l'.flatMap Placed.addresses = l.flatMap Placed.addresses ++ new ∧
    m'.live = regions ++ m.live ∧ (∀ r ∈ regions, r.base ∈ new) ∧ ∀ r ∈ m.live, r.base ∉ new

theorem Extends.of_same {l' : List Placed} (hframe : Frame m m' S)
    (hS : S ⊆ l.flatMap Placed.addresses) (hlive : m'.live = m.live)
    (haddr : l'.flatMap Placed.addresses = l.flatMap Placed.addresses) : Extends m m' l l' :=
  ⟨hframe.mono hS, [], [], by simpa using haddr, hlive, by simp, by simp⟩

theorem flatMap_update {b : Pool.ObjectPoolBlock} (hb : b.pool = x.block.pool) :
    (pre ++ { x with block := b } :: post).flatMap Placed.addresses =
      (pre ++ x :: post).flatMap Placed.addresses := by
  simp [Placed.addresses, hb]

theorem addresses_subset : x.addresses ⊆ (pre ++ x :: post).flatMap Placed.addresses :=
  fun a ha ↦ List.mem_flatMap.mpr ⟨x, by simp, ha⟩

theorem getElem?_map_base {b : Pool.ObjectPoolBlock} (i : ℕ) :
    ((pre ++ { x with block := b } :: post)[i]?).map Placed.base =
      ((pre ++ x :: post)[i]?).map Placed.base := by
  rw [← List.getElem?_map, ← List.getElem?_map]
  simp

theorem Laid.notMem_addresses [Zero C] (h : Laid m head l) {objectSize capacity : ℕ}
    (hx : Made x objectSize capacity m m') {a : ℕ} (ha : a ∈ l.flatMap Placed.addresses) :
    a ∉ x.addresses := by
  obtain ⟨y, hy, hay⟩ := List.mem_flatMap.mp ha
  obtain ⟨r, hr, rfl, -⟩ := (h.block y hy).held a hay
  exact hx.fresh r hr

theorem Laid.nodup_append [Zero C] (h : Laid m head l) {objectSize capacity : ℕ}
    (hx : Made x objectSize capacity m m') : ((l ++ [x]).flatMap Placed.addresses).Nodup := by
  rw [List.flatMap_append, List.flatMap_singleton, List.nodup_append']
  exact ⟨h.nodup, hx.nodup, fun a ha ↦ h.notMem_addresses hx ha⟩

theorem objectPoolAlloc_simulates [Zero C] (A : Allocator) (h : Represents pool m pool' l)
    (hs : Shadows m μ) (hfuel : l.length ≤ fuel) :
    ∃ obj pool₁ m₁ pool₁' μ₁ l₁, objectPoolAlloc A fuel pool m = .ok (obj, pool₁, m₁) ∧
      Pool.objectPoolAlloc A pool' μ = (obj, pool₁', μ₁) ∧ Represents pool₁ m₁ pool₁' l₁ ∧
      Shadows m₁ μ₁ ∧ Extends m m₁ l l₁ := by
  rw [objectPoolAlloc, Pool.objectPoolAlloc]
  obtain ⟨hrun, hrun'⟩ | ⟨pre, x, post, rfl, hrun, hrun'⟩ := poolToUse_cases h hfuel
  · have hcap : wrap (pool.initialCapacity * 2) = 2 * pool.initialCapacity := by
      have hfit := h.fits.2
      rw [sizeofPointer] at hfit
      rw [wrap_of_lt (by omega), Nat.mul_comm]
    have hargs : Pool.createNewPool A μ pool'.objectSize (wrap (pool'.initialCapacity * 2)) =
        Pool.createNewPool A μ pool.objectSize (2 * pool.initialCapacity) := by
      rw [h.objectSize, h.initialCapacity, hcap]
    rw [hrun, hrun', ok_bind]
    dsimp only
    rw [hargs, hcap]
    obtain ⟨m₁, μ₁, hnew, hnew', hs₁, hlive, hframe⟩ | ⟨x, m₁, μ₁, hnew, hnew', hs₁, hmade⟩ :=
      createNewPool_simulates hs A h.size_pos (Nat.mul_pos Nat.two_pos h.capacity_pos) h.fits
    · rw [hnew, hnew']
      exact ⟨none, pool, m₁, pool', μ₁, l, rfl, rfl,
        { h with laid := h.laid.frame hframe fun _ _ ↦ List.not_mem_nil }, hs₁,
        .of_same hframe (List.nil_subset _) hlive rfl⟩
    · have hnodup : ((l ++ [x]).flatMap Placed.addresses).Nodup := h.laid.nodup_append hmade
      obtain ⟨head, m₂, hadd, hlaid₂, hs₂, hlive₂, hframe₂⟩ := addBlock_simulates
        (h.laid.frame hmade.frame fun _ _ ↦ List.not_mem_nil) hs₁ hmade.isIn hmade.last hnodup hfuel
      have hlen : pool'.pools.length = l.length := by rw [h.pools, List.length_map]
      obtain ⟨obj, m₃, b, htake, htake', hb, hlaid₃, hs₃, hlive₃, hframe₃⟩ := take_simulates
        hlaid₂ hs₂ { pool' with
          pools := pool'.pools ++ [x.block], currentPool := some pool'.pools.length }
        (by simp [h.pools])
      rw [← hlen] at htake'
      rw [hnew, hnew']
      dsimp only
      rw [hadd, ok_bind]
      dsimp only
      rw [htake, htake', ok_bind]
      refine ⟨obj, _, m₃, _, μ₁, l ++ [{ x with block := b }], rfl, rfl, ⟨hlaid₃, rfl, ?_,
        h.objectSize, h.initialCapacity, h.size_pos, h.capacity_pos, h.fits⟩, hs₃, ?_⟩
      · simp [hlen]
      · obtain ⟨regions, hregions, hbase⟩ := hmade.live
        refine ⟨?_, x.addresses, regions, ?_, by rw [hlive₃, hlive₂, hregions], hbase, hmade.fresh⟩
        · refine Frame.drop (T := x.addresses) ?_ hmade.fresh
          exact ((hmade.frame.mono (List.nil_subset _)).trans (hframe₂.mono
            (List.subset_append_left _ _))).trans (hframe₃.mono (List.subset_append_right _ _))
        · rw [flatMap_update hb]
          simp
  · obtain ⟨obj, m₁, b, htake, htake', hb, hlaid, hs₁, hlive, hframe⟩ := take_simulates h.laid hs
      { pool' with currentPool := some pre.length } h.pools
    rw [hrun, hrun', ok_bind]
    dsimp only
    rw [htake, htake', ok_bind]
    refine ⟨obj, _, m₁, _, μ, _, rfl, rfl, ⟨hlaid, rfl, ?_, h.objectSize, h.initialCapacity,
      h.size_pos, h.capacity_pos, h.fits⟩, hs₁,
      .of_same hframe addresses_subset hlive (flatMap_update hb)⟩
    simp

theorem objectPoolFree_simulates (h : Represents pool m pool' l) (hs : Shadows m μ)
    (hfuel : l.length ≤ fuel) (obj : ℕ) :
    ∃ m₁ l₁, objectPoolFree fuel pool m obj = .ok m₁ ∧
      Represents pool m₁ (Pool.objectPoolFree pool' obj) l₁ ∧ Shadows m₁ μ ∧
      Extends m m₁ l l₁ := by
  have hsearch := findBlock_cases (fun b ↦ b.pool ≤ obj ∧ obj < b.limit)
    (fun b ↦ b.pool ≤ obj ∧ obj < b.limit) (fun _ _ ↦ rfl) h.laid hfuel
  rw [← h.pools] at hsearch
  have hself : Extends m m l l := .of_same (.refl m) (List.nil_subset _) rfl rfl
  rw [objectPoolFree, Pool.objectPoolFree]
  obtain ⟨hrun, hrun'⟩ | ⟨pre, x, post, rfl, hrun, hrun'⟩ := hsearch
  · rw [hrun, hrun']
    exact ⟨m, l, rfl, h, hs, hself⟩
  · have hx := h.laid.block x (by simp)
    obtain ⟨b, hb, himage, htop, hlist, -⟩ := hx.fields
    have hcap : b.capacity = x.block.capacity := by rw [himage]; rfl
    rw [hrun, hrun', ok_bind]
    dsimp only
    rw [getElem?_middle h.pools, hx.read_base, ok_bind, hb]
    dsimp only
    rw [htop, hcap, hlist]
    by_cases hlt : x.block.freeListTop < x.block.capacity
    · rw [if_pos hlt, if_pos hlt, hx.read_freeList, ok_bind, hx.slots, setBlock_middle h.pools]
      obtain ⟨hlaid, hframe⟩ := h.laid.update (b := { x.block with
        freeList := Function.update x.block.freeList x.block.freeListTop obj
        freeListTop := x.block.freeListTop + 1
        used := wrap (2 ^ 64 - 1 + x.block.used) }) rfl rfl rfl
      rw [himage]
      refine ⟨_, _, rfl, ⟨hlaid, rfl, ?_, h.objectSize, h.initialCapacity, h.size_pos,
        h.capacity_pos, h.fits⟩, (hs.setSlots _ _).setBlock _ _,
        .of_same hframe addresses_subset rfl (flatMap_update rfl)⟩
      rw [h.current]
      cases pool'.currentPool with
      | none => rfl
      | some i => exact (getElem?_map_base i).symm
    · rw [if_neg hlt, if_neg hlt]
      exact ⟨m, _, rfl, h, hs, hself⟩

theorem Laid.freed (h : Laid m head l) {U : Set ℕ} (hfreed : Freed m m' U)
    (hU : ∀ a ∈ l.flatMap Placed.addresses, a ∉ U) : Laid m' head l := by
  have hcell : ∀ a, m'.cell a = m.cell a := fun a ↦ by rw [hfreed.cell]
  refine ⟨h.chain.congr fun a _ ↦ by rw [nextBlock, hcell, nextBlock], fun y hy ↦ ?_, h.nodup⟩
  have hym := h.block y hy
  refine ⟨by rw [hcell]; exact hym.block, by rw [hcell]; exact hym.slots, hym.pos, fun a ha ↦ ?_⟩
  exact hfreed.held (hym.held a ha) (hU a (List.mem_flatMap.mpr ⟨y, hy, ha⟩))

/-- The struct of a block is freed after what it points to, and read before that. -/
theorem freeBlocks_frees (h : Laid m head l) (hfuel : l.length ≤ fuel) :
    ∃ m', freeBlocks fuel m head = .ok m' ∧
      Freed m m' {a | a ∈ l.flatMap Placed.addresses} := by
  induction l generalizing m head fuel with
  | nil =>
    obtain rfl := h.chain
    exact ⟨m, by rw [freeBlocks], by simpa using Freed.refl m⟩
  | cons x l ih =>
    obtain ⟨rfl, -⟩ := h.chain
    obtain ⟨fuel, rfl⟩ : ∃ n, fuel = n + 1 := ⟨fuel - 1, by simp at hfuel; omega⟩
    have hx := h.block x List.mem_cons_self
    have hlive : ∀ a ∈ x.addresses, m.IsLive a := fun a ha ↦ (hx.held a ha).isLive
    obtain ⟨hbase, hrest⟩ := List.nodup_cons.mp
      (show Laid m (some x.base) ([] ++ x :: l) from h).nodup_addresses
    have hpool : x.block.pool ∈ x.addresses := by simp [Placed.addresses]
    have h₁ := Freed.free m x.block.pool
    have hbase₁ : (m.free x.block.pool).IsLive x.base := (h₁.isLive_iff _).mpr
      ⟨hlive _ Placed.base_mem, by simpa using fun heq ↦ hbase (by simp [heq])⟩
    have hlist₁ : (m.free x.block.pool).IsLive x.freeList := (h₁.isLive_iff _).mpr
      ⟨hlive _ Placed.freeList_mem, by simpa [eq_comm] using hrest⟩
    have h₂ := h₁.trans (.free (m.free x.block.pool) x.freeList)
    have hbase₂ : ((m.free x.block.pool).free x.freeList).IsLive x.base := (h₂.isLive_iff _).mpr
      ⟨hlive _ Placed.base_mem, by simpa [and_comm] using hbase⟩
    have h₃ := h₂.trans (.free ((m.free x.block.pool).free x.freeList) x.base)
    have hset : ({x.block.pool} ∪ {x.freeList} ∪ {x.base} : Set ℕ) = {a | a ∈ x.addresses} := by
      ext a
      simp [Placed.addresses]
      tauto
    rw [hset] at h₃
    have hrest₃ := h.tail.freed h₃ fun a ha ↦ by
      obtain ⟨y, hy, hay⟩ := List.mem_flatMap.mp ha
      exact (show Laid m (some x.base) ([] ++ x :: l) from h).apart (.inr hy) a hay
    obtain ⟨m', hrun, hfreed⟩ := ih hrest₃ (by simpa using hfuel)
    refine ⟨m', ?_, ?_⟩
    · have hpool_eq : (m.cell x.base).block.pool = x.block.pool := by rw [hx.block]; rfl
      have hlist_eq : ((m.free x.block.pool).cell x.base).block.freeList = x.freeList := by
        rw [free_cell, hx.block]
        rfl
      rw [freeBlocks, hx.read_base, ok_bind, ok_bind]
      dsimp only
      rw [hpool_eq, if_pos (hx.pos _ hpool), release_of_live (hlive _ hpool), ok_bind,
        read_of_live hbase₁, ok_bind, hlist_eq, if_pos (hx.pos _ Placed.freeList_mem), release_of_live hlist₁, ok_bind,
        release_of_live hbase₂, ok_bind]
      exact hrun
    · convert h₃.trans hfreed using 1
      ext a
      simp

end RadixBench.Pool.Heap
