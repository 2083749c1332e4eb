import RadixBench.Foundation.Ring
import RadixBench.Pool.Heap
import RadixBench.Pool.Creation

namespace RadixBench.Pool.Heap

open Foundation Memory

variable {C : Type} {m m' m'' : Memory (Cell C)} {μ μ' : Memory C} {S T : List ℕ}

/-- The same memory, seen by a client that knows the objects only. -/
structure Shadows (m : Memory (Cell C)) (μ : Memory C) : Prop where
  live : m.live = μ.live
  calls : m.calls = μ.calls
  failures : m.failures = μ.failures
  object : ∀ a, (m.cell a).object = μ.cell a

namespace Shadows

theorem write (h : Shadows m μ) {a : ℕ} {c : Cell C} (hc : c.object = (m.cell a).object) :
    Shadows (m.write a c) μ := by
  refine ⟨h.live, h.calls, h.failures, fun b ↦ ?_⟩
  by_cases hba : b = a
  · rw [hba, write_cell_self, hc, h.object]
  · rw [write_cell_of_ne _ _ hba, h.object]

theorem setBlock (h : Shadows m μ) (a : ℕ) (b : ObjectPoolBlock) :
    Shadows (setBlock m a b) μ := h.write rfl

theorem setSlots (h : Shadows m μ) (a : ℕ) (slots : ℕ → ℕ) : Shadows (setSlots m a slots) μ :=
  h.write rfl

theorem setObject (h : Shadows m μ) (a : ℕ) (c : C) :
    Shadows (setObject m a c) (μ.write a c) := by
  refine ⟨h.live, h.calls, h.failures, fun b ↦ ?_⟩
  by_cases hba : b = a
  · rw [hba, Heap.setObject, write_cell_self, write_cell_self]
  · rw [Heap.setObject, write_cell_of_ne _ _ hba, write_cell_of_ne _ _ hba, h.object]

theorem free (h : Shadows m μ) (a : ℕ) : Shadows (m.free a) (μ.free a) :=
  ⟨by rw [Memory.free, Memory.free, h.live], h.calls, h.failures, h.object⟩

/-- The allocator cannot tell the two memories apart. -/
theorem calloc [Zero C] (h : Shadows m μ) (A : Allocator) (n : ℕ) :
    (m.calloc A n).1 = (μ.calloc A n).1 ∧ Shadows (m.calloc A n).2 (μ.calloc A n).2 := by
  rw [Memory.calloc, Memory.calloc, h.calls, h.live]
  cases A.answer μ.calls μ.live n with
  | none => exact ⟨rfl, rfl, rfl, congrArg (· + 1) h.failures, h.object⟩
  | some a =>
    refine ⟨rfl, rfl, rfl, h.failures, fun b ↦ ?_⟩
    dsimp only
    split_ifs
    · rfl
    · exact h.object b

end Shadows

/-- Beside objects, `m'` differs from `m` in the cells of `S` and in what has been allocated. -/
structure Frame (m m' : Memory (Cell C)) (S : List ℕ) : Prop where
  held : ∀ {a}, m.Held a → m'.Held a
  same : ∀ {a}, m.Held a → a ∉ S →
    (m'.cell a).block = (m.cell a).block ∧ (m'.cell a).slots = (m.cell a).slots

namespace Frame

theorem refl (m : Memory (Cell C)) : Frame m m S := ⟨id, fun _ _ ↦ ⟨rfl, rfl⟩⟩

theorem trans (h : Frame m m' S) (h' : Frame m' m'' S) : Frame m m'' S := by
  refine ⟨fun ha ↦ h'.held (h.held ha), fun ha hS ↦ ?_⟩
  obtain ⟨hb, hs⟩ := h.same ha hS
  obtain ⟨hb', hs'⟩ := h'.same (h.held ha) hS
  exact ⟨hb'.trans hb, hs'.trans hs⟩

theorem mono (h : Frame m m' S) (hST : S ⊆ T) : Frame m m' T :=
  ⟨h.held, fun ha hT ↦ h.same ha fun hS ↦ hT (hST hS)⟩

theorem of_live (hlive : m'.live = m.live) (hcell : ∀ a ∉ S,
    (m'.cell a).block = (m.cell a).block ∧ (m'.cell a).slots = (m.cell a).slots) :
    Frame m m' S := by
  refine ⟨fun {a} ha ↦ ?_, fun {a} _ hS ↦ hcell a hS⟩
  rwa [Held, hlive]

theorem write (m : Memory (Cell C)) (a : ℕ) (c : Cell C) (ha : a ∈ S) :
    Frame m (m.write a c) S :=
  .of_live rfl fun b hb ↦ by
    rw [write_cell_of_ne _ _ (ne_of_mem_of_not_mem ha hb).symm]
    exact ⟨rfl, rfl⟩

theorem setObject (m : Memory (Cell C)) (a : ℕ) (c : C) : Frame m (setObject m a c) S := by
  refine .of_live rfl fun b _ ↦ ?_
  by_cases hba : b = a
  · rw [hba, Heap.setObject, write_cell_self]
    exact ⟨rfl, rfl⟩
  · rw [Heap.setObject, write_cell_of_ne _ _ hba]
    exact ⟨rfl, rfl⟩

theorem write_fresh (h : Frame m m' S) {a : ℕ} (ha : ∀ r ∈ m.live, r.base ≠ a) (c : Cell C) :
    Frame m (m'.write a c) S := by
  refine ⟨h.held, fun {b} hb hS ↦ ?_⟩
  have hba : b ≠ a := by
    obtain ⟨r, hr, rfl, -⟩ := hb
    exact ha r hr
  rw [write_cell_of_ne _ _ hba]
  exact h.same hb hS

theorem drop (h : Frame m m' (S ++ T)) (hT : ∀ r ∈ m.live, r.base ∉ T) : Frame m m' S := by
  refine ⟨h.held, fun {a} ha hS ↦ h.same ha fun hmem ↦ ?_⟩
  rcases List.mem_append.mp hmem with hmem | hmem
  · exact hS hmem
  · obtain ⟨r, hr, rfl, -⟩ := ha
    exact hT r hr hmem

theorem of_freed (h : Frame m m' S) (hlive : m''.live = m.live) (hcell : m''.cell = m'.cell) :
    Frame m m'' S := by
  refine ⟨fun {a} ha ↦ ?_, fun {a} ha hS ↦ ?_⟩
  · rwa [Held, hlive]
  · rw [hcell]
    exact h.same ha hS

theorem of_sameOn (hlive : m.live ⊆ m'.live) (hsame : SameOn m.live m m') : Frame m m' S := by
  refine ⟨fun {a} ha ↦ ?_, fun {a} ha _ ↦ ?_⟩
  · obtain ⟨r, hr, hbase⟩ := ha
    exact ⟨r, hlive hr, hbase⟩
  · rw [hsame a ha.contains]
    exact ⟨rfl, rfl⟩

end Frame

structure Placed where
  block : Pool.ObjectPoolBlock
  base : ℕ
  freeList : ℕ

namespace Placed

def addresses (x : Placed) : List ℕ := [x.base, x.block.pool, x.freeList]

def image (x : Placed) (next : Option ℕ) : ObjectPoolBlock where
  pool := x.block.pool
  freeList := x.freeList
  objectSize := x.block.objectSize
  capacity := x.block.capacity
  used := x.block.used
  freeListTop := x.block.freeListTop
  next := next

structure In (x : Placed) (m : Memory (Cell C)) : Prop where
  block : (m.cell x.base).block = x.image (m.cell x.base).block.next
  slots : (m.cell x.freeList).slots = x.block.freeList
  pos : ∀ a ∈ x.addresses, a ≠ 0
  held : ∀ a ∈ x.addresses, m.Held a

variable {x : Placed}

theorem base_mem : x.base ∈ x.addresses := List.mem_cons_self

theorem freeList_mem : x.freeList ∈ x.addresses := by simp [addresses]

theorem In.frame (h : x.In m) (hframe : Frame m m' S) (hS : ∀ a ∈ x.addresses, a ∉ S) :
    x.In m' := by
  have hbase := hframe.same (h.held _ base_mem) (hS _ base_mem)
  have hlist := hframe.same (h.held _ freeList_mem) (hS _ freeList_mem)
  refine ⟨?_, hlist.2.trans h.slots, h.pos, fun a ha ↦ hframe.held (h.held a ha)⟩
  rw [hbase.1]
  exact h.block

theorem In.setNext (h : x.In m) (hnodup : x.addresses.Nodup) (next : Option ℕ) :
    x.In (Heap.setBlock m x.base { (m.cell x.base).block with next := next }) := by
  have hne : x.freeList ≠ x.base := fun heq ↦ by
    rw [addresses, heq, List.nodup_cons] at hnodup
    simp at hnodup
  refine ⟨?_, ?_, h.pos, h.held⟩
  · rw [Heap.setBlock, write_cell_self]
    dsimp only
    rw [h.block]
    rfl
  · rw [Heap.setBlock, write_cell_of_ne _ _ hne, h.slots]

end Placed

def nextBlock (m : Memory (Cell C)) (a : ℕ) : Option ℕ := (m.cell a).block.next

/-- The blocks of a pool lie apart in the memory and are linked in this order. -/
structure Laid (m : Memory (Cell C)) (head : Option ℕ) (l : List Placed) : Prop where
  chain : Chain (nextBlock m) head (l.map Placed.base)
  block : ∀ x ∈ l, x.In m
  nodup : (l.flatMap Placed.addresses).Nodup

namespace Laid

variable {head : Option ℕ} {l pre post : List Placed} {x y : Placed}

theorem tail (h : Laid m head (x :: l)) : Laid m (nextBlock m x.base) l := by
  refine ⟨h.chain.2, fun y hy ↦ h.block y (List.mem_cons_of_mem x hy), ?_⟩
  have hnodup := h.nodup
  rw [List.flatMap_cons] at hnodup
  exact hnodup.of_append_right

theorem frame (h : Laid m head l) (hframe : Frame m m' S)
    (hS : ∀ a ∈ l.flatMap Placed.addresses, a ∉ S) : Laid m' head l := by
  have hmem : ∀ x ∈ l, ∀ a ∈ x.addresses, a ∉ S := fun x hx a ha ↦
    hS a (List.mem_flatMap.mpr ⟨x, hx, ha⟩)
  refine ⟨h.chain.congr ?_, fun x hx ↦ (h.block x hx).frame hframe (hmem x hx), h.nodup⟩
  rintro a ha
  obtain ⟨x, hx, rfl⟩ := List.mem_map.mp ha
  have hsame := hframe.same ((h.block x hx).held _ Placed.base_mem) (hmem x hx _ Placed.base_mem)
  rw [nextBlock, hsame.1, nextBlock]

theorem apart (h : Laid m head (pre ++ x :: post)) (hy : y ∈ pre ∨ y ∈ post) :
    ∀ a ∈ y.addresses, a ∉ x.addresses := by
  have hnodup := h.nodup
  rw [List.flatMap_append, List.flatMap_cons, List.nodup_append', List.nodup_append'] at hnodup
  obtain ⟨-, ⟨-, -, hpost⟩, hpre⟩ := hnodup
  intro a ha hax
  rcases hy with hy | hy
  · exact hpre (List.mem_flatMap.mpr ⟨y, hy, ha⟩) (List.mem_append_left _ hax)
  · exact hpost hax (List.mem_flatMap.mpr ⟨y, hy, ha⟩)

theorem replace (h : Laid m head (pre ++ x :: post)) (hframe : Frame m m' x.addresses)
    (hy : y.In m') (hbase : y.base = x.base) (haddr : y.addresses = x.addresses)
    (hnext : nextBlock m' x.base = nextBlock m x.base) : Laid m' head (pre ++ y :: post) := by
  have hold : ∀ z, z ∈ pre ∨ z ∈ post → z.In m' ∧ nextBlock m' z.base = nextBlock m z.base := by
    intro z hz
    have hzm : z.In m := h.block z (by simp only [List.mem_append, List.mem_cons]; tauto)
    have hapart := h.apart hz
    refine ⟨hzm.frame hframe hapart, ?_⟩
    rw [nextBlock, (hframe.same (hzm.held _ Placed.base_mem) (hapart _ Placed.base_mem)).1,
      nextBlock]
  refine ⟨?_, fun z hz ↦ ?_, ?_⟩
  · have hmap : (pre ++ y :: post).map Placed.base = (pre ++ x :: post).map Placed.base := by
      simp [hbase]
    rw [hmap]
    refine h.chain.congr fun a ha ↦ ?_
    obtain ⟨z, hz, rfl⟩ := List.mem_map.mp ha
    simp only [List.mem_append, List.mem_cons] at hz
    rcases hz with hz | rfl | hz
    · exact (hold z (.inl hz)).2
    · exact hnext
    · exact (hold z (.inr hz)).2
  · simp only [List.mem_append, List.mem_cons] at hz
    rcases hz with hz | rfl | hz
    · exact (hold z (.inl hz)).1
    · exact hy
    · exact (hold z (.inr hz)).1
  · have hnodup := h.nodup
    simpa only [List.flatMap_append, List.flatMap_cons, haddr] using hnodup

theorem nodup_addresses (h : Laid m head (pre ++ x :: post)) : x.addresses.Nodup := by
  have hnodup := h.nodup
  rw [List.flatMap_append, List.flatMap_cons] at hnodup
  exact hnodup.of_append_right.of_append_left

theorem update (h : Laid m head (pre ++ x :: post)) {b : Pool.ObjectPoolBlock}
    (hpool : b.pool = x.block.pool) {c : ObjectPoolBlock}
    (hc : c = Placed.image { x with block := b } (nextBlock m x.base))
    (hm : m' = Heap.setBlock (setSlots m x.freeList b.freeList) x.base c) :
    Laid m' head (pre ++ { x with block := b } :: post) ∧ Frame m m' x.addresses := by
  have hne : x.freeList ≠ x.base := fun heq ↦ by
    have hnodup := h.nodup_addresses
    rw [Placed.addresses, heq, List.nodup_cons] at hnodup
    simp at hnodup
  have hself : (m'.cell x.base).block = c := by rw [hm, Heap.setBlock, write_cell_self]
  have hnext : (m'.cell x.base).block.next = nextBlock m x.base := by
    rw [hself, hc]
    rfl
  have hx := h.block x (by simp)
  have hframe : Frame m m' x.addresses :=
    hm ▸ (Frame.write m _ _ Placed.freeList_mem).trans (.write _ _ _ Placed.base_mem)
  have haddr : Placed.addresses { x with block := b } = x.addresses := by
    rw [Placed.addresses, hpool, Placed.addresses]
  refine ⟨h.replace hframe ⟨?_, ?_, ?_, ?_⟩ rfl haddr hnext, hframe⟩
  · rw [hnext, hself, hc]
  · rw [hm, Heap.setBlock, write_cell_of_ne _ _ hne, setSlots, write_cell_self]
  · rw [haddr]
    exact hx.pos
  · rw [haddr]
    exact fun a ha ↦ hframe.held (hx.held a ha)

/-- `last->next = newPool`. -/
theorem append (h : Laid m head (pre ++ [y])) (hx : x.In m) (hlast : nextBlock m x.base = none)
    (hnodup : ((pre ++ [y] ++ [x]).flatMap Placed.addresses).Nodup)
    (hm : m' = Heap.setBlock m y.base { (m.cell y.base).block with next := some x.base }) :
    Laid m' head (pre ++ [y] ++ [x]) := by
  have hframe : Frame m m' [y.base] := hm ▸ .write m _ _ List.mem_cons_self
  have hself : nextBlock m' y.base = some x.base := by
    rw [nextBlock, hm, Heap.setBlock, write_cell_self]
  have hapart : ∀ w, w ∈ pre ∨ w = x → ∀ a ∈ w.addresses, a ∉ y.addresses := by
    rintro w (hw | rfl) a ha hay
    · exact h.apart (.inl hw) a ha hay
    · rw [List.flatMap_append, List.nodup_append'] at hnodup
      exact hnodup.2.2 (List.mem_flatMap.mpr ⟨y, by simp, hay⟩)
        (List.mem_flatMap.mpr ⟨w, List.mem_singleton_self w, ha⟩)
  have hother : ∀ w, w ∈ pre ∨ w = x → nextBlock m' w.base = nextBlock m w.base := by
    intro w hw
    have hne : w.base ≠ y.base := fun heq ↦
      hapart w hw _ Placed.base_mem (heq ▸ Placed.base_mem)
    rw [nextBlock, hm, Heap.setBlock, write_cell_of_ne _ _ hne, nextBlock]
  have hkept : ∀ w, w ∈ pre ∨ w = x → w.In m → w.In m' := fun w hw hwm ↦
    hwm.frame hframe fun a ha hay ↦
      hapart w hw a ha (List.mem_singleton.mp hay ▸ Placed.base_mem)
  refine ⟨?_, fun w hw ↦ ?_, hnodup⟩
  · have hchain := h.chain
    rw [List.map_append] at hchain
    rw [List.map_append, List.map_append]
    refine hchain.append (fun r hr ↦ ?_) hself ?_
    · obtain ⟨w, hw, rfl⟩ := List.mem_map.mp hr
      exact hother w (.inl hw)
    · exact (hother x (.inr rfl)).trans hlast
  · simp only [List.mem_append, List.mem_singleton] at hw
    rcases hw with (hw | rfl) | rfl
    · exact hkept w (.inl hw) (h.block w (by simp [hw]))
    · rw [hm]
      exact (h.block w (by simp)).setNext h.nodup_addresses _
    · exact hkept w (.inr rfl) hx

end Laid

end RadixBench.Pool.Heap
