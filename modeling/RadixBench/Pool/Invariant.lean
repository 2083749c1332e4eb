import RadixBench.Pool.Creation

namespace RadixBench.Pool

open Foundation Memory ObjectPoolBlock

variable {C : Type}

namespace ObjectPoolBlock

variable {b : ObjectPoolBlock}

def Out (b : ObjectPoolBlock) (a : ℕ) : Prop := a ∈ b.objects ∧ a ∉ b.free

def popped (b : ObjectPoolBlock) : ObjectPoolBlock :=
  { b with freeListTop := b.freeListTop - 1, used := wrap (b.used + 1) }

def pushed (b : ObjectPoolBlock) (obj : ℕ) : ObjectPoolBlock :=
  { b with
    freeList := Function.update b.freeList b.freeListTop obj
    freeListTop := b.freeListTop + 1
    used := wrap (2 ^ 64 - 1 + b.used) }

@[simp] theorem pushed_pool (obj : ℕ) : (b.pushed obj).pool = b.pool := rfl

@[simp] theorem pushed_objectSize (obj : ℕ) : (b.pushed obj).objectSize = b.objectSize := rfl

@[simp] theorem pushed_capacity (obj : ℕ) : (b.pushed obj).capacity = b.capacity := rfl

@[simp] theorem pushed_region (obj : ℕ) : (b.pushed obj).region = b.region := rfl

@[simp] theorem pushed_objects (obj : ℕ) : (b.pushed obj).objects = b.objects := rfl

theorem free_eq_popped (h : 0 < b.freeListTop) :
    b.free = b.popped.free ++ [b.freeList (b.freeListTop - 1)] := by
  obtain ⟨top, ht⟩ := Nat.exists_eq_add_of_lt h
  simp only [free, popped, ht]
  rw [show 0 + top + 1 - 1 = top by omega, show 0 + top + 1 = top + 1 by omega,
    List.range_succ, List.map_append, List.map_singleton]

theorem free_pushed (obj : ℕ) : (b.pushed obj).free = b.free ++ [obj] := by
  simp only [free, pushed, List.range_succ, List.map_append, List.map_singleton,
    Function.update_self]
  congr 1
  refine List.map_congr_left fun i hi ↦ ?_
  exact Function.update_of_ne (Nat.ne_of_lt (List.mem_range.mp hi)) _ _

theorem WellFormed.capacity_lt (h : b.WellFormed) : b.capacity < 2 ^ 64 := by
  have hmul := Nat.le_mul_of_pos_right b.capacity h.size_pos
  have hfit := h.fits
  omega

theorem WellFormed.pop (h : b.WellFormed) (htop : 0 < b.freeListTop) :
    b.popped.WellFormed ∧ b.freeList (b.freeListTop - 1) ∈ b.free ∧
      ∀ a, b.popped.Out a ↔ a = b.freeList (b.freeListTop - 1) ∨ b.Out a := by
  have hfree := free_eq_popped htop
  have hnd := h.nodup
  rw [hfree, List.nodup_append] at hnd
  have hmem : b.freeList (b.freeListTop - 1) ∈ b.free := by simp [hfree]
  have hcap := h.capacity_lt
  have hcount := h.count
  refine ⟨⟨h.size_pos, h.pool_pos, h.fits, hnd.1, fun a ha ↦ ?_, ?_⟩, hmem, fun a ↦ ?_⟩
  · exact h.subset a (by rw [hfree]; exact List.mem_append_left _ ha)
  · simp only [popped]
    rw [wrap_of_lt (by omega)]
    omega
  · have hsub := h.subset
    simp only [Out, hfree, List.mem_append, List.mem_singleton]
    constructor
    · rintro ⟨hobj, hout⟩
      by_cases ha : a = b.freeList (b.freeListTop - 1)
      · exact .inl ha
      · exact .inr ⟨hobj, by simp [hout, ha]⟩
    · rintro (rfl | ⟨hobj, hout⟩)
      · exact ⟨hsub _ hmem, fun hin ↦ hnd.2.2 _ hin _ (by simp) rfl⟩
      · exact ⟨hobj, fun hin ↦ hout (.inl hin)⟩

/-- Pushing an object that is handed out keeps the block well formed. The stack
cannot be full then. -/
theorem WellFormed.push (h : b.WellFormed) {obj : ℕ} (hobj : b.Out obj) :
    b.freeListTop < b.capacity ∧ (b.pushed obj).WellFormed ∧
      ∀ a, (b.pushed obj).Out a ↔ a ≠ obj ∧ b.Out a := by
  have hnd : (b.free ++ [obj]).Nodup := by
    refine List.nodup_append.mpr ⟨h.nodup, by simp, fun a ha c hc ↦ ?_⟩
    rw [List.mem_singleton.mp hc]
    rintro rfl
    exact hobj.2 ha
  have hsub : ∀ a ∈ b.free ++ [obj], a ∈ b.objects := by
    intro a ha
    rcases List.mem_append.mp ha with ha | ha
    · exact h.subset a ha
    · rw [List.mem_singleton.mp ha]; exact hobj.1
  have hlen := (List.subperm_of_subset hnd hsub).length_le
  simp only [List.length_append, length_free, List.length_singleton, length_objects] at hlen
  have hcap := h.capacity_lt
  have hcount := h.count
  refine ⟨by omega, ⟨?_, ?_, ?_, ?_, ?_, ?_⟩, fun a ↦ ?_⟩
  · simpa only [pushed_objectSize] using h.size_pos
  · simpa only [pushed_pool] using h.pool_pos
  · simpa only [pushed_pool, pushed_capacity, pushed_objectSize] using h.fits
  · rwa [free_pushed]
  · simpa only [free_pushed, pushed_objects] using hsub
  · simp only [pushed]
    rw [wrap, show 2 ^ 64 - 1 + b.used = (b.used - 1) + 2 ^ 64 by omega, Nat.add_mod_right,
      Nat.mod_eq_of_lt (by omega)]
    omega
  · simp only [Out, free_pushed, pushed_objects, List.mem_append, List.mem_singleton]
    tauto

theorem WellFormed.used_eq (h : b.WellFormed) :
    (b.objects.filter (fun a ↦ a ∉ b.free)).length = b.used := by
  have hsplit := List.length_eq_length_filter_add (l := b.objects) (fun a ↦ a ∈ b.free)
  have hperm : (b.objects.filter (fun a ↦ a ∈ b.free)).Perm b.free := by
    refine (List.perm_ext_iff_of_nodup ((objects_nodup h.size_pos).filter _) h.nodup).mpr ?_
    intro a
    simpa using h.subset a
  have hlen := hperm.length_eq
  have hcount := h.count
  simp only [length_objects, length_free, decide_not] at *
  omega

end ObjectPoolBlock

/-- The invariant of a pool inside a memory, `live` being the objects that were
handed out and not given back. -/
structure Invariant (pool : ObjectPool) (m : Memory C) (live : List ℕ) : Prop where
  size_pos : 0 < pool.objectSize
  capacity_pos : 0 < pool.initialCapacity
  product : pool.objectSize * (2 * pool.initialCapacity) < 2 ^ 64
  list_product : sizeofPointer * (2 * pool.initialCapacity) < 2 ^ 64
  size_eq : ∀ b ∈ pool.pools, b.objectSize = pool.objectSize
  wellFormed : ∀ b ∈ pool.pools, b.WellFormed
  region_live : ∀ b ∈ pool.pools, b.region ∈ m.live
  disjoint : (pool.pools.map region).Pairwise Region.Disjoint
  live_nodup : live.Nodup
  live_iff : ∀ a, a ∈ live ↔ ∃ b ∈ pool.pools, b.Out a

/-- The invariant as far as it does not depend on the blocks that the pool may still create. -/
structure Sound (pool : ObjectPool) (m : Memory C) (live : List ℕ) : Prop where
  size_pos : 0 < pool.objectSize
  capacity_pos : 0 < pool.initialCapacity
  size_eq : ∀ b ∈ pool.pools, b.objectSize = pool.objectSize
  wellFormed : ∀ b ∈ pool.pools, b.WellFormed
  region_live : ∀ b ∈ pool.pools, b.region ∈ m.live
  disjoint : (pool.pools.map region).Pairwise Region.Disjoint
  live_nodup : live.Nodup
  live_iff : ∀ a, a ∈ live ↔ ∃ b ∈ pool.pools, b.Out a

section

variable {pool : ObjectPool} {m m' : Memory C} {live : List ℕ}

theorem Invariant.sound (h : Invariant pool m live) : Sound pool m live :=
  ⟨h.size_pos, h.capacity_pos, h.size_eq, h.wellFormed, h.region_live, h.disjoint, h.live_nodup,
    h.live_iff⟩

theorem Sound.invariant (h : Sound pool m live)
    (hfits : Fits pool.objectSize (2 * pool.initialCapacity)) : Invariant pool m live :=
  ⟨h.size_pos, h.capacity_pos, hfits.1, hfits.2, h.size_eq, h.wellFormed, h.region_live,
    h.disjoint, h.live_nodup, h.live_iff⟩

theorem Invariant.fits (h : Invariant pool m live) :
    Fits pool.objectSize (2 * pool.initialCapacity) := ⟨h.product, h.list_product⟩

theorem Sound.of_subset (h : Sound pool m live) (hl : m.live ⊆ m'.live) : Sound pool m' live :=
  { h with region_live := fun b hb ↦ hl (h.region_live b hb) }

theorem Invariant.of_subset (h : Invariant pool m live) (hl : m.live ⊆ m'.live) :
    Invariant pool m' live := (h.sound.of_subset hl).invariant h.fits

end

namespace Sound

variable {pool : ObjectPool} {m : Memory C} {live : List ℕ}

theorem unique_block (h : Sound pool m live) {pre post : List ObjectPoolBlock}
    {b c : ObjectPoolBlock} (hp : pool.pools = pre ++ b :: post) (hc : c ∈ pre ∨ c ∈ post)
    {a : ℕ} (hb : b.region.Contains a) : ¬ c.region.Contains a := by
  have hd := h.disjoint
  rw [hp, List.map_append, List.map_cons, List.pairwise_append, List.pairwise_cons] at hd
  rcases hc with hc | hc
  · exact (hd.2.2 _ (List.mem_map_of_mem hc) _ (by simp)).symm.not_contains hb
  · exact (hd.2.1.1 _ (List.mem_map_of_mem hc)).not_contains hb

theorem mem_pools (_ : Sound pool m live) {pre post : List ObjectPoolBlock}
    {b : ObjectPoolBlock} (hp : pool.pools = pre ++ b :: post) : b ∈ pool.pools := by simp [hp]

theorem replace (h : Sound pool m live) {pre post : List ObjectPoolBlock}
    {b b' : ObjectPoolBlock} (hp : pool.pools = pre ++ b :: post) {current : Option ℕ}
    {live' : List ℕ} (hregion : b'.region = b.region) (hsize : b'.objectSize = b.objectSize)
    (hwf : b'.WellFormed) (hnd : live'.Nodup)
    (hlive : ∀ a, a ∈ live' ↔ b'.Out a ∨ ∃ c, (c ∈ pre ∨ c ∈ post) ∧ c.Out a) :
    Sound { pool with pools := pre ++ b' :: post, currentPool := current } m live' := by
  have hb := h.mem_pools hp
  have hmem : ∀ c ∈ pre ++ b' :: post, c = b' ∨ c ∈ pool.pools := by
    intro c hc
    simp only [hp, List.mem_append, List.mem_cons] at hc ⊢
    tauto
  refine ⟨h.size_pos, h.capacity_pos, ?_, ?_, ?_, ?_, hnd, ?_⟩
  · intro c hc
    rcases hmem c hc with rfl | hc
    · exact hsize.trans (h.size_eq _ hb)
    · exact h.size_eq c hc
  · intro c hc
    rcases hmem c hc with rfl | hc
    · exact hwf
    · exact h.wellFormed c hc
  · intro c hc
    rcases hmem c hc with rfl | hc
    · exact hregion ▸ h.region_live _ hb
    · exact h.region_live c hc
  · have hd := h.disjoint
    simpa only [hp, List.map_append, List.map_cons, hregion] using hd
  · intro a
    rw [hlive]
    constructor
    · rintro (ho | ⟨c, hc, ho⟩)
      · exact ⟨b', by simp, ho⟩
      · exact ⟨c, by simp only [List.mem_append, List.mem_cons]; tauto, ho⟩
    · rintro ⟨c, hc, ho⟩
      simp only [List.mem_append, List.mem_cons] at hc
      rcases hc with hc | rfl | hc
      · exact .inr ⟨c, .inl hc, ho⟩
      · exact .inl ho
      · exact .inr ⟨c, .inr hc, ho⟩

theorem live_contains (h : Sound pool m live) {a : ℕ} (ha : a ∈ live) :
    ∃ b ∈ pool.pools, b.region.Contains a := by
  obtain ⟨b, hb, hout⟩ := (h.live_iff a).mp ha
  exact ⟨b, hb, objects_contains (h.wellFormed b hb).size_pos hout.1⟩

end Sound

end RadixBench.Pool
