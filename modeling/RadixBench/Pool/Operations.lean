import RadixBench.Pool.Invariant

namespace RadixBench.Pool

open Foundation Memory ObjectPoolBlock

variable {C : Type} [Zero C] {pool : ObjectPool} {m : Memory C} {live : List ℕ}

def FreeAll (Z : C → Prop) (pool : ObjectPool) (m : Memory C) : Prop :=
  ∀ b ∈ pool.pools, ∀ a ∈ b.free, Z (m.cell a)

structure Allocated (pool : ObjectPool) (m : Memory C) (live : List ℕ) (a : ℕ)
    (pool' : ObjectPool) (m' : Memory C) : Prop where
  failures : m'.failures = m.failures
  not_live : a ∉ live
  invariant : Invariant pool' m' (a :: live)
  unchanged : Unchanged m m'
  regions : ∀ b' ∈ pool'.pools,
    (∃ b ∈ pool.pools, b'.region = b.region) ∨ ∀ r ∈ m.live, b'.region.Disjoint r
  free : ∀ Z : C → Prop, Z 0 → FreeAll Z pool m → Z (m'.cell a) ∧ FreeAll Z pool' m'

theorem split_at {pools : List ObjectPoolBlock} {i : ℕ} {b : ObjectPoolBlock}
    (h : pools[i]? = some b) :
    ∃ pre post, pools = pre ++ b :: post ∧ ∀ b', pools.set i b' = pre ++ b' :: post := by
  obtain ⟨hi, rfl⟩ := List.getElem?_eq_some_iff.mp h
  refine ⟨pools.take i, pools.drop (i + 1), ?_, fun b' ↦ ?_⟩
  · rw [List.getElem_cons_drop, List.take_append_drop]
  · exact List.set_eq_take_append_cons_drop.trans (if_pos hi)

theorem search_none (h : pool.search = none) : ∀ b ∈ pool.pools, b.freeListTop = 0 := by
  intro b hb
  have hnone := List.findIdx?_eq_none_iff.mp h b hb
  simpa using hnone

theorem search_some {i : ℕ} (h : pool.search = some i) :
    ∃ b, pool.pools[i]? = some b ∧ 0 < b.freeListTop := by
  obtain ⟨hi, hb, -⟩ := List.findIdx?_eq_some_iff_getElem.mp h
  exact ⟨pool.pools[i], List.getElem?_eq_getElem hi, by simpa using hb⟩

theorem poolToUse_none (h : pool.poolToUse = none) : ∀ b ∈ pool.pools, b.freeListTop = 0 := by
  rw [ObjectPool.poolToUse] at h
  cases hc : pool.currentPool with
  | none => exact search_none (by simpa [hc] using h)
  | some i =>
    cases hb : pool.pools[i]? with
    | none => exact search_none (by simpa [hc, hb] using h)
    | some b =>
      simp only [hc, Option.bind_some, hb] at h
      split_ifs at h
      exact search_none h

theorem poolToUse_some {i : ℕ} (h : pool.poolToUse = some i) :
    ∃ b, pool.pools[i]? = some b ∧ 0 < b.freeListTop := by
  rw [ObjectPool.poolToUse] at h
  cases hc : pool.currentPool with
  | none => exact search_some (by simpa [hc] using h)
  | some j =>
    cases hb : pool.pools[j]? with
    | none => exact search_some (by simpa [hc, hb] using h)
    | some b =>
      simp only [hc, Option.bind_some, hb] at h
      split_ifs at h with htop
      · cases h
        exact ⟨b, hb, htop⟩
      · exact search_some h

namespace Sound

omit [Zero C] in
/-- Taking from a block with a free object hands that object out. The validation of
the popped pointer never rejects it. -/
theorem take_eq (h : Sound pool m live) {i : ℕ} {b : ObjectPoolBlock}
    (hb : pool.pools[i]? = some b) (htop : 0 < b.freeListTop) :
    pool.take i = (some (b.freeList (b.freeListTop - 1)), pool.setBlock i b.popped) := by
  have hmem := List.mem_of_getElem? hb
  have hwf := h.wellFormed b hmem
  have hobj := hwf.subset _ (hwf.pop htop).2.1
  have hbound := objects_bound hobj
  have hpos := hwf.size_pos
  have hvalid : ¬ (b.freeList (b.freeListTop - 1) < b.pool ∨
      b.limit ≤ b.freeList (b.freeListTop - 1)) := by
    rw [limit_eq hwf.fits]
    omega
  simp only [ObjectPool.take, hb, if_neg (Nat.ne_of_gt htop), if_neg hvalid, popped]

omit [Zero C] in
theorem pop (h : Sound pool m live) {i : ℕ} {b : ObjectPoolBlock}
    (hb : pool.pools[i]? = some b) (htop : 0 < b.freeListTop) :
    b.freeList (b.freeListTop - 1) ∉ live ∧
      Sound (pool.setBlock i b.popped) m (b.freeList (b.freeListTop - 1) :: live) := by
  obtain ⟨pre, post, hp, hset⟩ := split_at hb
  have hmem := h.mem_pools hp
  obtain ⟨hwf, hfree, hout⟩ := (h.wellFormed b hmem).pop htop
  have hpos := (h.wellFormed b hmem).size_pos
  have hobj := (h.wellFormed b hmem).subset _ hfree
  have hlive : ∀ a, a ∈ live ↔ b.Out a ∨ ∃ c, (c ∈ pre ∨ c ∈ post) ∧ c.Out a := by
    intro a
    rw [h.live_iff, hp]
    simp only [List.mem_append, List.mem_cons]
    grind
  have hnot : b.freeList (b.freeListTop - 1) ∉ live := by
    rw [hlive]
    rintro (ho | ⟨c, hc, ho⟩)
    · exact ho.2 hfree
    · have hcmem : c ∈ pool.pools := by rw [hp]; simp only [List.mem_append, List.mem_cons]; tauto
      exact h.unique_block hp hc (objects_contains hpos hobj)
        (objects_contains (h.wellFormed c hcmem).size_pos ho.1)
  refine ⟨hnot, ?_⟩
  rw [ObjectPool.setBlock, hset]
  refine h.replace hp rfl rfl hwf (List.nodup_cons.mpr ⟨hnot, h.live_nodup⟩) fun a ↦ ?_
  rw [List.mem_cons, hlive, hout, or_assoc]

omit [Zero C] in
theorem freeAll_pop {Z : C → Prop} {i : ℕ} {b : ObjectPoolBlock} (hb : pool.pools[i]? = some b)
    (htop : 0 < b.freeListTop) (hz : FreeAll Z pool m) :
    Z (m.cell (b.freeList (b.freeListTop - 1))) ∧ FreeAll Z (pool.setBlock i b.popped) m := by
  have hmem := List.mem_of_getElem? hb
  have hfree := free_eq_popped htop
  refine ⟨hz b hmem _ (by simp [hfree]), fun c hc a ha ↦ ?_⟩
  rcases List.mem_or_eq_of_mem_set hc with hc | rfl
  · exact hz c hc a ha
  · exact hz b hmem a (by rw [hfree]; exact List.mem_append_left _ ha)

theorem append (h : Sound pool m live) {b : ObjectPoolBlock} {m' : Memory C} {capacity : ℕ}
    (current : Option ℕ) (hfresh : Fresh b pool.objectSize capacity m m') (hu : Unchanged m m') :
    Sound { pool with pools := pool.pools ++ [b], currentPool := current } m' live := by
  refine ⟨h.size_pos, h.capacity_pos, ?_, ?_, ?_, ?_, h.live_nodup, ?_⟩
  · intro c hc
    rcases List.mem_append.mp hc with hc | hc
    · exact h.size_eq c hc
    · rw [List.mem_singleton.mp hc]; exact hfresh.size
  · intro c hc
    rcases List.mem_append.mp hc with hc | hc
    · exact h.wellFormed c hc
    · rw [List.mem_singleton.mp hc]; exact hfresh.wellFormed
  · intro c hc
    rcases List.mem_append.mp hc with hc | hc
    · exact hu.live (h.region_live c hc)
    · rw [List.mem_singleton.mp hc]; exact hfresh.live
  · rw [List.map_append, List.pairwise_append]
    refine ⟨h.disjoint, by simp, fun r hr r' hr' ↦ ?_⟩
    obtain ⟨c, hc, rfl⟩ := List.mem_map.mp hr
    simp only [List.map_cons, List.map_nil, List.mem_singleton] at hr'
    subst hr'
    exact (hfresh.apart _ (h.region_live c hc)).symm
  · intro a
    rw [h.live_iff]
    have hb : ¬ b.Out a := fun ho ↦ ho.2 (hfresh.free_eq ▸ ho.1)
    simp only [List.mem_append, List.mem_singleton]
    grind

end Sound

theorem FreeAll.of_unchanged {Z : C → Prop} {m' : Memory C} (hz : FreeAll Z pool m)
    (h : Sound pool m live) (hu : Unchanged m m') : FreeAll Z pool m' := by
  intro c hc a ha
  have hwf := h.wellFormed c hc
  have hcont := objects_contains hwf.size_pos (hwf.subset a ha)
  rw [hu.same a ⟨_, h.region_live c hc, hcont⟩]
  exact hz c hc a ha

theorem FreeAll.append {Z : C → Prop} (h0 : Z 0) {b : ObjectPoolBlock} {m' : Memory C}
    {capacity : ℕ} (current : Option ℕ) (h : Sound pool m live) (hz : FreeAll Z pool m)
    (hfresh : Fresh b pool.objectSize capacity m m') (hu : Unchanged m m') :
    FreeAll Z { pool with pools := pool.pools ++ [b], currentPool := current } m' := by
  intro c hc a ha
  rcases List.mem_append.mp hc with hc | hc
  · exact hz.of_unchanged h hu c hc a ha
  · rw [List.mem_singleton.mp hc] at ha
    rw [hfresh.zero a (objects_contains hfresh.wellFormed.size_pos
      (hfresh.wellFormed.subset a ha))]
    exact h0

theorem objectPoolAlloc_sizes (A : Allocator) (pool : ObjectPool) (m : Memory C) :
    (objectPoolAlloc A pool m).2.1.objectSize = pool.objectSize ∧
      (objectPoolAlloc A pool m).2.1.initialCapacity = pool.initialCapacity := by
  have htake : ∀ (pool : ObjectPool) (i : ℕ), (pool.take i).2.objectSize = pool.objectSize ∧
      (pool.take i).2.initialCapacity = pool.initialCapacity := by
    intro pool i
    rw [ObjectPool.take]
    cases pool.pools[i]? with
    | none => exact ⟨rfl, rfl⟩
    | some b => dsimp only; split_ifs <;> exact ⟨rfl, rfl⟩
  rw [objectPoolAlloc]
  cases pool.poolToUse with
  | some i => exact htake _ i
  | none =>
    dsimp only
    cases createNewPool A m pool.objectSize (wrap (pool.initialCapacity * 2)) with
    | mk b m' =>
      cases b with
      | none => exact ⟨rfl, rfl⟩
      | some b => exact htake _ _

/-- What a call of `objectPoolAlloc` that returns `a` does to a pool that is only sound. -/
structure HandsOut (pool : ObjectPool) (m : Memory C) (live : List ℕ) (a : ℕ)
    (pool' : ObjectPool) (m' : Memory C) : Prop where
  failures : m'.failures = m.failures
  not_live : a ∉ live
  sound : Sound pool' m' (a :: live)
  unchanged : Unchanged m m'
  regions : ∀ b' ∈ pool'.pools,
    (∃ b ∈ pool.pools, b'.region = b.region) ∨ ∀ r ∈ m.live, b'.region.Disjoint r
  free : ∀ Z : C → Prop, Z 0 → FreeAll Z pool m → Z (m'.cell a) ∧ FreeAll Z pool' m'

/-- The outcomes of `objectPoolAlloc`, when the sizes of a block that it creates do not wrap. -/
theorem Sound.alloc_cases (A : Allocator) (h : Sound pool m live)
    (hfits : pool.poolToUse = none → Fits pool.objectSize (2 * pool.initialCapacity)) :
    (∃ m', objectPoolAlloc A pool m = (none, pool, m') ∧ (∀ b ∈ pool.pools, b.freeListTop = 0) ∧
      createNewPool A m pool.objectSize (2 * pool.initialCapacity) = (none, m') ∧
      m.failures < m'.failures ∧ m'.live = m.live ∧ Unchanged m m') ∨
    (∃ a pool' m', objectPoolAlloc A pool m = (some a, pool', m') ∧
      HandsOut pool m live a pool' m') := by
  rw [objectPoolAlloc]
  cases hu : pool.poolToUse with
  | some i =>
    obtain ⟨b, hb, htop⟩ := poolToUse_some hu
    have hi : Sound { pool with currentPool := some i } m live :=
      ⟨h.1, h.2, h.3, h.4, h.5, h.6, h.7, h.8⟩
    obtain ⟨hnot, hinv⟩ := hi.pop hb htop
    simp only [hi.take_eq hb htop]
    refine .inr ⟨_, _, _, rfl, rfl, hnot, hinv, Unchanged.refl m, fun c hc ↦ .inl ?_,
      fun Z h0 hz ↦ ?_⟩
    · rcases List.mem_or_eq_of_mem_set hc with hc | rfl
      · exact ⟨c, hc, rfl⟩
      · exact ⟨b, List.mem_of_getElem? hb, rfl⟩
    · exact Sound.freeAll_pop (by exact hb) htop hz
  | none =>
    have hwrap : wrap (pool.initialCapacity * 2) = 2 * pool.initialCapacity := by
      have hlist := (hfits hu).2
      rw [sizeofPointer] at hlist
      rw [wrap_of_lt (by omega), Nat.mul_comm]
    simp only [hwrap]
    obtain ⟨m', hnew, hfail, hlive, hsame⟩ | ⟨b, m', hnew, hfail, hfresh, hsame⟩ :=
      createNewPool_cases A m h.size_pos (hfits hu)
    · rw [hnew]
      exact .inl ⟨m', rfl, poolToUse_none hu, rfl, hfail, hlive, hsame⟩
    · rw [hnew]
      have hi := h.append (some pool.pools.length) hfresh hsame
      have hb : (pool.pools ++ [b])[pool.pools.length]? = some b := by simp
      have htop : 0 < b.freeListTop := by
        have hlen := congrArg List.length hfresh.free_eq
        rw [length_free, length_objects, hfresh.cap] at hlen
        have hcap := h.capacity_pos
        omega
      obtain ⟨hnot, hinv⟩ := hi.pop hb htop
      simp only [hi.take_eq hb htop]
      refine .inr ⟨_, _, _, rfl, hfail, hnot, hinv, hsame, fun c hc ↦ ?_, fun Z h0 hz ↦ ?_⟩
      · rcases List.mem_or_eq_of_mem_set hc with hc | rfl
        · rcases List.mem_append.mp hc with hc | hc
          · exact .inl ⟨c, hc, rfl⟩
          · rw [List.mem_singleton.mp hc]; exact .inr hfresh.apart
        · exact .inr hfresh.apart
      · exact Sound.freeAll_pop hb htop (hz.append h0 _ h hfresh hsame)

theorem objectPoolAlloc_cases (A : Allocator) (h : Invariant pool m live) :
    (∃ m', objectPoolAlloc A pool m = (none, pool, m') ∧ (∀ b ∈ pool.pools, b.freeListTop = 0) ∧
      createNewPool A m pool.objectSize (2 * pool.initialCapacity) = (none, m') ∧
      m.failures < m'.failures ∧ m'.live = m.live ∧ Unchanged m m') ∨
    (∃ a pool' m', objectPoolAlloc A pool m = (some a, pool', m') ∧
      Allocated pool m live a pool' m') := by
  obtain hnone | ⟨a, pool', m', hrun, hdone⟩ := h.sound.alloc_cases A fun _ ↦ h.fits
  · exact .inl hnone
  · have hsizes := objectPoolAlloc_sizes A pool m
    rw [hrun] at hsizes
    have hfits : Fits pool'.objectSize (2 * pool'.initialCapacity) :=
      hsizes.1 ▸ hsizes.2 ▸ h.fits
    exact .inr ⟨a, pool', m', hrun, hdone.failures, hdone.not_live, hdone.sound.invariant hfits,
      hdone.unchanged, hdone.regions, hdone.free⟩

omit [Zero C] in
theorem objectPoolFree_sizes (pool : ObjectPool) (a : ℕ) :
    (objectPoolFree pool a).objectSize = pool.objectSize ∧
      (objectPoolFree pool a).initialCapacity = pool.initialCapacity := by
  rw [objectPoolFree]
  split
  · exact ⟨rfl, rfl⟩
  · split
    · exact ⟨rfl, rfl⟩
    · split_ifs <;> exact ⟨rfl, rfl⟩

structure Released (pool : ObjectPool) (m : Memory C) (live : List ℕ) (a : ℕ)
    (pool' : ObjectPool) : Prop where
  invariant : Invariant pool' m (live.erase a)
  regions : pool'.pools.map region = pool.pools.map region
  free : ∀ Z : C → Prop, FreeAll Z pool m → Z (m.cell a) → FreeAll Z pool' m

omit [Zero C] in
theorem Sound.free_live (h : Sound pool m live) {a : ℕ} (ha : a ∈ live) :
    Sound (objectPoolFree pool a) m (live.erase a) ∧
      (objectPoolFree pool a).pools.map region = pool.pools.map region ∧
      ∀ Z : C → Prop, FreeAll Z pool m → Z (m.cell a) → FreeAll Z (objectPoolFree pool a) m := by
  obtain ⟨b, hb, hout⟩ := (h.live_iff a).mp ha
  have hwfb := h.wellFormed b hb
  have hcont := objects_contains hwfb.size_pos hout.1
  -- the search stops at `b`, whose range is the only one that holds `a`
  have hrange : ∀ c ∈ pool.pools, (c.pool ≤ a ∧ a < c.limit ↔ c.region.Contains a) := by
    intro c hc
    rw [limit_eq (h.wellFormed c hc).fits]
    rfl
  obtain ⟨i, hi⟩ : ∃ i, pool.pools.findIdx? (fun b ↦ b.pool ≤ a ∧ a < b.limit) = some i := by
    refine Option.ne_none_iff_exists'.mp fun hnone ↦ ?_
    have hb' := List.findIdx?_eq_none_iff.mp hnone b hb
    exact of_decide_eq_false hb' ((hrange b hb).mpr hcont)
  obtain ⟨hlt, hrangei, -⟩ := List.findIdx?_eq_some_iff_getElem.mp hi
  have hget : pool.pools[i]? = some pool.pools[i] := List.getElem?_eq_getElem hlt
  obtain ⟨pre, post, hp, hset⟩ := split_at hget
  have hconti := (hrange _ (List.getElem_mem hlt)).mp (by simpa using hrangei)
  obtain rfl : b = pool.pools[i] := by
    by_contra hne
    have hcase : b ∈ pre ∨ b ∈ post := by
      rw [hp] at hb
      simp only [List.mem_append, List.mem_cons] at hb
      tauto
    exact h.unique_block hp hcase hconti hcont
  obtain ⟨hspace, hwf, hpush⟩ := hwfb.push hout
  have hfree : objectPoolFree pool a = pool.setBlock i (pool.pools[i].pushed a) := by
    simp only [objectPoolFree, hi, hget, if_pos hspace, pushed]
  have hlive : ∀ x, x ∈ live ↔
      pool.pools[i].Out x ∨ ∃ c, (c ∈ pre ∨ c ∈ post) ∧ c.Out x := by
    intro x
    rw [h.live_iff]
    conv_lhs => rw [hp]
    simp only [List.mem_append, List.mem_cons]
    grind
  rw [hfree, ObjectPool.setBlock, hset]
  refine ⟨h.replace hp rfl rfl hwf (h.live_nodup.erase a) fun x ↦ ?_, ?_, fun Z hz ha0 ↦ ?_⟩
  · rw [h.live_nodup.mem_erase_iff, hlive, hpush]
    have hother : ∀ c, (c ∈ pre ∨ c ∈ post) → c.Out x → x ≠ a := by
      rintro c hc ho rfl
      have hcmem : c ∈ pool.pools := by rw [hp]; simp only [List.mem_append, List.mem_cons]; tauto
      exact h.unique_block hp hc hcont (objects_contains (h.wellFormed c hcmem).size_pos ho.1)
    grind
  · conv_rhs => rw [hp]
    simp
  · intro c hc x hx
    simp only [List.mem_append, List.mem_cons] at hc
    rcases hc with hc | rfl | hc
    · exact hz c (by rw [hp]; simp [hc]) x hx
    · rw [free_pushed, List.mem_append, List.mem_singleton] at hx
      rcases hx with hx | rfl
      · exact hz _ hb x hx
      · exact ha0
    · exact hz c (by rw [hp]; simp [hc]) x hx

omit [Zero C] in
theorem objectPoolFree_live (h : Invariant pool m live) {a : ℕ} (ha : a ∈ live) :
    Released pool m live a (objectPoolFree pool a) := by
  obtain ⟨hsound, hregions, hfree⟩ := h.sound.free_live ha
  have hsizes := objectPoolFree_sizes pool a
  have hfits : Fits (objectPoolFree pool a).objectSize
      (2 * (objectPoolFree pool a).initialCapacity) := by
    rw [hsizes.1, hsizes.2]
    exact h.fits
  exact ⟨hsound.invariant hfits, hregions, hfree⟩

end RadixBench.Pool
