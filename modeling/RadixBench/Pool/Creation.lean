import RadixBench.Pool.Model

namespace RadixBench.Pool

open Foundation Memory

namespace ObjectPoolBlock

variable {b : ObjectPoolBlock}

def region (b : ObjectPoolBlock) : Region := ⟨b.pool, b.capacity * b.objectSize⟩

def objects (b : ObjectPoolBlock) : List ℕ :=
  (List.range b.capacity).map (fun i ↦ b.pool + i * b.objectSize)

/-- The stacked part of the free list, bottom first. -/
def free (b : ObjectPoolBlock) : List ℕ := (List.range b.freeListTop).map b.freeList

structure WellFormed (b : ObjectPoolBlock) : Prop where
  size_pos : 0 < b.objectSize
  pool_pos : 0 < b.pool
  fits : b.pool + b.capacity * b.objectSize < 2 ^ 64
  nodup : b.free.Nodup
  subset : ∀ a ∈ b.free, a ∈ b.objects
  count : b.used + b.freeListTop = b.capacity

theorem mem_objects {a : ℕ} :
    a ∈ b.objects ↔ ∃ i < b.capacity, a = b.pool + i * b.objectSize := by
  simp only [objects, List.mem_map, List.mem_range, eq_comm]

@[simp] theorem length_objects : b.objects.length = b.capacity := by simp [objects]

@[simp] theorem length_free : b.free.length = b.freeListTop := by simp [free]

theorem objects_bound {a : ℕ} (h : a ∈ b.objects) :
    b.pool ≤ a ∧ a + b.objectSize ≤ b.pool + b.capacity * b.objectSize := by
  obtain ⟨i, hi, rfl⟩ := mem_objects.mp h
  have hmul := Nat.mul_le_mul_right b.objectSize (Nat.succ_le_of_lt hi)
  rw [Nat.succ_mul] at hmul
  omega

theorem objects_nodup (h : 0 < b.objectSize) : b.objects.Nodup := by
  refine List.nodup_range.map fun i j hij ↦ ?_
  exact Nat.eq_of_mul_eq_mul_right h (Nat.add_left_cancel hij)

theorem objects_contains (h : 0 < b.objectSize) {a : ℕ} (ha : a ∈ b.objects) :
    b.region.Contains a := by
  have hb := objects_bound ha
  simp only [region, Region.Contains]
  omega

theorem objects_apart {a a' : ℕ} (ha : a ∈ b.objects) (ha' : a' ∈ b.objects) (hne : a ≠ a') :
    a + b.objectSize ≤ a' ∨ a' + b.objectSize ≤ a := by
  obtain ⟨i, hi, rfl⟩ := mem_objects.mp ha
  obtain ⟨j, hj, rfl⟩ := mem_objects.mp ha'
  rcases Nat.lt_trichotomy i j with hij | rfl | hij
  · have h := Nat.mul_le_mul_right b.objectSize (Nat.succ_le_of_lt hij)
    rw [Nat.succ_mul] at h
    omega
  · exact absurd rfl hne
  · have h := Nat.mul_le_mul_right b.objectSize (Nat.succ_le_of_lt hij)
    rw [Nat.succ_mul] at h
    omega

theorem limit_eq (h : b.pool + b.capacity * b.objectSize < 2 ^ 64) :
    b.limit = b.pool + b.capacity * b.objectSize := by
  rw [limit, wrap_of_lt (by omega : b.capacity * b.objectSize < 2 ^ 64), wrap_of_lt h]

theorem free_initFreeList (hfree : b.freeList = initFreeList b.pool b.objectSize b.capacity)
    (htop : b.freeListTop = b.capacity) (hfit : b.pool + b.capacity * b.objectSize < 2 ^ 64) :
    b.free = b.objects := by
  rw [free, objects, htop, hfree]
  refine List.map_congr_left fun i hi ↦ ?_
  have hi := List.mem_range.mp hi
  have hmul := Nat.mul_le_mul_right b.objectSize hi.le
  rw [initFreeList, if_pos hi, wrap_of_lt (by omega : i * b.objectSize < 2 ^ 64),
    wrap_of_lt (by omega)]

end ObjectPoolBlock

open ObjectPoolBlock

variable {C : Type} [Zero C]

/-- The sizes of the two arrays of a block do not wrap around. -/
def Fits (objectSize capacity : ℕ) : Prop :=
  objectSize * capacity < 2 ^ 64 ∧ sizeofPointer * capacity < 2 ^ 64

instance (objectSize capacity : ℕ) : Decidable (Fits objectSize capacity) :=
  inferInstanceAs (Decidable (_ ∧ _))

/-- A block that `createNewPool` returns: all of its objects are free, read as
zero, and lie outside everything that was live. -/
structure Fresh (b : ObjectPoolBlock) (objectSize capacity : ℕ) (m m' : Memory C) : Prop where
  size : b.objectSize = objectSize
  cap : b.capacity = capacity
  wellFormed : b.WellFormed
  free_eq : b.free = b.objects
  live : b.region ∈ m'.live
  apart : ∀ r ∈ m.live, b.region.Disjoint r
  zero : ∀ a, b.region.Contains a → m'.cell a = 0

structure Unchanged (m m' : Memory C) : Prop where
  live : m.live ⊆ m'.live
  same : SameOn m.live m m'
  zero : ∀ a, m'.cell a = m.cell a ∨ m'.cell a = 0

theorem Unchanged.refl (m : Memory C) : Unchanged m m :=
  ⟨fun _ h ↦ h, SameOn.refl _ _, fun _ ↦ .inl rfl⟩

theorem Unchanged.trans {m m' m'' : Memory C} (h : Unchanged m m') (h' : Unchanged m' m'') :
    Unchanged m m'' := by
  refine ⟨fun r hr ↦ h'.live (h.live hr), ?_, fun a ↦ ?_⟩
  · exact h.same.trans fun a ⟨r, hr, ha⟩ ↦ h'.same a ⟨r, h.live hr, ha⟩
  · rcases h'.zero a with e | e
    · rw [e]; exact h.zero a
    · exact .inr e

theorem createNewPool_none {A : Allocator} {m m' : Memory C} {objectSize capacity : ℕ}
    (h : createNewPool A m objectSize capacity = (none, m')) :
    m.failures < m'.failures ∧ m'.live = m.live ∧ Unchanged m m' := by
  rw [createNewPool] at h
  obtain ⟨m₁, h₁, hl₁, hf₁, hc₁⟩ | ⟨a₁, m₁, h₁, -, -, hfr₁, hl₁, hf₁, hs₁, -, hz₁⟩ :=
    calloc_cases A m sizeofObjectPoolBlock
  · rw [h₁] at h
    cases h
    exact ⟨by omega, hl₁, by simp [hl₁], fun a _ ↦ by rw [hc₁], fun a ↦ .inl (by rw [hc₁])⟩
  have u₁ : Unchanged m m₁ := ⟨by simp [hl₁], hs₁, hz₁⟩
  obtain ⟨m₂, h₂, hl₂, hf₂, hc₂⟩ | ⟨a₂, m₂, h₂, -, -, hfr₂, hl₂, hf₂, hs₂, -, hz₂⟩ :=
    calloc_cases A m₁ (wrap (objectSize * capacity))
  · simp only [h₁, h₂] at h
    cases h
    have hfree := free_live (hl₂.trans hl₁) fun r hr ↦ (hfr₁ r hr).1
    refine ⟨by simp only [free_failures]; omega, hfree, by simp [hfree], ?_, ?_⟩
    · intro a ha; rw [free_cell, hc₂]; exact u₁.same a ha
    · intro a; rw [free_cell, hc₂]; exact u₁.zero a
  have u₂ : Unchanged m m₂ := u₁.trans ⟨by simp [hl₂], hs₂, hz₂⟩
  obtain ⟨m₃, h₃, hl₃, hf₃, hc₃⟩ | ⟨a₃, m₃, h₃, -⟩ :=
    calloc_cases A m₂ (wrap (sizeofPointer * capacity))
  · simp only [h₁, h₂, h₃] at h
    cases h
    have hfree₂ := free_live (hl₃.trans hl₂) fun r hr ↦ (hfr₂ r hr).1
    have hfree := free_live (hfree₂.trans hl₁) fun r hr ↦ (hfr₁ r hr).1
    refine ⟨by simp only [free_failures]; omega, hfree, by simp [hfree], ?_, ?_⟩
    · intro a ha; simp only [free_cell, hc₃]; exact u₂.same a ha
    · intro a; simp only [free_cell, hc₃]; exact u₂.zero a
  · simp only [h₁, h₂, h₃] at h
    cases h

/-- What a new block and the memory around it look like, for any sizes: `range` is the region that
was requested for the objects. -/
structure Created (b : ObjectPoolBlock) (objectSize capacity : ℕ) (range : Region)
    (m m' : Memory C) : Prop where
  block_eq :
    b = ⟨b.pool, objectSize, capacity, 0, initFreeList b.pool objectSize capacity, capacity⟩
  base : range.base = b.pool
  size : range.size = wrap (objectSize * capacity)
  pos : 0 < b.pool
  fits : range.base + range.size < 2 ^ 64
  live : ∃ block list, m'.live =
    ⟨list, wrap (sizeofPointer * capacity)⟩ :: range :: ⟨block, sizeofObjectPoolBlock⟩ :: m.live
  apart : ∀ r ∈ m.live, range.Disjoint r
  zero : ∀ a, range.Contains a → m'.cell a = 0
  failures : m'.failures = m.failures
  unchanged : Unchanged m m'

theorem createNewPool_some {A : Allocator} {m m' : Memory C} {objectSize capacity : ℕ}
    {b : ObjectPoolBlock} (h : createNewPool A m objectSize capacity = (some b, m')) :
    ∃ range, Created b objectSize capacity range m m' := by
  rw [createNewPool] at h
  obtain ⟨m₁, h₁, -⟩ | ⟨a₁, m₁, h₁, -, -, -, hl₁, hf₁, hs₁, -, hz₁⟩ :=
    calloc_cases A m sizeofObjectPoolBlock
  · rw [h₁] at h
    cases h
  obtain ⟨m₂, h₂, -⟩ | ⟨a₂, m₂, h₂, hp₂, hfit₂, hfr₂, hl₂, hf₂, hs₂, hin₂, hz₂⟩ :=
    calloc_cases A m₁ (wrap (objectSize * capacity))
  · simp only [h₁, h₂] at h
    cases h
  obtain ⟨m₃, h₃, -⟩ | ⟨a₃, m₃, h₃, -, -, -, hl₃, hf₃, hs₃, -, hz₃⟩ :=
    calloc_cases A m₂ (wrap (sizeofPointer * capacity))
  · simp only [h₁, h₂, h₃] at h
    cases h
  simp only [h₁, h₂, h₃] at h
  obtain ⟨hb, rfl⟩ := Prod.mk.inj h
  obtain rfl := Option.some.inj hb
  have u₁ : Unchanged m m₁ := ⟨by simp [hl₁], hs₁, hz₁⟩
  have u₂ : Unchanged m₁ m₂ := ⟨by simp [hl₂], hs₂, hz₂⟩
  have u₃ : Unchanged m₂ m₃ := ⟨by simp [hl₃], hs₃, hz₃⟩
  refine ⟨⟨a₂, wrap (objectSize * capacity)⟩, rfl, rfl, rfl, hp₂, hfit₂,
    ⟨a₁, a₃, by rw [hl₃, hl₂, hl₁]⟩, fun r hr ↦ (hfr₂ r (by simp [hl₁, hr])).2, fun a ha ↦ ?_,
    by omega, u₁.trans (u₂.trans u₃)⟩
  rw [hs₃ a ⟨_, by simp [hl₂], ha⟩]
  exact hin₂ a ha

theorem Created.fresh {b : ObjectPoolBlock} {objectSize capacity : ℕ} {range : Region}
    {m m' : Memory C} (h : Created b objectSize capacity range m m') (hsize : 0 < objectSize)
    (hfits : Fits objectSize capacity) : Fresh b objectSize capacity m m' := by
  have hos : b.objectSize = objectSize := by rw [h.block_eq]
  have hcap : b.capacity = capacity := by rw [h.block_eq]
  have htop : b.freeListTop = b.capacity := by rw [h.block_eq]
  have hlist : b.freeList = initFreeList b.pool b.objectSize b.capacity := by
    rw [hos, hcap]
    exact congrArg freeList h.block_eq
  have hregion : b.region = range := by
    obtain ⟨base, size⟩ := range
    obtain rfl : base = b.pool := h.base
    obtain rfl : size = objectSize * capacity := h.size.trans (wrap_of_lt hfits.1)
    rw [region, hos, hcap, Nat.mul_comm]
  have hfit : b.pool + b.capacity * b.objectSize < 2 ^ 64 := by
    have hlt := h.fits
    rw [← hregion] at hlt
    exact hlt
  have hfree : b.free = b.objects := free_initFreeList hlist htop hfit
  obtain ⟨block, list, hlive⟩ := h.live
  refine ⟨hos, hcap, ⟨hos ▸ hsize, h.pos, hfit, ?_, ?_, ?_⟩, hfree, ?_, ?_, ?_⟩
  · rw [hfree]
    exact objects_nodup (hos ▸ hsize)
  · rw [hfree]
    exact fun _ ha ↦ ha
  · rw [htop]
    have hused : b.used = 0 := by rw [h.block_eq]
    rw [hused, Nat.zero_add]
  · simp [hlive, hregion]
  · exact hregion ▸ h.apart
  · exact hregion ▸ h.zero

/-- The two outcomes of `createNewPool`, when the two products do not wrap. -/
theorem createNewPool_cases (A : Allocator) (m : Memory C) {objectSize capacity : ℕ}
    (hsize : 0 < objectSize) (hfits : Fits objectSize capacity) :
    (∃ m', createNewPool A m objectSize capacity = (none, m') ∧ m.failures < m'.failures ∧
      m'.live = m.live ∧ Unchanged m m') ∨
    (∃ b m', createNewPool A m objectSize capacity = (some b, m') ∧ m'.failures = m.failures ∧
      Fresh b objectSize capacity m m' ∧ Unchanged m m') := by
  cases h : createNewPool A m objectSize capacity with
  | mk b m' =>
    cases b with
    | none => exact .inl ⟨m', rfl, createNewPool_none h⟩
    | some b =>
      obtain ⟨range, hcreated⟩ := createNewPool_some h
      exact .inr ⟨b, m', rfl, hcreated.failures, hcreated.fresh hsize hfits, hcreated.unchanged⟩

end RadixBench.Pool
