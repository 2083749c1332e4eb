import RadixBench.Foundation.Execution
import RadixBench.Foundation.Memory
import Mathlib.Data.Set.Insert

namespace RadixBench.Foundation

variable {C : Type}

namespace Memory

def IsLive (m : Memory C) (a : ℕ) : Prop := ∃ r ∈ m.live, r.base = a

instance (m : Memory C) (a : ℕ) : Decidable (m.IsLive a) :=
  inferInstanceAs (Decidable (∃ r ∈ m.live, _))

def Held (m : Memory C) (a : ℕ) : Prop := ∃ r ∈ m.live, r.base = a ∧ 0 < r.size

theorem Held.isLive {m : Memory C} {a : ℕ} (h : m.Held a) : m.IsLive a := by
  obtain ⟨r, hr, hbase, -⟩ := h
  exact ⟨r, hr, hbase⟩

theorem Held.contains {m : Memory C} {a : ℕ} (h : m.Held a) : ∃ r ∈ m.live, r.Contains a := by
  obtain ⟨r, hr, rfl, hsize⟩ := h
  exact ⟨r, hr, le_rfl, Nat.lt_add_of_pos_right hsize⟩

/-- Reading an object. What has been freed must not be read. -/
def read (m : Memory C) (a : ℕ) : Exec C := do
  check (m.IsLive a)
  .ok (m.cell a)

/-- `free(a)`, which must not be called twice. -/
def release (m : Memory C) (a : ℕ) : Exec (Memory C) := do
  check (m.IsLive a)
  .ok (m.free a)

theorem read_of_live {m : Memory C} {a : ℕ} (h : m.IsLive a) : m.read a = .ok (m.cell a) := by
  rw [read, check_of h, ok_bind]

theorem release_of_live {m : Memory C} {a : ℕ} (h : m.IsLive a) :
    m.release a = .ok (m.free a) := by
  rw [release, check_of h, ok_bind]

end Memory

open scoped Classical in
structure Freed (m m' : Memory C) (S : Set ℕ) : Prop where
  cell : m'.cell = m.cell
  live : m'.live = m.live.filter fun r ↦ r.base ∉ S

namespace Freed

variable {m m' m'' : Memory C} {S T : Set ℕ}

theorem refl (m : Memory C) : Freed m m ∅ :=
  ⟨rfl, by simp⟩

theorem free (m : Memory C) (a : ℕ) : Freed m (m.free a) {a} :=
  ⟨rfl, List.filter_congr fun _ _ ↦ decide_eq_decide.mpr Iff.rfl⟩

theorem trans (h : Freed m m' S) (h' : Freed m' m'' T) : Freed m m'' (S ∪ T) := by
  refine ⟨h'.cell.trans h.cell, ?_⟩
  rw [h'.live, h.live, List.filter_filter]
  refine List.filter_congr fun r _ ↦ Bool.eq_iff_iff.mpr ?_
  rw [Bool.and_eq_true]
  simp only [decide_eq_true_iff, Set.mem_union, not_or, and_comm]

theorem isLive_iff (h : Freed m m' S) (a : ℕ) : m'.IsLive a ↔ m.IsLive a ∧ a ∉ S := by
  simp only [Memory.IsLive, h.live, List.mem_filter, decide_eq_true_iff]
  constructor
  · rintro ⟨r, ⟨hr, hS⟩, rfl⟩
    exact ⟨⟨r, hr, rfl⟩, hS⟩
  · rintro ⟨⟨r, hr, rfl⟩, hS⟩
    exact ⟨r, ⟨hr, hS⟩, rfl⟩

theorem held (h : Freed m m' S) {a : ℕ} (ha : m.Held a) (hS : a ∉ S) : m'.Held a := by
  obtain ⟨r, hr, rfl, hsize⟩ := ha
  exact ⟨r, by rw [h.live]; exact List.mem_filter.mpr ⟨hr, by simpa using hS⟩, rfl, hsize⟩

end Freed

open scoped Classical in
/-- `old` is what is live beside the regions that start in `S`. -/
def Rest (m : Memory C) (S : Set ℕ) (old : List Region) : Prop :=
  (m.live.filter fun r ↦ r.base ∉ S) = old

namespace Rest

variable {m m' : Memory C} {S T : Set ℕ} {old : List Region}

theorem congr (h : Rest m S old) (hlive : m'.live = m.live) : Rest m' S old := by
  rwa [Rest, hlive]

theorem append (h : Rest m S old) (new : List Region) (hlive : m'.live = new ++ m.live)
    (hnew : ∀ r ∈ new, r.base ∈ T) (hfresh : ∀ r ∈ m.live, r.base ∉ T) :
    Rest m' (S ∪ T) old := by
  rw [Rest, hlive, List.filter_append, ← h, List.filter_eq_nil_iff.mpr, List.nil_append]
  · refine List.filter_congr fun r hr ↦ Bool.eq_iff_iff.mpr ?_
    simp only [decide_eq_true_iff, Set.mem_union, not_or, hfresh r hr, not_false_iff, and_true]
  · intro r hr
    simp only [decide_eq_true_iff, Set.mem_union, hnew r hr, or_true, not_true, not_false_iff]

theorem free (h : Rest m S old) {a : ℕ} (ha : a ∈ S) : Rest (m.free a) (S \ {a}) old := by
  rw [Rest, Memory.free, List.filter_filter, ← h]
  refine List.filter_congr fun r _ ↦ Bool.eq_iff_iff.mpr ?_
  simp only [Bool.and_eq_true, decide_eq_true_iff, Set.mem_sdiff, Set.mem_singleton_iff]
  constructor
  · exact fun hand hr ↦ hand.1 ⟨hr, hand.2⟩
  · exact fun hr ↦ ⟨fun hand ↦ hr hand.1, fun hra ↦ hr (hra ▸ ha)⟩

theorem freed (h : Rest m S old) (hfreed : Freed m m' S) : m'.live = old :=
  hfreed.live.trans h

theorem mem_old {r : Region} (h : Rest m S old) (hr : r ∈ m.live) (hS : r.base ∉ S) : r ∈ old :=
  h ▸ List.mem_filter.mpr ⟨hr, by simpa using hS⟩

end Rest

end RadixBench.Foundation
