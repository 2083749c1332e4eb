import Mathlib.Data.List.Basic
import Mathlib.Data.List.Nodup
import Mathlib.Data.List.Pairwise
import Mathlib.Data.List.Perm.Subperm
import Mathlib.Data.List.MinMax
import Mathlib.Algebra.Order.Group.Nat
import Mathlib.Tactic.Common

namespace RadixBench.Foundation

/-- `size_t` arithmetic on a 64-bit machine. -/
def wrap (n : ℕ) : ℕ := n % 2 ^ 64

theorem wrap_of_lt {n : ℕ} (h : n < 2 ^ 64) : wrap n = n := Nat.mod_eq_of_lt h

/-- The addresses `base, …, base + size - 1`; an address is a number. -/
structure Region where
  base : ℕ
  size : ℕ

def Region.Disjoint (r r' : Region) : Prop :=
  r.base + r.size ≤ r'.base ∨ r'.base + r'.size ≤ r.base

def Region.Contains (r : Region) (a : ℕ) : Prop := r.base ≤ a ∧ a < r.base + r.size

instance (r : Region) (a : ℕ) : Decidable (r.Contains a) :=
  inferInstanceAs (Decidable (_ ∧ _))

theorem Region.Disjoint.symm {r r' : Region} (h : r.Disjoint r') : r'.Disjoint r := Or.symm h

theorem Region.Disjoint.not_contains {r r' : Region} (h : r.Disjoint r') {a : ℕ}
    (ha : r.Contains a) : ¬ r'.Contains a := by
  unfold Region.Disjoint at h
  unfold Region.Contains at *
  omega

/-- An object is stored at the address where it starts. The allocator's own
bookkeeping is the list of live regions, the number of calls made so far and
the number of them that were answered `NULL`. -/
structure Memory (C : Type) where
  live : List Region
  calls : ℕ
  failures : ℕ
  cell : ℕ → C

/-- What `calloc` documents: the answer may depend on everything that happened
before and may be `NULL` at any call, but a region handed out lies in the address
space and overlaps no live one. -/
structure Allocator where
  answer : ℕ → List Region → ℕ → Option ℕ
  pos : ∀ {k live n a}, answer k live n = some a → 0 < a
  fits : ∀ {k live n a}, answer k live n = some a → a + n < 2 ^ 64
  fresh : ∀ {k live n a}, answer k live n = some a →
    ∀ r ∈ live, a ≠ r.base ∧ Region.Disjoint ⟨a, n⟩ r

/-- The least address above everything that is live, as long as the address space
has room there. -/
def bumpAllocator : Allocator where
  answer _ live n :=
    let a := (live.map (fun r ↦ r.base + r.size)).foldr max 0 + 1
    if a + n < 2 ^ 64 then some a else none
  pos := by
    intro k live n a h
    simp only at h
    split_ifs at h
    cases h
    omega
  fits := by
    intro k live n a h
    simp only at h
    split_ifs at h
    cases h
    assumption
  fresh := by
    intro k live n a h r hr
    simp only at h
    split_ifs at h
    cases h
    have hmem : r.base + r.size ∈ live.map (fun r ↦ r.base + r.size) := List.mem_map_of_mem hr
    have hle := List.le_max_of_le' 0 hmem le_rfl
    refine ⟨by omega, .inr ?_⟩
    exact Nat.le_succ_of_le hle

/-- An allocator that answers `NULL` from its call number `n` on, counting from 0. -/
def Allocator.failFrom (A : Allocator) (n : ℕ) : Allocator where
  answer k live size := if k < n then A.answer k live size else none
  pos h := A.pos (Option.ite_none_right_eq_some.mp h).2
  fits h := A.fits (Option.ite_none_right_eq_some.mp h).2
  fresh h := A.fresh (Option.ite_none_right_eq_some.mp h).2

namespace Memory

variable {C : Type}

def empty [Zero C] : Memory C := ⟨[], 0, 0, fun _ ↦ 0⟩

def free (m : Memory C) (a : ℕ) : Memory C :=
  { m with live := m.live.filter (fun r ↦ r.base ≠ a) }

def write (m : Memory C) (a : ℕ) (c : C) : Memory C :=
  { m with cell := Function.update m.cell a c }

@[simp] theorem write_live (m : Memory C) (a : ℕ) (c : C) : (m.write a c).live = m.live := rfl

@[simp] theorem write_calls (m : Memory C) (a : ℕ) (c : C) : (m.write a c).calls = m.calls := rfl

@[simp] theorem write_failures (m : Memory C) (a : ℕ) (c : C) :
    (m.write a c).failures = m.failures := rfl

@[simp] theorem write_cell_self (m : Memory C) (a : ℕ) (c : C) : (m.write a c).cell a = c := by
  simp [write]

theorem write_cell_of_ne (m : Memory C) {a b : ℕ} (c : C) (h : b ≠ a) :
    (m.write a c).cell b = m.cell b := by
  simp [write, h]

def SameOn (old : List Region) (m m' : Memory C) : Prop :=
  ∀ a, (∃ r ∈ old, r.Contains a) → m'.cell a = m.cell a

theorem SameOn.refl (old : List Region) (m : Memory C) : SameOn old m m := fun _ _ ↦ rfl

theorem SameOn.trans {old : List Region} {m m' m'' : Memory C} (h : SameOn old m m')
    (h' : SameOn old m' m'') : SameOn old m m'' := fun a ha ↦ (h' a ha).trans (h a ha)

theorem free_live {m : Memory C} {a : ℕ} {n : ℕ} {old : List Region}
    (hlive : m.live = ⟨a, n⟩ :: old) (hne : ∀ r ∈ old, a ≠ r.base) : (m.free a).live = old := by
  have h : old.filter (fun r ↦ r.base ≠ a) = old :=
    List.filter_eq_self.mpr fun r hr ↦ decide_eq_true (hne r hr).symm
  simpa [free, hlive] using h

@[simp] theorem free_cell (m : Memory C) (a : ℕ) : (m.free a).cell = m.cell := rfl

@[simp] theorem free_failures (m : Memory C) (a : ℕ) : (m.free a).failures = m.failures := rfl

variable [Zero C]

/-- `calloc(1, n)`: the objects in the region handed out read as zero. -/
def calloc (A : Allocator) (m : Memory C) (n : ℕ) : Option ℕ × Memory C :=
  match A.answer m.calls m.live n with
  | none => (none, { m with calls := m.calls + 1, failures := m.failures + 1 })
  | some a => (some a, { m with
      live := ⟨a, n⟩ :: m.live
      calls := m.calls + 1
      cell := fun b ↦ if Region.Contains ⟨a, n⟩ b then 0 else m.cell b })

theorem calloc_cases (A : Allocator) (m : Memory C) (n : ℕ) :
    (∃ m', m.calloc A n = (none, m') ∧ m'.live = m.live ∧ m'.failures = m.failures + 1 ∧
      m'.cell = m.cell) ∨
    (∃ a m', m.calloc A n = (some a, m') ∧ 0 < a ∧ a + n < 2 ^ 64 ∧
      (∀ r ∈ m.live, a ≠ r.base ∧ Region.Disjoint ⟨a, n⟩ r) ∧
      m'.live = ⟨a, n⟩ :: m.live ∧ m'.failures = m.failures ∧ SameOn m.live m m' ∧
      (∀ b, Region.Contains ⟨a, n⟩ b → m'.cell b = 0) ∧
      ∀ b, m'.cell b = m.cell b ∨ m'.cell b = 0) := by
  rw [calloc]
  cases h : A.answer m.calls m.live n with
  | none => exact .inl ⟨_, rfl, rfl, rfl, rfl⟩
  | some a =>
    refine .inr ⟨a, _, rfl, A.pos h, A.fits h, A.fresh h, rfl, rfl, ?_, ?_, ?_⟩
    · rintro b ⟨r, hr, hb⟩
      exact if_neg ((A.fresh h r hr).2.symm.not_contains hb)
    · exact fun b hb ↦ if_pos hb
    · intro b
      by_cases hb : Region.Contains ⟨a, n⟩ b
      · exact .inr (if_pos hb)
      · exact .inl (if_neg hb)

end Memory

end RadixBench.Foundation
