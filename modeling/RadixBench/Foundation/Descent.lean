import RadixBench.Foundation.LinkedTree
import Mathlib.Algebra.Order.Ring.Int

namespace RadixBench.Foundation

variable {N : Type} {c : N → ℤ} {t : BinaryTree N} {l : List N}

/-- The node that a comparison leads to, to the left where it is negative. -/
def seek (c : N → ℤ) : BinaryTree N → Option N
  | .nil => none
  | .node n l r => if c n = 0 then some n else if c n < 0 then seek c l else seek c r

theorem seek_of_eq {n : N} (h : c n = 0) (l r : BinaryTree N) :
    seek c (.node n l r) = some n := if_pos h

theorem seek_of_lt {n : N} (h : c n < 0) (l r : BinaryTree N) :
    seek c (.node n l r) = seek c l := (if_neg h.ne).trans (if_pos h)

theorem seek_of_gt {n : N} (h : 0 < c n) (l r : BinaryTree N) :
    seek c (.node n l r) = seek c r := (if_neg h.ne').trans (if_neg h.not_gt)

/-- Once the comparison is negative it stays so, and before it is positive it was so. -/
def Falls (c : N → ℤ) (a b : N) : Prop := (c a < 0 → c b < 0) ∧ (0 < c b → 0 < c a)

/-- The comparison is first positive, then zero and then negative along the list. -/
def SignsFall (c : N → ℤ) (l : List N) : Prop :=
  ∃ above equal below, l = above ++ (equal ++ below) ∧ (∀ n ∈ above, 0 < c n) ∧
    (∀ n ∈ equal, c n = 0) ∧ ∀ n ∈ below, c n < 0

theorem falls_of_pos {a : N} (h : 0 < c a) (b : N) : Falls c a b :=
  ⟨fun hlt ↦ absurd hlt h.not_gt, fun _ ↦ h⟩

theorem falls_of_neg {b : N} (h : c b < 0) (a : N) : Falls c a b :=
  ⟨fun _ ↦ h, fun hgt ↦ absurd hgt h.not_gt⟩

theorem falls_of_zero {a b : N} (ha : c a = 0) (hb : c b = 0) : Falls c a b :=
  ⟨fun hlt ↦ absurd ha hlt.ne, fun hgt ↦ absurd hb hgt.ne'⟩

theorem SignsFall.pairwise (h : SignsFall c l) : l.Pairwise (Falls c) := by
  obtain ⟨above, equal, below, rfl, habove, hequal, hbelow⟩ := h
  refine List.pairwise_append.mpr ⟨?_, List.pairwise_append.mpr ⟨?_, ?_, ?_⟩, ?_⟩
  · exact List.pairwise_of_forall_mem_list fun a ha b _ ↦ falls_of_pos (habove a ha) b
  · exact List.pairwise_of_forall_mem_list fun a ha b hb ↦
      falls_of_zero (hequal a ha) (hequal b hb)
  · exact List.pairwise_of_forall_mem_list fun a _ b hb ↦ falls_of_neg (hbelow b hb) a
  · exact fun a _ b hb ↦ falls_of_neg (hbelow b hb) a
  · exact fun a ha b _ ↦ falls_of_pos (habove a ha) b

structure Finds (c : N → ℤ) (l : List N) (found : Option N) : Prop where
  zero : ∀ n, found = some n → n ∈ l ∧ c n = 0
  missing : found = none → ∀ n ∈ l, c n ≠ 0

theorem Finds.of_subset {l' : List N} {found : Option N} (h : Finds c l found)
    (hsub : ∀ n ∈ l, n ∈ l') (hne : ∀ n ∈ l', c n = 0 → n ∈ l) : Finds c l' found :=
  ⟨fun n hn ↦ ⟨hsub n (h.zero n hn).1, (h.zero n hn).2⟩,
    fun hnone n hn hzero ↦ h.missing hnone n (hne n hn hzero) hzero⟩

/-- The way down never leaves the nodes where the comparison is zero on the other side. -/
theorem seek_finds (h : (inorder t).Pairwise (Falls c)) :
    Finds c (inorder t) (seek c t) := by
  induction t with
  | nil => exact ⟨nofun, fun _ n hn ↦ absurd hn List.not_mem_nil⟩
  | node m l r ihl ihr =>
    rw [inorder_node] at h ⊢
    obtain ⟨hl, hm, hbefore⟩ := List.pairwise_append.mp h
    obtain ⟨hafter, hr⟩ := List.pairwise_cons.mp hm
    have hmem : m ∈ inorder l ++ m :: inorder r := by simp
    rcases lt_trichotomy (c m) 0 with hlt | heq | hgt
    · rw [seek_of_lt hlt]
      refine (ihl hl).of_subset (fun n hn ↦ List.mem_append_left _ hn) fun n hn hzero ↦ ?_
      rcases List.mem_append.mp hn with hn | hn
      · exact hn
      · rcases List.mem_cons.mp hn with rfl | hn
        · exact absurd hzero hlt.ne
        · exact absurd hzero ((hafter n hn).1 hlt).ne
    · rw [seek_of_eq heq]
      refine ⟨fun n hn ↦ ?_, nofun⟩
      obtain rfl := Option.some.inj hn
      exact ⟨hmem, heq⟩
    · rw [seek_of_gt hgt]
      refine (ihr hr).of_subset (fun n hn ↦ by simp [hn]) fun n hn hzero ↦ ?_
      rcases List.mem_append.mp hn with hn | hn
      · exact absurd hzero ((hbefore n hn m List.mem_cons_self).2 hgt).ne'
      · rcases List.mem_cons.mp hn with rfl | hn
        · exact absurd hzero hgt.ne'
        · exact hn

end RadixBench.Foundation
