import RadixBench.Foundation.Relinking
import Mathlib.Algebra.Order.Ring.Int
import Mathlib.Data.Nat.Fib.Basic

namespace RadixBench.Foundation

variable {N : Type} {height height' : N → ℤ}

theorem height_fill (f : Frame N) (t : BinaryTree N) :
    (f.fill t).height = max f.other.height t.height + 1 := by
  obtain ⟨n, side, other⟩ := f
  cases side
  · exact congrArg (· + 1) (max_comm _ _)
  · rfl

/-- A tree whose nodes know the heights of their subtrees, which differ by at most one. -/
def Balanced (height : N → ℤ) : BinaryTree N → Prop
  | .nil => True
  | .node n l r => height n = (BinaryTree.node n l r).height ∧ l.height ≤ r.height + 1 ∧
      r.height ≤ l.height + 1 ∧ Balanced height l ∧ Balanced height r

theorem balanced_fill {f : Frame N} {t : BinaryTree N} :
    Balanced height (f.fill t) ↔ height f.node = (f.fill t).height ∧
      f.other.height ≤ t.height + 1 ∧ t.height ≤ f.other.height + 1 ∧
      Balanced height f.other ∧ Balanced height t := by
  obtain ⟨n, side, other⟩ := f
  cases side
  · simp only [Frame.fill, Balanced]
    tauto
  · rfl

theorem Balanced.congr {t : BinaryTree N} (h : Balanced height t)
    (hsame : ∀ n ∈ inorder t, height' n = height n) : Balanced height' t := by
  induction t with
  | nil => trivial
  | node n l r ihl ihr =>
    obtain ⟨hn, hlr, hrl, hl, hr⟩ := h
    exact ⟨(hsame n (by simp)).trans hn, hlr, hrl, ihl hl fun m hm ↦ hsame m (by simp [hm]),
      ihr hr fun m hm ↦ hsame m (by simp [hm])⟩

theorem Balanced.exists_node {t : BinaryTree N} {n : N} (h : Balanced height t)
    (hn : rootOf t = some n) : ∃ l r, t = .node n l r ∧ Balanced height l ∧ Balanced height r ∧
      l.height ≤ r.height + 1 ∧ r.height ≤ l.height + 1 := by
  cases t with
  | nil => cases hn
  | node m l r =>
    obtain rfl := Option.some.inj hn
    obtain ⟨-, hlr, hrl, hl, hr⟩ := h
    exact ⟨l, r, rfl, hl, hr, hlr, hrl⟩

theorem fib_height_le {n : N} {l r : BinaryTree N} (hlr : l.height ≤ r.height + 1)
    (hrl : r.height ≤ l.height + 1) : Nat.fib ((BinaryTree.node n l r).height + 2) ≤
      Nat.fib (l.height + 2) + Nat.fib (r.height + 2) := by
  have hheight : (BinaryTree.node n l r).height = max l.height r.height + 1 := rfl
  rw [hheight, Nat.fib_add_two]
  rcases le_total l.height r.height with hle | hle
  · rw [max_eq_right hle]
    exact Nat.add_le_add_right (Nat.fib_mono (by omega)) _
  · rw [max_eq_left hle, Nat.add_comm]
    exact Nat.add_le_add_left (Nat.fib_mono (by omega)) _

/-- A balanced tree of a given height has at least as many nodes as the sparsest one. -/
theorem Balanced.fib_le {t : BinaryTree N} (h : Balanced height t) :
    Nat.fib (t.height + 2) ≤ (inorder t).length + 1 := by
  induction t with
  | nil => exact le_rfl
  | node n l r ihl ihr =>
    obtain ⟨-, hlr, hrl, hl, hr⟩ := h
    calc Nat.fib ((BinaryTree.node n l r).height + 2)
        ≤ Nat.fib (l.height + 2) + Nat.fib (r.height + 2) := fib_height_le hlr hrl
      _ ≤ (inorder l).length + 1 + ((inorder r).length + 1) := Nat.add_le_add (ihl hl) (ihr hr)
      _ = (inorder (.node n l r)).length + 1 := by
        rw [inorder_node, List.length_append, List.length_cons]
        omega

/-- The subtrees around a hole are balanced, and their heights fit to a subtree of height `k`
in the hole. -/
def BalancedAround (height : N → ℤ) : Context N → ℕ → Prop
  | [], _ => True
  | f :: c, k => f.other.height ≤ k + 1 ∧ k ≤ f.other.height + 1 ∧ Balanced height f.other ∧
      BalancedAround height c (max f.other.height k + 1)

theorem Balanced.plug {c : Context N} {t : BinaryTree N} (h : Balanced height (plug c t)) :
    Balanced height t ∧ BalancedAround height c t.height := by
  induction c generalizing t with
  | nil => exact ⟨h, trivial⟩
  | cons f c ih =>
    obtain ⟨hfill, haround⟩ := ih h
    obtain ⟨-, hle, hge, hother, ht⟩ := balanced_fill.mp hfill
    rw [height_fill] at haround
    exact ⟨ht, hle, hge, hother, haround⟩

theorem BalancedAround.congr {c : Context N} {k : ℕ} (h : BalancedAround height c k)
    (hsame : ∀ n ∈ around c, height' n = height n) : BalancedAround height' c k := by
  induction c generalizing k with
  | nil => trivial
  | cons f c ih =>
    obtain ⟨hle, hge, hother, hc⟩ := h
    refine ⟨hle, hge, hother.congr fun n hn ↦ hsame n ?_, ih hc fun n hn ↦ hsame n ?_⟩
    · exact mem_around_cons.mpr (.inr (.inl hn))
    · exact mem_around_cons.mpr (.inr (.inr hn))

theorem BalancedAround.relabel {c₁ c₂ : Context N} {n m : N} {side : Bool} {other : BinaryTree N}
    {k : ℕ} (h : BalancedAround height (c₁ ++ ⟨n, side, other⟩ :: c₂) k) :
    BalancedAround height (c₁ ++ ⟨m, side, other⟩ :: c₂) k := by
  induction c₁ generalizing k with
  | nil => exact h
  | cons f c₁ ih => exact ⟨h.1, h.2.1, h.2.2.1, ih h.2.2.2⟩

def Uneven : BinaryTree N → Prop
  | .nil => False
  | .node _ l r => l.height ≠ r.height

theorem uneven_fill {f : Frame N} {t : BinaryTree N} :
    Uneven (f.fill t) ↔ f.other.height ≠ t.height := by
  obtain ⟨n, side, other⟩ := f
  cases side
  · exact ne_comm
  · rfl

/-- How the height of a subtree may have changed from `k`. After an insertion, a subtree that has
grown is a leaf or uneven. -/
def Changed : Bool → ℕ → BinaryTree N → Prop
  | true, k, t => t.height = k ∨ t.height + 1 = k
  | false, k, t => t.height = k ∨ t.height = k + 1 ∧ (t.height = 1 ∨ Uneven t)

/-- The subtrees `l` and `r` of a node can be mended with at most two rotations. -/
structure Mendable (isDelete : Bool) (l r : BinaryTree N) : Prop where
  left : l.height ≤ r.height + 2
  right : r.height ≤ l.height + 2
  uneven_left : isDelete = false → l.height = r.height + 2 → Uneven l
  uneven_right : isDelete = false → r.height = l.height + 2 → Uneven r

def Lowered (tall low t : BinaryTree N) : Prop :=
  tall.height = low.height + 2 ∧
    (Uneven tall ∧ t.height = low.height + 2 ∨ ¬ Uneven tall ∧ t.height = low.height + 3)

def Mended (l r t : BinaryTree N) : Prop :=
  l.height ≤ r.height + 1 ∧ r.height ≤ l.height + 1 ∧ t.height = max l.height r.height + 1 ∧
      (Uneven t ↔ l.height ≠ r.height) ∨
    Lowered l r t ∨ Lowered r l t

theorem Mendable.symm {isDelete : Bool} {l r : BinaryTree N} (h : Mendable isDelete l r) :
    Mendable isDelete r l := ⟨h.right, h.left, h.uneven_right, h.uneven_left⟩

theorem Mended.symm {l r t : BinaryTree N} (h : Mended l r t) : Mended r l t := by
  rcases h with ⟨hlr, hrl, ht, huneven⟩ | hl | hr
  · exact .inl ⟨hrl, hlr, by rw [ht, max_comm], huneven.trans ne_comm⟩
  · exact .inr (.inr hl)
  · exact .inr (.inl hr)

theorem Changed.mendable {isDelete : Bool} {k : ℕ} {t u : BinaryTree N}
    (h : Changed isDelete k t) (hle : u.height ≤ k + 1) (hge : k ≤ u.height + 1) :
    Mendable isDelete u t := by
  cases isDelete with
  | true =>
    have h : t.height = k ∨ t.height + 1 = k := h
    exact ⟨by omega, by omega, nofun, nofun⟩
  | false =>
    have h : t.height = k ∨ t.height = k + 1 ∧ (t.height = 1 ∨ Uneven t) := h
    refine ⟨by omega, by omega, fun _ hu ↦ by omega, fun _ ht ↦ ?_⟩
    obtain heq | ⟨-, hone | huneven⟩ := h
    · omega
    · omega
    · exact huneven

theorem Changed.mended {isDelete : Bool} {k : ℕ} {t u v : BinaryTree N}
    (h : Changed isDelete k t) (hle : u.height ≤ k + 1) (hge : k ≤ u.height + 1)
    (hm : Mended u t v) : Changed isDelete (max u.height k + 1) v := by
  cases isDelete with
  | true =>
    have h : t.height = k ∨ t.height + 1 = k := h
    rcases hm with ⟨hut, htu, hv, -⟩ | ⟨htall, ⟨-, hv⟩ | ⟨-, hv⟩⟩ | ⟨htall, -⟩ <;>
    · change v.height = _ ∨ v.height + 1 = _
      omega
  | false =>
    have h : t.height = k ∨ t.height = k + 1 ∧ (t.height = 1 ∨ Uneven t) := h
    change v.height = _ ∨ v.height = _ ∧ (v.height = 1 ∨ Uneven v)
    rcases hm with ⟨hut, htu, hv, huneven⟩ | ⟨htall, -⟩ | ⟨htall, ⟨-, hv⟩ | ⟨heven, -⟩⟩
    · by_cases heq : v.height = max u.height k + 1
      · exact .inl heq
      · exact .inr ⟨by omega, .inr (huneven.mpr (by omega))⟩
    · omega
    · omega
    · obtain heq | ⟨-, hone | hodd⟩ := h
      · omega
      · omega
      · exact absurd hodd heven

end RadixBench.Foundation
