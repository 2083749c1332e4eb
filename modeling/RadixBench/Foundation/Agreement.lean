import Mathlib.Data.List.Basic
import Mathlib.Order.Nat
import Mathlib.Tactic.Common

namespace RadixBench.Foundation

section

variable {α : Type} {u w p q : List α} {c d : α}

def Comparable (u w : List α) : Prop := u <+: w ∨ w <+: u

/-- The two lists agree on `p` and go on with different elements. -/
def Parts (p u w : List α) : Prop := ∃ c d, c ≠ d ∧ p ++ [c] <+: u ∧ p ++ [d] <+: w

theorem Comparable.symm (h : Comparable u w) : Comparable w u := Or.symm h

theorem comparable_self (u : List α) : Comparable u u := .inl List.prefix_rfl

theorem comparable_append_iff (p : List α) : Comparable (p ++ u) (p ++ w) ↔ Comparable u w :=
  or_congr (List.prefix_append_right_inj p) (List.prefix_append_right_inj p)

theorem comparable_of_common (hu : u <+: q) (hw : w <+: q) : Comparable u w :=
  List.prefix_or_prefix_of_prefix hu hw

theorem Comparable.of_longer (h : Comparable u w) (hp : p <+: u) : Comparable p w := by
  rcases h with h | h
  · exact .inl (hp.trans h)
  · exact comparable_of_common hp h

theorem comparable_of_length_eq (hlen : u.length = w.length) : Comparable u w ↔ u = w := by
  refine ⟨?_, fun h ↦ h ▸ comparable_self u⟩
  rintro (h | h)
  · exact h.eq_of_length hlen
  · exact (h.eq_of_length hlen.symm).symm

namespace Parts

theorem symm (h : Parts p u w) : Parts p w u := by
  obtain ⟨c, d, hne, hu, hw⟩ := h
  exact ⟨d, c, hne.symm, hw, hu⟩

theorem left (h : Parts p u w) : p <+: u := by
  obtain ⟨c, d, -, hu, -⟩ := h
  exact (List.prefix_append p [c]).trans hu

theorem right (h : Parts p u w) : p <+: w := h.symm.left

theorem length_lt (h : Parts p u w) : p.length < u.length := by
  obtain ⟨c, d, -, hu, -⟩ := h
  have hlen := hu.length_le
  rwa [List.length_append, List.length_singleton] at hlen

theorem of_longer {u' w' : List α} (h : Parts p u w) (hu : u <+: u') (hw : w <+: w') :
    Parts p u' w' := by
  obtain ⟨c, d, hne, hcu, hdw⟩ := h
  exact ⟨c, d, hne, hcu.trans hu, hdw.trans hw⟩

theorem append (h : Parts p u w) (q : List α) : Parts (q ++ p) (q ++ u) (q ++ w) := by
  obtain ⟨c, d, hne, hu, hw⟩ := h
  refine ⟨c, d, hne, ?_, ?_⟩
  · rwa [List.append_assoc, List.prefix_append_right_inj]
  · rwa [List.append_assoc, List.prefix_append_right_inj]

theorem not_comparable (h : Parts p u w) : ¬ Comparable u w := by
  obtain ⟨c, d, hne, hu, hw⟩ := h
  have hparted : ∀ {v : List α}, p ++ [c] <+: v → p ++ [d] <+: v → False := by
    intro v hc hd
    have hpre := List.prefix_of_prefix_length_le hc hd (by simp)
    exact hne (List.append_singleton_inj.mp (hpre.eq_of_length (by simp))).2
  rintro (h | h)
  · exact hparted (hu.trans h) hw
  · exact hparted hu (hw.trans h)

theorem ne (h : Parts p u w) : u ≠ w := by
  rintro rfl
  exact h.not_comparable (comparable_self u)

theorem cons_decomposition (h : Parts p u w) :
    ∃ c d u' w', c ≠ d ∧ u = p ++ c :: u' ∧ w = p ++ d :: w' := by
  obtain ⟨c, d, hne, ⟨u', rfl⟩, ⟨w', rfl⟩⟩ := h
  exact ⟨c, d, u', w', hne, (List.append_cons ..).symm, (List.append_cons ..).symm⟩

end Parts

theorem snoc_unique (hc : p ++ [c] <+: u) (hd : p ++ [d] <+: u) : c = d := by
  by_contra hne
  exact Parts.not_comparable ⟨c, d, hne, hc, hd⟩ (comparable_self u)

theorem exists_snoc (hp : p <+: u) (hlen : p.length < u.length) : ∃ c, p ++ [c] <+: u := by
  obtain ⟨s, rfl⟩ := hp
  cases s with
  | nil => simp at hlen
  | cons c s => exact ⟨c, s, (List.append_cons ..).symm⟩

theorem Parts.length_le_of_common (h : Parts p u w) (hu : q <+: u) (hw : q <+: w) :
    q.length ≤ p.length := by
  by_contra hlt
  obtain ⟨c, d, hne, hcu, hdw⟩ := h
  have hp : p <+: q := List.prefix_of_prefix_length_le ((List.prefix_append p [c]).trans hcu) hu
    (by omega)
  obtain ⟨e, he⟩ := exists_snoc hp (by omega)
  exact hne ((snoc_unique hcu (he.trans hu)).trans (snoc_unique (he.trans hw) hdw))

end

section

variable {α : Type} [DecidableEq α] {u w p q : List α}

/-- How many elements two lists share before they part or one of them ends. -/
def agreement : List α → List α → ℕ
  | c :: u, d :: w => if c = d then agreement u w + 1 else 0
  | [], _ => 0
  | _, [] => 0

@[simp] theorem agreement_nil_left (w : List α) : agreement [] w = 0 := by cases w <;> rfl

@[simp] theorem agreement_nil_right (u : List α) : agreement u [] = 0 := by cases u <;> rfl

theorem agreement_append (p : List α) :
    agreement (p ++ u) (p ++ w) = p.length + agreement u w := by
  induction p with
  | nil => simp
  | cons c p ih =>
    rw [List.cons_append, List.cons_append, agreement, if_pos rfl, ih, List.length_cons]
    omega

theorem agreement_prefix_left (h : u <+: w) : agreement u w = u.length := by
  obtain ⟨s, rfl⟩ := h
  have happ := agreement_append (u := []) (w := s) u
  simpa using happ

theorem agreement_prefix_right (h : w <+: u) : agreement u w = w.length := by
  obtain ⟨s, rfl⟩ := h
  have happ := agreement_append (u := s) (w := []) w
  simpa using happ

theorem Parts.agreement_eq (h : Parts p u w) : agreement u w = p.length := by
  obtain ⟨c, d, u', w', hne, rfl, rfl⟩ := h.cons_decomposition
  rw [agreement_append, agreement, if_neg hne, Nat.add_zero]

theorem comparable_or_parts (u w : List α) : Comparable u w ∨ ∃ p, Parts p u w := by
  induction u generalizing w with
  | nil => exact .inl (.inl List.nil_prefix)
  | cons c u ih =>
    cases w with
    | nil => exact .inl (.inr List.nil_prefix)
    | cons d w =>
      by_cases hcd : c = d
      · subst hcd
        rcases ih w with h | ⟨p, h⟩
        · exact .inl ((comparable_append_iff [c]).mpr h)
        · exact .inr ⟨c :: p, h.append [c]⟩
      · exact .inr ⟨[], c, d, hcd, List.prefix_append [c] u, List.prefix_append [d] w⟩

theorem agreement_le_left (u w : List α) : agreement u w ≤ u.length := by
  rcases comparable_or_parts u w with (h | h) | ⟨p, h⟩
  · exact (agreement_prefix_left h).le
  · exact (agreement_prefix_right h).trans_le h.length_le
  · exact h.agreement_eq.trans_le h.length_lt.le

theorem agreement_le_right (u w : List α) : agreement u w ≤ w.length := by
  rcases comparable_or_parts u w with (h | h) | ⟨p, h⟩
  · exact (agreement_prefix_left h).trans_le h.length_le
  · exact (agreement_prefix_right h).le
  · exact h.agreement_eq.trans_le h.symm.length_lt.le

theorem min_agreement_append (u s w : List α) :
    min (agreement (u ++ s) w) u.length = agreement u w := by
  induction u generalizing w with
  | nil => simp
  | cons c u ih =>
    cases w with
    | nil => simp
    | cons d w =>
      rw [List.cons_append, agreement, agreement, List.length_cons]
      split_ifs with hcd
      · rw [← ih w]
        omega
      · simp

theorem agreement_comm (u w : List α) : agreement u w = agreement w u := by
  rcases comparable_or_parts u w with (h | h) | ⟨p, h⟩
  · rw [agreement_prefix_left h, agreement_prefix_right h]
  · rw [agreement_prefix_left h, agreement_prefix_right h]
  · rw [h.agreement_eq, h.symm.agreement_eq]

theorem agreement_take_left (n : ℕ) (u w : List α) :
    agreement (u.take n) w = min n (agreement u w) := by
  induction u generalizing n w with
  | nil => simp
  | cons c u ih =>
    cases n with
    | zero => simp
    | succ n =>
      cases w with
      | nil => simp
      | cons d w =>
        rw [List.take_succ_cons, agreement, agreement, ih]
        split_ifs <;> omega

theorem agreement_take (n : ℕ) (u w : List α) :
    agreement (u.take n) (w.take n) = min n (agreement u w) := by
  rw [agreement_take_left, agreement_comm, agreement_take_left, agreement_comm w]
  omega

theorem agreement_drop {n : ℕ} (h : n ≤ agreement u w) :
    agreement u w = n + agreement (u.drop n) (w.drop n) := by
  induction n generalizing u w with
  | zero => simp
  | succ n ih =>
    cases u with
    | nil => simp at h
    | cons c u =>
      cases w with
      | nil => simp at h
      | cons d w =>
        rw [agreement] at h ⊢
        split_ifs at h ⊢
        · rw [ih (Nat.le_of_succ_le_succ h), List.drop_succ_cons, List.drop_succ_cons]
          omega
        · omega

theorem agreement_eq_left_iff : agreement u w = u.length ↔ u <+: w := by
  refine ⟨fun h ↦ ?_, agreement_prefix_left⟩
  rcases comparable_or_parts u w with (hpre | hpre) | ⟨p, hparts⟩
  · exact hpre
  · have hlen : w.length = u.length := (agreement_prefix_right hpre).symm.trans h
    exact (hpre.eq_of_length hlen) ▸ List.prefix_rfl
  · have hlt := hparts.length_lt
    rw [hparts.agreement_eq] at h
    omega

end

end RadixBench.Foundation
