import RadixBench.Foundation.Digits

namespace RadixBench.Foundation

section

variable {α : Type} [LT α] {u w p : List α} {d e : α}

/-- Where the two lists first differ, the first one has the lesser element. -/
inductive Before : List α → List α → Prop
  | here {d e : α} (u w : List α) : d < e → Before (d :: u) (e :: w)
  | there {u w : List α} (d : α) : Before u w → Before (d :: u) (d :: w)

theorem before_cons_cons : Before (d :: u) (e :: w) ↔ d < e ∨ d = e ∧ Before u w := by
  constructor
  · intro h
    cases h with
    | here _ _ hlt => exact .inl hlt
    | there _ h => exact .inr ⟨rfl, h⟩
  · rintro (hlt | ⟨rfl, h⟩)
    · exact .here u w hlt
    · exact .there d h

namespace Before

theorem of_branch (hu : p ++ [d] <+: u) (hw : p ++ [e] <+: w) (hlt : d < e) : Before u w := by
  obtain ⟨u, rfl⟩ := hu
  obtain ⟨w, rfl⟩ := hw
  induction p with
  | nil => exact .here u w hlt
  | cons c p ih => exact .there c ih

theorem exists_branch (h : Before u w) :
    ∃ p d e, p ++ [d] <+: u ∧ p ++ [e] <+: w ∧ d < e := by
  induction h with
  | @here d e u w hlt => exact ⟨[], d, e, List.prefix_append [d] u, List.prefix_append [e] w, hlt⟩
  | there c _ ih =>
    obtain ⟨p, d, e, hu, hw, hlt⟩ := ih
    exact ⟨c :: p, d, e, List.cons_prefix_cons.mpr ⟨rfl, hu⟩,
      List.cons_prefix_cons.mpr ⟨rfl, hw⟩, hlt⟩

theorem append_left_iff (p : List α) [Std.Irrefl fun d e : α ↦ d < e] :
    Before (p ++ u) (p ++ w) ↔ Before u w := by
  induction p with
  | nil => rfl
  | cons c p ih =>
    rw [List.cons_append, List.cons_append, before_cons_cons, ih]
    simp [Std.lt_irrefl]

theorem splits [Std.Irrefl fun d e : α ↦ d < e] (h : Before u w) (hu : p ++ [d] <+: u)
    (hw : p <+: w) : (∃ e, d < e ∧ p ++ [e] <+: w) ∨ p ++ [d] <+: w := by
  obtain ⟨u, rfl⟩ := hu
  obtain ⟨w, rfl⟩ := hw
  rw [List.append_assoc, append_left_iff] at h
  cases h with
  | @here _ e _ w hlt => exact .inl ⟨e, hlt, w, (List.append_cons ..).symm⟩
  | @there _ w _ h => exact .inr ⟨w, (List.append_cons ..).symm⟩

section

variable [Std.Asymm fun d e : α ↦ d < e]

theorem asymm (h : Before u w) : ¬ Before w u := by
  induction h with
  | @here d e u w hlt =>
    rw [before_cons_cons]
    rintro (hgt | ⟨rfl, -⟩)
    · exact Std.not_gt_of_lt hlt hgt
    · exact Std.lt_irrefl hlt
  | there d _ ih =>
    rw [before_cons_cons]
    rintro (hlt | ⟨-, h⟩)
    · exact Std.lt_irrefl hlt
    · exact ih h

theorem incomparable (h : Before u w) : ¬ u <+: w ∧ ¬ w <+: u := by
  induction h with
  | @here d e u w hlt =>
    have hne : d ≠ e := by
      rintro rfl
      exact Std.lt_irrefl hlt
    exact ⟨fun hp ↦ hne (List.cons_prefix_cons.mp hp).1,
      fun hp ↦ hne (List.cons_prefix_cons.mp hp).1.symm⟩
  | there d _ ih =>
    exact ⟨fun hp ↦ ih.1 (List.cons_prefix_cons.mp hp).2,
      fun hp ↦ ih.2 (List.cons_prefix_cons.mp hp).2⟩

theorem prefix_of_between {v : List α} (huv : Before u v) (hvw : Before v w) (hu : p <+: u)
    (hw : p <+: w) : p <+: v := by
  obtain ⟨u, rfl⟩ := hu
  obtain ⟨w, rfl⟩ := hw
  induction p generalizing v with
  | nil => exact List.nil_prefix
  | cons c p ih =>
    cases v with
    | nil => cases huv
    | cons d v =>
      rw [List.cons_append, before_cons_cons] at huv hvw
      rcases huv with hcd | ⟨rfl, huv⟩
      · rcases hvw with hdc | ⟨rfl, -⟩
        · exact absurd hdc (Std.not_gt_of_lt hcd)
        · exact absurd hcd Std.lt_irrefl
      · rcases hvw with hcc | ⟨-, hvw⟩
        · exact absurd hcc Std.lt_irrefl
        · exact List.cons_prefix_cons.mpr ⟨rfl, ih huv hvw⟩

end

theorem trichotomy [Std.Trichotomous fun d e : α ↦ d < e] (u w : List α) :
    Before u w ∨ Before w u ∨ u <+: w ∨ w <+: u := by
  induction u generalizing w with
  | nil => exact .inr (.inr (.inl List.nil_prefix))
  | cons d u ih =>
    cases w with
    | nil => exact .inr (.inr (.inr List.nil_prefix))
    | cons e w =>
      rcases Std.lt_trichotomy d e with hlt | rfl | hgt
      · exact .inl (.here u w hlt)
      · rcases ih w with h | h | h | h
        · exact .inl (.there d h)
        · exact .inr (.inl (.there d h))
        · exact .inr (.inr (.inl (List.cons_prefix_cons.mpr ⟨rfl, h⟩)))
        · exact .inr (.inr (.inr (List.cons_prefix_cons.mpr ⟨rfl, h⟩)))
      · exact .inr (.inl (.here w u hgt))

end Before

end

/-- The order of a list of bytes and one that is not longer is that of their numbers, as far as
the shorter one reaches. -/
theorem before_iff {u p : List (BitVec 8)} (hlen : p.length ≤ u.length) :
    Before u p ↔ ofDigits (u.take p.length) < ofDigits p := by
  induction p generalizing u with
  | nil =>
    refine iff_of_false (fun h ↦ h.incomparable.2 List.nil_prefix) ?_
    exact Nat.not_lt_zero _
  | cons e p ih =>
    cases u with
    | nil => cases hlen
    | cons d u =>
      replace hlen : p.length ≤ u.length := Nat.le_of_succ_le_succ hlen
      rw [before_cons_cons, ih hlen, List.length_cons, List.take_succ_cons, ofDigits_cons_lt]
      rw [List.length_take]
      exact Nat.min_eq_left hlen

theorem before_iff_lt {u w : List (BitVec 8)} (hlen : u.length = w.length) :
    Before u w ↔ ofDigits u < ofDigits w := by
  rw [before_iff hlen.ge, List.take_of_length_le hlen.le]

theorem before_iff_lt_mul {u p : List (BitVec 8)} (hlen : p.length ≤ u.length) :
    Before u p ↔ ofDigits u < ofDigits p * 256 ^ (u.length - p.length) := by
  rw [before_iff hlen, ofDigits_take, Nat.div_lt_iff_lt_mul (Nat.pow_pos (by norm_num))]

theorem prefix_iff_div {u p : List (BitVec 8)} (hlen : p.length ≤ u.length) :
    p <+: u ↔ ofDigits u / 256 ^ (u.length - p.length) = ofDigits p := by
  rw [← ofDigits_take, List.prefix_iff_eq_take]
  refine ⟨fun h ↦ by rw [← h], fun h ↦ ?_⟩
  refine (ofDigits_injective ?_ h).symm
  rw [List.length_take, Nat.min_eq_left hlen]

end RadixBench.Foundation
