import RadixBench.WideRadix.Operations

namespace RadixBench.WideRadix

open Foundation Memory

variable {m m' : Memory WideRadixNode} {root : ℕ}

theorem Sound.has_of_hasNode (h : Sound m root) {p q : List (BitVec 8)} {x : ℕ} {d : BitVec 8}
    (hx : At m root p x) (hq : HasNode m root q) (hpre : p ++ [d] <+: q) :
    (m.cell x).childMask.has d = true := by
  by_contra hbit
  exact not_hasNode_below hx (h.child_none hx hbit) hpre hq

theorem HasNode.length {p : List (BitVec 8)} (h : HasNode m root p) : p.length ≤ 8 := by
  obtain ⟨x, hx⟩ := h
  exact hx.1

theorem leftmostFrom_stuck {x : ℕ} (hclear : ∀ d, (m.cell x).childMask.has d = false) (rem : ℕ) :
    leftmostFrom m rem x = .ok x := by
  induction rem with
  | zero => rfl
  | succ rem ih =>
    obtain ⟨d, -, hd⟩ | ⟨hnone, -⟩ := nextByte_cases (m.cell x).childMask 256 0 rfl
    · have hhas := hd.has
      rw [hclear d] at hhas
      cases hhas
    · rw [leftmostFrom, hnone]
      exact ih

/-- `s` ends the leftmost descent from `p`: it is a leaf or has no children, and no node
below `p` lies to the left of it. -/
structure Leftmost (m : Memory WideRadixNode) (root : ℕ) (p s : List (BitVec 8)) : Prop where
  hasNode : HasNode m root s
  below : p <+: s
  stuck : s.length < 8 → ∀ d, ¬ HasNode m root (s ++ [d])
  least : ∀ t, HasNode m root t → p <+: t → t.length ≤ s.length →
    ofDigits (s.take t.length) ≤ ofDigits t

theorem leftmostFrom_leftmost (h : Sound m root) (rem : ℕ) {p : List (BitVec 8)} {x : ℕ}
    (hx : At m root p x) (hlen : p.length + rem = 8) :
    ∃ s w, leftmostFrom m rem x = .ok w ∧ At m root s w ∧ Leftmost m root p s := by
  induction rem generalizing p x with
  | zero =>
    refine ⟨p, x, rfl, hx, ⟨x, hx⟩, List.prefix_rfl, fun hlt ↦ by omega, fun t _ hpt ht ↦ ?_⟩
    rw [← hpt.eq_of_length_le ht, List.take_length]
  | succ rem ih =>
    obtain ⟨e, he, hfirst⟩ | ⟨-, hclear⟩ := nextByte_cases (m.cell x).childMask 256 0 rfl
    · obtain ⟨y, hy⟩ := h.exists_child hx hfirst.has
      have hya : At m root (p ++ [e]) y := at_snoc.mpr ⟨x, hx, by omega, hy⟩
      obtain ⟨s, w, hrun, hw, hs⟩ := ih hya (by simp; omega)
      have hps : p <+: s := (List.prefix_append _ _).trans hs.below
      refine ⟨s, w, ?_, hw, hs.hasNode, hps, hs.stuck, fun t ht hpt hlt ↦ ?_⟩
      · rw [leftmostFrom, he]
        simp only [hy, require_some, ok_bind, hrun]
      · by_cases hpt' : p.length < t.length
        · obtain ⟨f, hf⟩ := exists_digit hpt hpt'
          have hle := hfirst.least f (Nat.zero_le _) (h.has_of_hasNode hx ht hf)
          rcases Nat.lt_or_eq_of_le hle with hef | hef
          · have hpre : p ++ [e] <+: s.take t.length := by
              refine List.prefix_take_iff.mpr ⟨hs.below, ?_⟩
              rw [List.length_append, List.length_singleton]
              omega
            exact (ofDigits_lt_of_digit hpre hf (by rw [List.length_take]; omega) hef).le
          · rw [← BitVec.eq_of_toNat_eq hef] at hf
            exact hs.least t ht hf hlt
        · obtain rfl := hpt.eq_of_length_le (Nat.not_lt.mp hpt')
          rw [← List.prefix_iff_eq_take.mp hps]
    · have hall : ∀ d, ¬ (m.cell x).childMask.has d = true := by
        intro d
        rw [hclear d (Nat.zero_le _)]
        exact Bool.false_ne_true
      refine ⟨p, x, leftmostFrom_stuck (fun d ↦ hclear d (Nat.zero_le _)) _, hx, ⟨x, hx⟩,
        List.prefix_rfl, fun _ d ↦ ?_, fun t _ hpt ht ↦ ?_⟩
      · exact not_hasNode_below hx (h.child_none hx (hall d)) List.prefix_rfl
      · rw [← hpt.eq_of_length_le ht, List.take_length]

/-- The loop of `wide_radix_find_geq` ends at the leaf of the key, or goes to the next
byte at the first level where the byte of the key has no child. -/
theorem findGeqFrom_cases (h : Sound m root) (key : BitVec 64) (rem : ℕ) {p : List (BitVec 8)}
    {x : ℕ} (hx : At m root p x) (hlen : p.length + rem = 7) :
    (∃ leaf, findGeqFrom m key rem x = .ok (some leaf) ∧
      At m root (p ++ digits key (rem + 1)) leaf) ∨
    (∃ q y r, findGeqFrom m key rem x = findNext m key r y ∧ At m root q y ∧ q.length + r = 7 ∧
      q ++ [digit key r] <+: p ++ digits key (rem + 1) ∧
      (m.cell y).children (digit key r) = none) := by
  induction rem generalizing p x with
  | zero =>
    have hbyte : extractByte key 7 = digit key 0 := extractByte_eq key 0 (Nat.zero_le _)
    rw [findGeqFrom, hbyte]
    simp only [maskGetBit_eq]
    by_cases hbit : (m.cell x).childMask.has (digit key 0) = true
    · obtain ⟨y, hy⟩ := h.exists_child hx hbit
      have hya : At m root (p ++ [digit key 0]) y := at_snoc.mpr ⟨x, hx, by omega, hy⟩
      have hleaf : (m.cell y).isLeaf = true := (h.leaf_iff hya).mpr (by simp; omega)
      rw [if_pos hbit, hy, require_some, ok_bind, check_of hleaf, ok_bind]
      exact .inl ⟨y, rfl, hya⟩
    · rw [if_neg hbit]
      exact .inr ⟨p, x, 0, rfl, hx, hlen, List.prefix_rfl, h.child_none hx hbit⟩
  | succ rem ih =>
    have hbyte : extractByte key (7 - (rem + 1)) = digit key (rem + 1) :=
      extractByte_eq key (rem + 1) (by omega)
    have hfull := append_digits p key (rem + 1)
    rw [findGeqFrom, hbyte, hfull]
    simp only [maskGetBit_eq]
    by_cases hbit : (m.cell x).childMask.has (digit key (rem + 1)) = true
    · obtain ⟨y, hy⟩ := h.exists_child hx hbit
      rw [if_pos hbit, hy, require_some, ok_bind]
      exact ih (at_snoc.mpr ⟨x, hx, by omega, hy⟩) (by simp; omega)
    · rw [if_neg hbit]
      exact .inr ⟨p, x, rem + 1, rfl, hx, hlen, List.prefix_append _ _, h.child_none hx hbit⟩

theorem findNext_cases (h : Sound m root) (key : BitVec 64) {r : ℕ} {q : List (BitVec 8)} {y : ℕ}
    (hy : At m root q y) (hlen : q.length + r = 7) :
    (findNext m key r y = .ok none ∧
      ∀ e : BitVec 8, (digit key r).toNat + 1 ≤ e.toNat → (m.cell y).childMask.has e = false) ∨
    (∃ e s w, FirstIn (m.cell y).childMask ((digit key r).toNat + 1) 255 e ∧
      findNext m key r y = .ok (if s.length = 8 then some w else none) ∧ At m root s w ∧
      Leftmost m root (q ++ [e]) s) := by
  have hd := (digit key r).isLt
  rw [findNext, extractByte_eq key r (by omega)]
  obtain ⟨e, he, hfirst⟩ | ⟨hnone, hclear⟩ := nextByte_cases (m.cell y).childMask
    (256 - ((digit key r).toNat + 1)) ((digit key r).toNat + 1) (by omega)
  · obtain ⟨z, hz⟩ := h.exists_child hy hfirst.has
    have hza : At m root (q ++ [e]) z := at_snoc.mpr ⟨y, hy, by omega, hz⟩
    obtain ⟨s, w, hrun, hw, hs⟩ := leftmostFrom_leftmost h r hza (by simp; omega)
    refine .inr ⟨e, s, w, hfirst, ?_, hw, hs⟩
    simp only [he, hz, require_some, ok_bind, hrun]
    have hleaf := h.leaf_iff hw
    by_cases hfull : s.length = 8
    · rw [if_pos hfull, if_pos (hleaf.mpr hfull)]
    · rw [if_neg hfull, if_neg fun hl ↦ hfull (hleaf.mp hl)]
  · refine .inl ⟨?_, hclear⟩
    simp only [hnone]

end RadixBench.WideRadix
