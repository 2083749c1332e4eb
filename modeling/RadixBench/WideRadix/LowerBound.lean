import RadixBench.WideRadix.Query

namespace RadixBench.WideRadix

open Foundation Memory

variable {m : Memory WideRadixNode} {root : ℕ} {goal : List (BitVec 8)}

/-- The right answer to a query for `goal`: the leaf of the least full path from there on. -/
def Answers (m : Memory WideRadixNode) (root : ℕ) (goal : List (BitVec 8))
    (r : Exec (Option ℕ)) : Prop :=
  (∃ path leaf, r = .ok (some leaf) ∧ At m root path leaf ∧ path.length = 8 ∧
    ofDigits goal ≤ ofDigits path ∧ ∀ p, HasNode m root p → p.length = 8 →
      ofDigits goal ≤ ofDigits p → ofDigits path ≤ ofDigits p) ∨
  (r = .ok none ∧ ∀ p, HasNode m root p → p.length = 8 → ofDigits p < ofDigits goal)

structure From (m : Memory WideRadixNode) (root : ℕ) (goal t : List (BitVec 8)) : Prop where
  hasNode : HasNode m root t
  length : t.length = 8
  ge : ofDigits goal ≤ ofDigits t

/-- The nodes on the path of `goal`, and those to the right of it above the leaves, are no
dead ends for a search from `goal` on. -/
structure Unobstructed (m : Memory WideRadixNode) (root : ℕ) (goal : List (BitVec 8)) :
    Prop where
  shared : ∀ p, HasNode m root p → p.length ≤ 7 → p <+: goal → ∃ t, From m root goal t ∧ p <+: t
  between : ∀ u, HasNode m root u → u.length = 7 → ofDigits (goal.take 7) < ofDigits u →
    ∃ t, From m root goal t ∧ ofDigits (t.take 7) ≤ ofDigits u

/-- Only the root and nodes just above the leaves may be without children. -/
def Grown (m : Memory WideRadixNode) (root : ℕ) : Prop :=
  ∀ p, HasNode m root p → p ≠ [] → p.length < 7 → ∃ d, HasNode m root (p ++ [d])

theorem Leftmost.length_ge {p s : List (BitVec 8)} (hs : Leftmost m root p s)
    (hgrown : Grown m root) (hp : p ≠ []) : 7 ≤ s.length := by
  by_contra hlt
  have hne : s ≠ [] := fun hnil ↦ hp (List.prefix_nil.mp (hnil ▸ hs.below))
  obtain ⟨d, hd⟩ := hgrown s hs.hasNode hne (by omega)
  exact hs.stuck (by omega) d hd

structure Leaves (m : Memory WideRadixNode) (root : ℕ) (goal q : List (BitVec 8))
    (d : BitVec 8) : Prop where
  hasNode : HasNode m root q
  pre : q ++ [d] <+: goal
  missing : ∀ t, q ++ [d] <+: t → ¬ HasNode m root t

namespace Leaves

variable {q t : List (BitVec 8)} {d : BitVec 8}

theorem exists_greater (h : Leaves m root goal q d) (hgoal : goal.length = 8)
    (ht : HasNode m root t) (hqt : q <+: t) (hlt : q.length < t.length)
    (hge : ofDigits (goal.take t.length) ≤ ofDigits t) : ∃ f, q ++ [f] <+: t ∧ d < f := by
  have hlen := ht.length
  obtain ⟨f, hf⟩ := exists_digit hqt hlt
  have hpre : q ++ [d] <+: goal.take t.length := by
    refine List.prefix_take_iff.mpr ⟨h.pre, ?_⟩
    rw [List.length_append, List.length_singleton]
    exact hlt
  refine ⟨f, hf, ?_⟩
  rw [BitVec.lt_def]
  rcases Nat.lt_trichotomy f.toNat d.toNat with hfd | hfd | hfd
  · have hsmall := ofDigits_lt_of_digit hf hpre (by rw [List.length_take]; omega) hfd
    omega
  · rw [BitVec.eq_of_toNat_eq hfd] at hf
    exact absurd ht (h.missing t hf)
  · exact hfd

theorem not_hasNode_goal (h : Leaves m root goal q d) : ¬ HasNode m root goal :=
  h.missing goal h.pre

theorem length_lt (h : Leaves m root goal q d) (hgoal : goal.length = 8) : q.length < 8 := by
  have hlen := h.pre.length_le
  rw [List.length_append, List.length_singleton] at hlen
  omega

theorem prefix_iff (h : Leaves m root goal q d) (hgoal : t <+: goal) (ht : HasNode m root t) :
    t <+: q := by
  rcases List.prefix_or_prefix_of_prefix hgoal h.pre with hle | hle
  · rcases List.prefix_concat_iff.mp hle with heq | hle
    · exact absurd ht (h.missing t (heq ▸ List.prefix_rfl))
    · exact hle
  · exact absurd ht (h.missing t hle)

end Leaves

/-- The search leaves the path of `goal` at `q`, takes the next greater byte `e` there and
goes down to `s`. -/
structure Turns (m : Memory WideRadixNode) (root : ℕ) (goal q : List (BitVec 8))
    (d e : BitVec 8) (s : List (BitVec 8)) : Prop extends Leaves m root goal q d where
  greater : d < e
  first : ∀ f, d < f → HasNode m root (q ++ [f]) → e.toNat ≤ f.toNat
  leftmost : Leftmost m root (q ++ [e]) s

namespace Turns

variable {q s t : List (BitVec 8)} {d e : BitVec 8}

theorem prefix_take (h : Turns m root goal q d e s) {n : ℕ} (hn : q.length < n) :
    q ++ [e] <+: s.take n := by
  refine List.prefix_take_iff.mpr ⟨h.leftmost.below, ?_⟩
  rw [List.length_append, List.length_singleton]
  exact hn

theorem below (h : Turns m root goal q d e s) : q <+: s :=
  (List.prefix_append q [e]).trans h.leftmost.below

theorem goal_lt (h : Turns m root goal q d e s) (hgoal : goal.length = 8) {n : ℕ}
    (hn : q.length < n) (hns : n ≤ s.length) : ofDigits (goal.take n) < ofDigits (s.take n) := by
  have hlen := h.leftmost.hasNode.length
  have hpre : q ++ [d] <+: goal.take n := by
    refine List.prefix_take_iff.mpr ⟨h.pre, ?_⟩
    rw [List.length_append, List.length_singleton]
    exact hn
  refine ofDigits_lt_of_digit hpre (h.prefix_take hn) ?_ h.greater
  rw [List.length_take, List.length_take]
  omega

theorem least (h : Turns m root goal q d e s) (hgoal : goal.length = 8) (ht : HasNode m root t)
    (hqt : q <+: t) (hlt : q.length < t.length) (hle : t.length ≤ s.length)
    (hge : ofDigits (goal.take t.length) ≤ ofDigits t) :
    ofDigits (s.take t.length) ≤ ofDigits t := by
  obtain ⟨f, hf, hdf⟩ := h.exists_greater hgoal ht hqt hlt hge
  have hnode : HasNode m root (q ++ [f]) := by
    obtain ⟨x, hx⟩ := ht
    exact hx.hasNode_prefix hf
  rcases Nat.lt_or_eq_of_le (h.first f hdf hnode) with hef | hef
  · refine (ofDigits_lt_of_digit (h.prefix_take hlt) hf ?_ hef).le
    rw [List.length_take]
    omega
  · rw [← BitVec.eq_of_toNat_eq hef] at hf
    exact h.leftmost.least t ht hf hle

theorem from_leaf (h : Turns m root goal q d e s) (hgoal : goal.length = 8) (hs : s.length = 8) :
    From m root goal s ∧ ∀ p, From m root goal p → ofDigits s ≤ ofDigits p := by
  have hq := h.length_lt hgoal
  have hlt := h.goal_lt hgoal hq hs.ge
  rw [List.take_of_length_le hgoal.le, List.take_of_length_le hs.le] at hlt
  refine ⟨⟨h.leftmost.hasNode, hs, hlt.le⟩, fun p hp ↦ ?_⟩
  by_contra hps
  have hqp : q <+: p :=
    prefix_of_between ((List.prefix_append q [d]).trans h.pre) h.below (hgoal.trans hp.length.symm)
      (hs.trans hp.length.symm) hp.ge (by omega)
  have hle := h.least hgoal hp.hasNode hqp (by rw [hp.length]; exact hq)
    (by rw [hp.length, hs]) (by rw [hp.length, List.take_of_length_le hgoal.le]; exact hp.ge)
  rw [hp.length, List.take_of_length_le hs.le] at hle
  exact hps hle

theorem unobstructed (h : Turns m root goal q d e s) (hgoal : goal.length = 8)
    (hs : s.length = 8) : Unobstructed m root goal := by
  have hfrom := (h.from_leaf hgoal hs).1
  refine ⟨fun p hp _ hpre ↦ ⟨s, hfrom, (h.prefix_iff hpre hp).trans h.below⟩, fun u hu hlen hlt ↦ ?_⟩
  refine ⟨s, hfrom, ?_⟩
  by_contra hus
  have hq := h.length_lt hgoal
  have hqg : q <+: goal.take 7 :=
    List.prefix_take_iff.mpr ⟨(List.prefix_append q [d]).trans h.pre, by omega⟩
  have hqs : q <+: s.take 7 := List.prefix_take_iff.mpr ⟨h.below, by omega⟩
  have hqu : q <+: u :=
    prefix_of_between hqg hqs (by rw [List.length_take]; omega) (by rw [List.length_take]; omega)
      hlt.le (by omega)
  by_cases hqlen : q.length < 7
  · have hle := h.least hgoal hu hqu (by omega) (by omega) (by rw [hlen]; exact hlt.le)
    rw [hlen] at hle
    exact hus hle
  · have hqt : q = s.take 7 := hqs.eq_of_length (by rw [List.length_take]; omega)
    have hqu' : q = u := hqu.eq_of_length (by omega)
    rw [← hqt, ← hqu'] at hus
    exact hus le_rfl

theorem length_of_unobstructed (h : Turns m root goal q d e s) (hgoal : goal.length = 8)
    (hgrown : Grown m root) (hun : Unobstructed m root goal) : s.length = 8 := by
  have hq := h.length_lt hgoal
  have hge := h.leftmost.length_ge hgrown (by simp)
  have hle := h.leftmost.hasNode.length
  obtain ⟨t, ht, htake⟩ : ∃ t, From m root goal t ∧ t.take 7 = s.take 7 := by
    by_cases hqlen : q.length < 7
    · obtain ⟨x, hx⟩ := h.leftmost.hasNode
      have hnode : HasNode m root (s.take 7) := hx.hasNode_prefix (List.take_prefix 7 s)
      have hslen : (s.take 7).length = 7 := by rw [List.length_take]; omega
      obtain ⟨t, ht, hts⟩ := hun.between _ hnode hslen (h.goal_lt hgoal hqlen hge)
      have hgt : ofDigits (goal.take 7) ≤ ofDigits (t.take 7) :=
        ofDigits_take_mono (hgoal.trans ht.length.symm) ht.ge 7
      have htlen : (t.take 7).length = 7 := by rw [List.length_take, ht.length]; rfl
      have hqt : q <+: t.take 7 := by
        refine prefix_of_between ?_ ?_ ?_ ?_ hgt hts
        · exact List.prefix_take_iff.mpr ⟨(List.prefix_append q [d]).trans h.pre, by omega⟩
        · exact List.prefix_take_iff.mpr ⟨h.below, by omega⟩
        · rw [List.length_take, htlen, hgoal]
          rfl
        · rw [hslen, htlen]
      have htnode : HasNode m root (t.take 7) := by
        obtain ⟨z, hz⟩ := ht.hasNode
        exact hz.hasNode_prefix (List.take_prefix 7 t)
      have hst := h.least hgoal htnode hqt (by omega) (by omega) (by rw [htlen]; exact hgt)
      rw [htlen] at hst
      exact ⟨t, ht, ofDigits_injective (htlen.trans hslen.symm) (by omega)⟩
    · obtain ⟨t, ht, hqt⟩ :=
        hun.shared q h.hasNode (by omega) ((List.prefix_append q [d]).trans h.pre)
      have hlen : q.length = 7 := by omega
      refine ⟨t, ht, ?_⟩
      rw [← hlen, ← List.prefix_iff_eq_take.mp hqt, ← List.prefix_iff_eq_take.mp h.below]
  by_contra hs
  have hs7 : s.length = 7 := by omega
  rw [List.take_of_length_le hs7.le] at htake
  obtain ⟨f, hf⟩ := exists_digit (htake ▸ List.take_prefix 7 t) (by rw [ht.length]; omega)
  obtain ⟨z, hz⟩ := ht.hasNode
  exact h.leftmost.stuck (by omega) f (hz.hasNode_prefix hf)

end Turns

theorem findGeqFrom_outcome (h : Sound m root) (key : BitVec 64) :
    (∃ leaf, findGeqFrom m key 7 root = .ok (some leaf) ∧ At m root (digits key 8) leaf) ∨
    (∃ q d, findGeqFrom m key 7 root = .ok none ∧ Leaves m root (digits key 8) q d ∧
      ∀ f, d < f → ¬ HasNode m root (q ++ [f])) ∨
    (∃ q d e s w, findGeqFrom m key 7 root = .ok (if s.length = 8 then some w else none) ∧
      At m root s w ∧ Turns m root (digits key 8) q d e s) := by
  obtain ⟨leaf, hrun, hat⟩ | ⟨q, y, r, hrun, hy, hlen, hpre, hnone⟩ :=
    findGeqFrom_cases h key 7 at_nil rfl
  · exact .inl ⟨leaf, hrun, hat⟩
  · have hleaves : Leaves m root (digits key 8) q (digit key r) :=
      ⟨⟨y, hy⟩, hpre, fun t ht ↦ not_hasNode_below hy hnone ht⟩
    rw [hrun]
    obtain ⟨hnext, hclear⟩ | ⟨e, s, w, hfirst, hnext, hw, hs⟩ := findNext_cases h key hy hlen
    · refine .inr (.inl ⟨q, _, hnext, hleaves, fun f hdf hf ↦ ?_⟩)
      have hbit := h.has_of_hasNode hy hf List.prefix_rfl
      rw [hclear f hdf] at hbit
      cases hbit
    · refine .inr (.inr ⟨q, _, e, s, w, hnext, hw, hleaves, hfirst.ge, fun f hdf hf ↦ ?_, hs⟩)
      exact hfirst.least f hdf (h.has_of_hasNode hy hf List.prefix_rfl)

theorem answers_none {goal : List (BitVec 8)} :
    Answers m root goal (.ok none) ↔
      ∀ p, HasNode m root p → p.length = 8 → ofDigits p < ofDigits goal := by
  constructor
  · rintro (⟨path, leaf, hr, -⟩ | ⟨-, hall⟩)
    · cases hr
    · exact hall
  · exact fun hall ↦ .inr ⟨rfl, hall⟩

theorem answers_exact {leaf : ℕ} (hgoal : goal.length = 8) (h : At m root goal leaf) :
    Answers m root goal (.ok (some leaf)) :=
  .inl ⟨goal, leaf, rfl, h, hgoal, le_rfl, fun _ _ _ hle ↦ hle⟩

/-- A query is answered rightly exactly when its path is there, or nothing from it on is,
or no dead end lies in the way. -/
theorem answers_iff (h : Sound m root) (hgrown : Grown m root) (key : BitVec 64) :
    Answers m root (digits key 8) (findGeqFrom m key 7 root) ↔
      HasNode m root (digits key 8) ∨
      (∀ p, HasNode m root p → p.length = 8 → ofDigits p < ofDigits (digits key 8)) ∨
      Unobstructed m root (digits key 8) := by
  have hgoal := length_digits key 8
  obtain ⟨leaf, hrun, hat⟩ | ⟨q, d, hrun, hq, hnone⟩ | ⟨q, d, e, s, w, hrun, hw, ht⟩ :=
    findGeqFrom_outcome h key
  · rw [hrun]
    exact iff_of_true (answers_exact hgoal hat) (.inl ⟨leaf, hat⟩)
  · rw [hrun, answers_none, or_iff_right hq.not_hasNode_goal]
    refine (or_iff_left_of_imp fun hun ↦ ?_).symm
    -- Some path below `q` is wanted, but all greater bytes there are missing.
    have hlen := hq.length_lt hgoal
    obtain ⟨t, ht, hqt⟩ :=
      hun.shared q hq.hasNode (by omega) ((List.prefix_append q [d]).trans hq.pre)
    have hge : ofDigits ((digits key 8).take t.length) ≤ ofDigits t := by
      rw [ht.length, List.take_of_length_le hgoal.le]
      exact ht.ge
    obtain ⟨f, hf, hdf⟩ := hq.exists_greater hgoal ht.hasNode hqt (by rw [ht.length]; exact hlen) hge
    obtain ⟨z, hz⟩ := ht.hasNode
    exact absurd (hz.hasNode_prefix hf) (hnone f hdf)
  · rw [hrun, or_iff_right ht.not_hasNode_goal]
    by_cases hs : s.length = 8
    · obtain ⟨hfrom, hleast⟩ := ht.from_leaf hgoal hs
      rw [if_pos hs]
      refine iff_of_true (.inl ⟨s, w, rfl, hw, hs, hfrom.ge, fun p hp hlen hge ↦ ?_⟩)
        (.inr (ht.unobstructed hgoal hs))
      exact hleast p ⟨hp, hlen, hge⟩
    · rw [if_neg hs, answers_none]
      exact (or_iff_left fun hun ↦ hs (ht.length_of_unobstructed hgoal hgrown hun)).symm

end RadixBench.WideRadix
