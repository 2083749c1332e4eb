import RadixBench.RadixNew.Updates

namespace RadixBench.RadixNew

open Foundation Memory Pool

namespace WideRadixTree

variable {t t' : WideRadixTree} {live : Bool → List ℕ}

/-- Two trees that agree on the edges at every reachable node, apart from those of
`x` that lead through the word `i`, agree on the paths that avoid these. -/
theorem at_away {p : List (BitVec 8)} {x : NodePtr} {i : Fin 4}
    (hn : t'.numLevels = t.numLevels) (hx : ∀ r, t.At r x → r = p)
    (hnode : ∀ r y d, t.At r y → y ≠ x ∨ hi d ≠ i →
      (t'.node y).children (hi d) = (t.node y).children (hi d))
    {q : List (BitVec 8)} (hq : ∀ e, hi e = i → ¬ p ++ [e] <+: q) (y : NodePtr) :
    t'.At q y ↔ t.At q y := by
  rw [At, At, hn]
  refine and_congr_right fun hlen ↦ ?_
  have hwalk : walk t'.next .root q = walk t.next .root q := by
    refine walk_eq_away (S := fun e ↦ hi e = i) (fun r hr hw ↦ hx r ⟨hr, hw⟩) ?_ hlen.le hq
    intro r y d hr hw hne
    rw [next, next, hnode r y d ⟨hr, hw⟩ hne]
  rw [hwalk]

theorem mem_update_cons {leaf leaf₀ : Bool} {a b : ℕ} :
    b ∈ Function.update live leaf₀ (a :: live leaf₀) leaf ↔
      b ∈ live leaf ∨ leaf = leaf₀ ∧ b = a := by
  by_cases hleaf : leaf = leaf₀
  · subst hleaf
    rw [Function.update_self, List.mem_cons, or_comm, and_iff_right rfl]
  · rw [Function.update_of_ne hleaf]
    exact (or_iff_left fun h ↦ hleaf h.1).symm

/-- `t'` is `t` with the fresh zero block `a` hung under the node `x` for the byte
`d`, and the presence bit of `d` set. -/
structure Linked (t t' : WideRadixTree) (live : Bool → List ℕ) (p : List (BitVec 8))
    (x : NodePtr) (d : BitVec 8) (a : ℕ) : Prop where
  numLevels : t'.numLevels = t.numLevels
  failures : t'.memory.failures = t.memory.failures
  pools : t'.PoolsSound (Function.update live (t.isLast p) (a :: live (t.isLast p)))
  not_live : ∀ leaf, a ∉ live leaf
  node_self : t'.node x =
    ⟨(t.node x).bits.set d, Function.update (t.node x).children (hi d) (some a)⟩
  node_of_ne : ∀ {q y}, t.At q y → y ≠ x → t'.node y = t.node y
  value_eq : ∀ {q y i b}, t.At q y → (t.node y).children i = some b →
    ∀ c, t'.value b c = t.value b c
  fresh : ∀ c, t'.SlotZero (t.isLast p) a c

namespace Linked

variable {p : List (BitVec 8)} {x : NodePtr} {d : BitVec 8} {a : ℕ}

theorem isLast_eq (hl : Linked t t' live p x d a) : t'.isLast = t.isLast := by
  funext q
  rw [isLast, isLast, hl.numLevels]

theorem node_fresh (hl : Linked t t' live p x d a) (hlen : p.length + 1 < t.numLevels)
    (c : Fin 64) : t'.node (.item a c) = 0 :=
  (slotZero_inner hlen).mp (hl.fresh c)

theorem value_fresh (hl : Linked t t' live p x d a) (hlen : p.length + 1 = t.numLevels)
    (c : Fin 64) : t'.value a c = 0#64 :=
  (slotZero_last hlen).mp (hl.fresh c)

theorem children_of_ne (hl : Linked t t' live p x d a) {q : List (BitVec 8)} {y : NodePtr}
    {i : Fin 4} (hy : t.At q y) (hne : y ≠ x ∨ i ≠ hi d) :
    (t'.node y).children i = (t.node y).children i := by
  by_cases hyx : y = x
  · subst hyx
    rw [hl.node_self]
    exact Function.update_of_ne (hne.resolve_left fun h ↦ h rfl) _ _
  · rw [hl.node_of_ne hy hyx]

theorem at_iff (hl : Linked t t' live p x d a) (h : t.Sound live) (hx : t.At p x)
    (hnull : (t.node x).children (hi d) = none) (q : List (BitVec 8)) (y : NodePtr) :
    t'.At q y ↔ t.At q y ∨
      ∃ e, hi e = hi d ∧ q = p ++ [e] ∧ p.length + 1 < t.numLevels ∧ y = .item a (lo e) := by
  have haway : ∀ {q}, (∀ e, hi e = hi d → ¬ p ++ [e] <+: q) → ∀ y, t'.At q y ↔ t.At q y :=
    at_away hl.numLevels (fun r hr ↦ h.at_injective hr hx) fun _ _ _ hy hne ↦
      hl.children_of_ne hy hne
  have hx' : t'.At p x := (haway (fun e _ hpre ↦
    Nat.lt_irrefl _ (length_lt_of_snoc hpre)) x).mpr hx
  by_cases hq : ∀ e, hi e = hi d → ¬ p ++ [e] <+: q
  · rw [haway hq]
    refine (or_iff_left ?_).symm
    rintro ⟨e, he, rfl, -, -⟩
    exact hq e he List.prefix_rfl
  · push Not at hq
    obtain ⟨e, he, hpre⟩ := hq
    have hnot : ¬ t.At q y := by
      intro hy
      obtain ⟨r, rfl⟩ := hpre
      have hw := hy.2
      rw [walk_append, walk_snoc, hx.2, Option.bind_some, next, he, hnull] at hw
      cases hw
    have hchild : (t'.node x).children (hi e) = some a := by
      rw [hl.node_self, he]
      exact Function.update_self ..
    rw [or_iff_right hnot]
    constructor
    · intro hy
      have hlen := length_lt_of_snoc hpre
      have hlt := hy.1
      rw [hl.numLevels] at hlt
      have hfresh : t'.At (p ++ [e]) (.item a (lo e)) :=
        at_snoc.mpr ⟨x, a, hx', hchild, by rw [hl.numLevels]; omega, rfl⟩
      obtain rfl := at_below_zero hfresh (hl.node_fresh (by omega) _) hy hpre
      exact ⟨e, he, rfl, by omega, hy.unique hfresh⟩
    · rintro ⟨e', he', rfl, hlen, rfl⟩
      refine at_snoc.mpr ⟨x, a, hx', ?_, by rw [hl.numLevels]; omega, rfl⟩
      rw [he', ← he, hchild]

theorem children_cases (hl : Linked t t' live p x d a) (h : t.Sound live) (hx : t.At p x)
    (hnull : (t.node x).children (hi d) = none) {q : List (BitVec 8)} {y : NodePtr} {i : Fin 4}
    {b : ℕ} (hy : t'.At q y) (hb : (t'.node y).children i = some b) :
    (t.At q y ∧ (t.node y).children i = some b) ∨ (q = p ∧ y = x ∧ i = hi d ∧ b = a) := by
  rcases (hl.at_iff h hx hnull q y).mp hy with hy | ⟨e, -, -, hlen, rfl⟩
  · by_cases hyx : y = x ∧ i = hi d
    · obtain ⟨rfl, rfl⟩ := hyx
      rw [hl.node_self] at hb
      simp only [Function.update_self, Option.some.injEq] at hb
      exact .inr ⟨h.at_injective hy hx, rfl, rfl, hb.symm⟩
    · rw [hl.children_of_ne hy (not_and_or.mp hyx)] at hb
      exact .inl ⟨hy, hb⟩
  · rw [hl.node_fresh hlen] at hb
    cases hb

theorem child_kept (hl : Linked t t' live p x d a) (h : t.Sound live) (hx : t.At p x)
    (hnull : (t.node x).children (hi d) = none) {q : List (BitVec 8)} {y : NodePtr} {i : Fin 4}
    {b : ℕ} (hy : t.At q y) (hb : (t.node y).children i = some b) :
    t'.At q y ∧ (t'.node y).children i = some b := by
  refine ⟨(hl.at_iff h hx hnull q y).mpr (.inl hy), ?_⟩
  rw [hl.children_of_ne hy, hb]
  by_contra hne
  obtain ⟨rfl, rfl⟩ : y = x ∧ i = hi d := by tauto
  rw [hnull] at hb
  cases hb

theorem content_eq (hl : Linked t t' live p x d a) (h : t.Sound live) (hx : t.At p x)
    (hnull : (t.node x).children (hi d) = none) {q : List (BitVec 8)} (e : BitVec 8)
    (hq : q.length + 1 = t.numLevels) : t'.content q e = t.content q e := by
  refine content_congr hl.numLevels (by omega) fun v hv ↦ ?_
  constructor
  · rintro ⟨y, b, hy, hb, rfl⟩
    rcases hl.children_cases h hx hnull hy hb with ⟨hy, hb⟩ | ⟨rfl, rfl, -, rfl⟩
    · exact ⟨y, b, hy, hb, (hl.value_eq hy hb _).symm⟩
    · exact absurd (hl.value_fresh hq _) hv
  · rintro ⟨y, b, hy, hb, rfl⟩
    obtain ⟨hy', hb'⟩ := hl.child_kept h hx hnull hy hb
    exact ⟨y, b, hy', hb', hl.value_eq hy hb _⟩

theorem hasBit_iff (hl : Linked t t' live p x d a) (h : t.Sound live) (hx : t.At p x)
    (hnull : (t.node x).children (hi d) = none) (q : List (BitVec 8)) (e : BitVec 8) :
    t'.HasBit q e ↔ t.HasBit q e ∨ q = p ∧ e = d := by
  constructor
  · rintro ⟨y, hy, hbit⟩
    rcases (hl.at_iff h hx hnull q y).mp hy with hy | ⟨c, -, -, hlen, rfl⟩
    · by_cases hyx : y = x
      · subst hyx
        rw [hl.node_self, Mask.has_set] at hbit
        rcases hbit with rfl | hbit
        · exact .inr ⟨h.at_injective hy hx, rfl⟩
        · exact .inl ⟨y, hy, hbit⟩
      · rw [hl.node_of_ne hy hyx] at hbit
        exact .inl ⟨y, hy, hbit⟩
    · rw [hl.node_fresh hlen] at hbit
      exact absurd hbit (by simp)
  · have hat : ∀ {q y}, t.At q y → t'.At q y := fun {q y} hy ↦
      (hl.at_iff h hx hnull q y).mpr (.inl hy)
    rintro (⟨y, hy, hbit⟩ | ⟨rfl, rfl⟩)
    · refine ⟨y, hat hy, ?_⟩
      by_cases hyx : y = x
      · subst hyx
        rw [hl.node_self, Mask.has_set]
        exact .inr hbit
      · rwa [hl.node_of_ne hy hyx]
    · refine ⟨x, hat hx, ?_⟩
      rw [hl.node_self, Mask.has_set]
      exact .inl rfl

theorem sound (hl : Linked t t' live p x d a) (h : t.Sound live) (hx : t.At p x)
    (hnull : (t.node x).children (hi d) = none) (hpath : ∀ q e, q ++ [e] = p → t.HasBit q e) :
    t'.Sound (Function.update live (t.isLast p) (a :: live (t.isLast p))) := by
  have hx' : t'.At p x := (hl.at_iff h hx hnull p x).mpr (.inl hx)
  have hself : (t'.node x).children (hi d) = some a := by
    rw [hl.node_self]
    exact Function.update_self ..
  refine ⟨hl.pools, hl.numLevels ▸ h.levels_pos, hl.numLevels ▸ h.levels_le, ?_, ?_, ?_, ?_, ?_⟩
  · intro q y i b hy hb
    rw [hl.isLast_eq]
    rcases hl.children_cases h hx hnull hy hb with ⟨hy, hb⟩ | ⟨rfl, rfl, rfl, rfl⟩
    · exact mem_update_cons.mpr (.inl (h.owned hy hb))
    · exact mem_update_cons.mpr (.inr ⟨rfl, rfl⟩)
  · intro leaf b hb
    rcases mem_update_cons.mp hb with hb | ⟨rfl, rfl⟩
    · obtain ⟨q, y, i, hy, hlast, hb⟩ := h.reach hb
      obtain ⟨hy', hb'⟩ := hl.child_kept h hx hnull hy hb
      exact ⟨q, y, i, hy', hl.isLast_eq ▸ hlast, hb'⟩
    · exact ⟨p, x, hi d, hx', by rw [hl.isLast_eq], hself⟩
  · intro q r y z i j b hy hz hb hc
    rcases hl.children_cases h hx hnull hy hb with ⟨hy, hb⟩ | ⟨rfl, rfl, rfl, rfl⟩
    · rcases hl.children_cases h hx hnull hz hc with ⟨hz, hc⟩ | ⟨rfl, rfl, rfl, rfl⟩
      · exact h.unshared hy hz hb hc
      · exact absurd (h.owned hy hb) (hl.not_live _)
    · rcases hl.children_cases h hx hnull hz hc with ⟨hz, hc⟩ | ⟨rfl, rfl, rfl, -⟩
      · exact absurd (h.owned hz hc) (hl.not_live _)
      · exact ⟨rfl, rfl⟩
  · intro q y i hy
    rcases (hl.at_iff h hx hnull q y).mp hy with hy | ⟨e, -, -, hlen, rfl⟩
    · by_cases hyx : y = x
      · subst hyx
        rw [hl.node_self]
        dsimp only
        rw [Mask.word_set]
        by_cases hid : i = hi d
        · subst hid
          rw [Function.update_self]
          simp
        · rw [Function.update_of_ne hid, h.null_iff hy]
          exact (and_iff_right hid).symm
      · rw [hl.node_of_ne hy hyx]
        exact h.null_iff hy
    · rw [hl.node_fresh hlen]
      exact iff_of_true rfl rfl
  · intro q y e b hy hbit hb
    rw [hl.isLast_eq]
    rcases hl.children_cases h hx hnull hy hb with ⟨hy, hb⟩ | ⟨rfl, rfl, -, rfl⟩
    · have hbit' : (t.node y).bits.has e = false := by
        by_cases hyx : y = x
        · subst hyx
          rw [hl.node_self, ← Bool.not_eq_true, Mask.has_set, not_or] at hbit
          exact Bool.eq_false_of_not_eq_true hbit.2
        · rwa [hl.node_of_ne hy hyx] at hbit
      have hzero := h.clear hy hbit' hb
      refine hzero.mono (fun _ h0 ↦ by rw [hl.value_eq hy hb, h0]) fun hlast h0 ↦ ?_
      have hchild := hy.child hb hlast
      rw [hl.node_of_ne hchild, h0]
      -- `x` is marked as present, the zero child is not
      rintro rfl
      obtain ⟨z, hz, hzbit⟩ := hpath q e (h.at_injective hchild hx)
      rw [hz.unique hy, hbit'] at hzbit
      cases hzbit
    · exact hl.fresh _

end Linked

end WideRadixTree

end RadixBench.RadixNew
