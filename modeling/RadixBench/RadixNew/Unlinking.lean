import RadixBench.RadixNew.Linking

namespace RadixBench.RadixNew

open Foundation Memory Pool

namespace WideRadixTree

variable {t t' : WideRadixTree} {live : Bool → List ℕ}

theorem mem_update_erase {leaf leaf₀ : Bool} {b c : ℕ} (hnd : (live leaf₀).Nodup) :
    c ∈ Function.update live leaf₀ ((live leaf₀).erase b) leaf ↔
      c ∈ live leaf ∧ (leaf = leaf₀ → c ≠ b) := by
  by_cases hleaf : leaf = leaf₀
  · subst hleaf
    rw [Function.update_self, hnd.mem_erase_iff, and_comm, imp_iff_right rfl]
  · rw [Function.update_of_ne hleaf]
    exact (and_iff_left fun h ↦ absurd h hleaf).symm

/-- `t'` is `t` with the block `b` of the byte `d` taken from the node `x` and given
back, every slot of it being zero and the bit of `d` the last one of its word. -/
structure Unlinked (t t' : WideRadixTree) (live : Bool → List ℕ) (p : List (BitVec 8))
    (x : NodePtr) (d : BitVec 8) (b : ℕ) : Prop where
  numLevels : t'.numLevels = t.numLevels
  pools : t'.PoolsSound (Function.update live (t.isLast p) ((live (t.isLast p)).erase b))
  child : (t.node x).children (hi d) = some b
  zero : ∀ c, t.SlotZero (t.isLast p) b c
  last : ∀ e, hi e = hi d → (t.node x).bits.has e = true → e = d
  node_self : t'.node x =
    ⟨(t.node x).bits.clear d, Function.update (t.node x).children (hi d) none⟩
  node_of_ne : ∀ {y}, y ≠ x → t'.node y = t.node y
  value_eq : ∀ a c, t'.value a c = t.value a c

namespace Unlinked

variable {p : List (BitVec 8)} {x : NodePtr} {d : BitVec 8} {b : ℕ}

theorem isLast_eq (hu : Unlinked t t' live p x d b) : t'.isLast = t.isLast := by
  funext q
  rw [isLast, isLast, hu.numLevels]

theorem children_of_ne (hu : Unlinked t t' live p x d b) {y : NodePtr} {i : Fin 4}
    (hne : y ≠ x ∨ i ≠ hi d) : (t'.node y).children i = (t.node y).children i := by
  by_cases hyx : y = x
  · subst hyx
    rw [hu.node_self]
    exact Function.update_of_ne (hne.resolve_left fun h ↦ h rfl) _ _
  · rw [hu.node_of_ne hyx]

/-- The nodes in the block are zero, so the tree ends there. -/
theorem node_below (hu : Unlinked t t' live p x d b) (hx : t.At p x) {e : BitVec 8}
    (he : hi e = hi d) {q : List (BitVec 8)} {y : NodePtr} (hy : t.At q y)
    (hpre : p ++ [e] <+: q) : t.node y = 0 := by
  have hlen := length_lt_of_snoc hpre
  have hlt := hy.1
  have hb : t.At (p ++ [e]) (.item b (lo e)) :=
    at_snoc.mpr ⟨x, b, hx, he ▸ hu.child, by omega, rfl⟩
  have hzero := (slotZero_inner (by omega)).mp (hu.zero (lo e))
  obtain rfl := at_below_zero hb hzero hy hpre
  rw [hy.unique hb, hzero]

theorem at_iff (hu : Unlinked t t' live p x d b) (h : t.Sound live) (hx : t.At p x)
    (q : List (BitVec 8)) (y : NodePtr) :
    t'.At q y ↔ t.At q y ∧ ∀ e, hi e = hi d → ¬ p ++ [e] <+: q := by
  have haway : ∀ {q}, (∀ e, hi e = hi d → ¬ p ++ [e] <+: q) → ∀ y, t'.At q y ↔ t.At q y :=
    at_away hu.numLevels (fun r hr ↦ h.at_injective hr hx) fun _ _ _ _ hne ↦
      hu.children_of_ne hne
  have hx' : t'.At p x := (haway (fun e _ hpre ↦
    Nat.lt_irrefl _ (length_lt_of_snoc hpre)) x).mpr hx
  by_cases hq : ∀ e, hi e = hi d → ¬ p ++ [e] <+: q
  · rw [haway hq]
    exact (and_iff_left hq).symm
  · refine iff_of_false ?_ fun hy ↦ hq hy.2
    intro hy
    push Not at hq
    obtain ⟨e, he, r, rfl⟩ := hq
    have hw := hy.2
    rw [walk_append, walk_snoc, hx'.2, Option.bind_some, next, hu.node_self, he] at hw
    simp only [Function.update_self] at hw
    cases hw

theorem children_old (hu : Unlinked t t' live p x d b) (h : t.Sound live) (hx : t.At p x)
    {q : List (BitVec 8)} {y : NodePtr} {i : Fin 4} {c : ℕ} (hy : t'.At q y)
    (hc : (t'.node y).children i = some c) :
    t.At q y ∧ (t.node y).children i = some c ∧ (y ≠ x ∨ i ≠ hi d) ∧ c ≠ b := by
  have hy' := ((hu.at_iff h hx q y).mp hy).1
  have hne : y ≠ x ∨ i ≠ hi d := by
    by_contra hcon
    obtain ⟨rfl, rfl⟩ : y = x ∧ i = hi d := by tauto
    rw [hu.node_self] at hc
    simp only [Function.update_self] at hc
    cases hc
  rw [hu.children_of_ne hne] at hc
  refine ⟨hy', hc, hne, ?_⟩
  rintro rfl
  obtain ⟨rfl, rfl⟩ := h.unshared hy' hx hc hu.child
  exact hne.elim (fun hyx ↦ hyx (hy'.unique hx)) fun hi ↦ hi rfl

theorem child_kept (hu : Unlinked t t' live p x d b) (h : t.Sound live) (hx : t.At p x)
    {q : List (BitVec 8)} {y : NodePtr} {i : Fin 4} {c : ℕ} (hy : t.At q y)
    (hc : (t.node y).children i = some c) (hcb : q = p → c ≠ b) :
    t'.At q y ∧ (t'.node y).children i = some c := by
  have hne : y ≠ x ∨ i ≠ hi d := by
    by_contra hcon
    obtain ⟨rfl, rfl⟩ : y = x ∧ i = hi d := by tauto
    rw [hu.child] at hc
    exact hcb (h.at_injective hy hx) (Option.some.inj hc).symm
  refine ⟨(hu.at_iff h hx q y).mpr ⟨hy, fun f hf hpre ↦ ?_⟩, by rw [hu.children_of_ne hne, hc]⟩
  rw [hu.node_below hx hf hy hpre] at hc
  cases hc

theorem content_eq (hu : Unlinked t t' live p x d b) (h : t.Sound live) (hx : t.At p x)
    {q : List (BitVec 8)} (e : BitVec 8) (hq : q.length + 1 = t.numLevels) :
    t'.content q e = t.content q e := by
  refine content_congr hu.numLevels (by omega) fun v hv ↦ ?_
  constructor
  · rintro ⟨y, c, hy, hc, rfl⟩
    obtain ⟨hy, hc, -, -⟩ := hu.children_old h hx hy hc
    exact ⟨y, c, hy, hc, (hu.value_eq c _).symm⟩
  · rintro ⟨y, c, hy, hc, rfl⟩
    obtain ⟨hy', hc'⟩ := hu.child_kept h hx hy hc <| by
      rintro rfl rfl
      exact hv ((slotZero_last hq).mp (hu.zero (lo e)))
    exact ⟨y, c, hy', hc', hu.value_eq c _⟩

theorem hasBit_iff (hu : Unlinked t t' live p x d b) (h : t.Sound live) (hx : t.At p x)
    (q : List (BitVec 8)) (e : BitVec 8) :
    t'.HasBit q e ↔ t.HasBit q e ∧ ¬ (q = p ∧ e = d) := by
  constructor
  · rintro ⟨y, hy, hbit⟩
    have hy' := ((hu.at_iff h hx q y).mp hy).1
    by_cases hyx : y = x
    · subst hyx
      rw [hu.node_self, Mask.has_clear] at hbit
      exact ⟨⟨y, hy', hbit.2⟩, fun hqd ↦ hbit.1 hqd.2⟩
    · rw [hu.node_of_ne hyx] at hbit
      refine ⟨⟨y, hy', hbit⟩, ?_⟩
      rintro ⟨rfl, -⟩
      exact hyx (hy'.unique hx)
  · rintro ⟨⟨y, hy, hbit⟩, hne⟩
    have hy' : t'.At q y := by
      refine (hu.at_iff h hx q y).mpr ⟨hy, fun f hf hpre ↦ ?_⟩
      rw [hu.node_below hx hf hy hpre] at hbit
      exact absurd hbit (by simp)
    refine ⟨y, hy', ?_⟩
    by_cases hyx : y = x
    · subst hyx
      rw [hu.node_self, Mask.has_clear]
      exact ⟨fun hed ↦ hne ⟨h.at_injective hy hx, hed⟩, hbit⟩
    · rwa [hu.node_of_ne hyx]

theorem sound (hu : Unlinked t t' live p x d b) (h : t.Sound live) (hx : t.At p x) :
    t'.Sound (Function.update live (t.isLast p) ((live (t.isLast p)).erase b)) := by
  have hnd := (h.pools (t.isLast p)).live_nodup
  refine ⟨hu.pools, hu.numLevels ▸ h.levels_pos, hu.numLevels ▸ h.levels_le, ?_, ?_, ?_, ?_, ?_⟩
  · intro q y i c hy hc
    obtain ⟨hy', hc', -, hcb⟩ := hu.children_old h hx hy hc
    rw [hu.isLast_eq]
    exact (mem_update_erase hnd).mpr ⟨h.owned hy' hc', fun _ ↦ hcb⟩
  · intro leaf c hc
    have hold := (mem_update_erase hnd).mp hc
    obtain ⟨q, y, i, hy, hl, hyc⟩ := h.reach hold.1
    obtain ⟨hy', hyc'⟩ := hu.child_kept h hx hy hyc fun hq ↦ hold.2 (hl ▸ congrArg t.isLast hq)
    exact ⟨q, y, i, hy', hu.isLast_eq ▸ hl, hyc'⟩
  · intro q r y z i j c hy hz hb hc
    obtain ⟨hy', hb', -, -⟩ := hu.children_old h hx hy hb
    obtain ⟨hz', hc', -, -⟩ := hu.children_old h hx hz hc
    exact h.unshared hy' hz' hb' hc'
  · intro q y i hy
    have hy' := ((hu.at_iff h hx q y).mp hy).1
    by_cases hyx : y = x
    · subst hyx
      rw [hu.node_self]
      dsimp only
      by_cases hid : i = hi d
      · subst hid
        rw [Function.update_self]
        refine iff_of_true rfl ?_
        rw [Mask.word_eq_zero]
        intro e he
        rw [← Bool.not_eq_true, Mask.has_clear]
        rintro ⟨hed, hbit⟩
        exact hed (hu.last e he hbit)
      · rw [Function.update_of_ne hid, h.null_iff hy', Mask.clear, Function.update_of_ne hid]
    · rw [hu.node_of_ne hyx]
      exact h.null_iff hy'
  · intro q y e c hy hbit hc
    obtain ⟨hy', hc', hne, -⟩ := hu.children_old h hx hy hc
    have hbit' : (t.node y).bits.has e = false := by
      by_cases hyx : y = x
      · subst hyx
        rw [hu.node_self, ← Bool.not_eq_true, Mask.has_clear, not_and_or, not_not] at hbit
        rcases hbit with rfl | hbit
        · exact absurd rfl (hne.resolve_left fun hyy ↦ hyy rfl)
        · exact Bool.eq_false_of_not_eq_true hbit
      · rwa [hu.node_of_ne hyx] at hbit
    have hzero := h.clear hy' hbit' hc'
    rw [hu.isLast_eq]
    refine hzero.mono (fun _ h0 ↦ by rw [hu.value_eq, h0]) fun _ h0 ↦ ?_
    rw [hu.node_of_ne, h0]
    -- the zero slot is not `x`, which has a block
    rintro rfl
    have hchild := hu.child
    rw [h0] at hchild
    cases hchild

end Unlinked

end WideRadixTree

end RadixBench.RadixNew
