import RadixBench.RadixNew.Invariant

namespace RadixBench.RadixNew

open Foundation Memory Pool

namespace WideRadixTree

variable {t t' : WideRadixTree} {live : Bool → List ℕ}

/-- The value stored under the bytes `p ++ [d]`, read without looking at the
presence bits; zero where the path is not there. -/
def content (t : WideRadixTree) (p : List (BitVec 8)) (d : BitVec 8) : BitVec 64 :=
  match walk t.next .root p with
  | none => 0#64
  | some x =>
    match (t.node x).children (hi d) with
    | none => 0#64
    | some b => t.value b (lo d)

theorem content_of_at {p : List (BitVec 8)} {d : BitVec 8} {x : NodePtr} {b : ℕ} (hx : t.At p x)
    (hb : (t.node x).children (hi d) = some b) : t.content p d = t.value b (lo d) := by
  simp only [content, hx.2, hb]

theorem content_of_null {p : List (BitVec 8)} {d : BitVec 8} {x : NodePtr} (hx : t.At p x)
    (hb : (t.node x).children (hi d) = none) : t.content p d = 0#64 := by
  simp only [content, hx.2, hb]

def HasValue (t : WideRadixTree) (p : List (BitVec 8)) (d : BitVec 8) (v : BitVec 64) : Prop :=
  ∃ x b, t.At p x ∧ (t.node x).children (hi d) = some b ∧ t.value b (lo d) = v

theorem content_eq_iff {p : List (BitVec 8)} {d : BitVec 8} (hp : p.length < t.numLevels)
    {v : BitVec 64} (hv : v ≠ 0#64) : t.content p d = v ↔ t.HasValue p d v := by
  constructor
  · intro h
    cases hw : walk t.next .root p with
    | none =>
      rw [content, hw] at h
      exact absurd h.symm hv
    | some x =>
      have hx : t.At p x := ⟨hp, hw⟩
      cases hb : (t.node x).children (hi d) with
      | none => exact absurd (h.symm.trans (content_of_null hx hb)) hv
      | some b => exact ⟨x, b, hx, hb, (content_of_at hx hb).symm.trans h⟩
  · rintro ⟨x, b, hx, hb, rfl⟩
    exact content_of_at hx hb

theorem content_congr {p : List (BitVec 8)} {d : BitVec 8} (hn : t'.numLevels = t.numLevels)
    (hp : p.length < t.numLevels)
    (h : ∀ v, v ≠ 0#64 → (t'.HasValue p d v ↔ t.HasValue p d v)) :
    t'.content p d = t.content p d := by
  have hp' : p.length < t'.numLevels := by rwa [hn]
  by_cases hzero : t.content p d = 0#64
  · rw [hzero]
    by_contra hne
    have hval := (h _ hne).mp ((content_eq_iff hp' hne).mp rfl)
    exact hne (((content_eq_iff hp hne).mpr hval).symm.trans hzero)
  · exact (content_eq_iff hp' hzero).mpr ((h _ hzero).mpr ((content_eq_iff hp hzero).mp rfl))

def HasBit (t : WideRadixTree) (p : List (BitVec 8)) (d : BitVec 8) : Prop :=
  ∃ x, t.At p x ∧ (t.node x).bits.has d = true

theorem At.hasBit {p : List (BitVec 8)} {x : NodePtr} (hx : t.At p x) (d : BitVec 8) :
    t.HasBit p d ↔ (t.node x).bits.has d = true :=
  ⟨fun ⟨_, hy, h⟩ ↦ hx.unique hy ▸ h, fun h ↦ ⟨x, hx, h⟩⟩

theorem at_below_zero {p q : List (BitVec 8)} {x y : NodePtr} (hx : t.At p x)
    (hzero : t.node x = 0) (hq : t.At q y) (hpq : p <+: q) : q = p := by
  obtain ⟨r, rfl⟩ := hpq
  cases r with
  | nil => exact List.append_nil p
  | cons d r =>
    have hw := hq.2
    rw [walk_append, hx.2, Option.bind_some, walk, next, hzero] at hw
    cases hw

namespace Sound

theorem setBits_content (h : t.Sound live) {p : List (BitVec 8)} {x : NodePtr} (hx : t.At p x)
    (m : Mask) :
    let t' := t.setNode x { t.node x with bits := m }
    (∀ q e, t'.content q e = t.content q e) ∧
      (∀ q e, t'.HasBit q e ↔ if q = p then m.has e = true else t.HasBit q e) ∧
      ∀ r y, t'.At r y ↔ t.At r y := by
  intro t'
  have hchild : ∀ y, (t'.node y).children = (t.node y).children := by
    intro y
    by_cases hy : y = x
    · rw [hy, node_setNode_self]
    · rw [node_setNode_of_ne _ hy]
  have hat := at_congr t t' (numLevels_setNode _ _) fun _ y _ ↦ hchild y
  refine ⟨fun q e ↦ ?_, fun q e ↦ ?_, hat⟩
  · have hwalk : walk t'.next .root q = walk t.next .root q := by
      refine walk_congr fun r d _ y _ ↦ ?_
      rw [next, next, hchild]
    simp only [content, hwalk, hchild, t', value_setNode]
  · split_ifs with hqp
    · subst hqp
      rw [((hat q x).mpr hx).hasBit, node_setNode_self]
    · have hne : ∀ y, t.At q y → y ≠ x := by
        rintro y hy rfl
        exact hqp (h.at_injective hy hx)
      constructor
      · rintro ⟨y, hy, hbit⟩
        have hy := (hat q y).mp hy
        rw [node_setNode_of_ne _ (hne y hy)] at hbit
        exact ⟨y, hy, hbit⟩
      · rintro ⟨y, hy, hbit⟩
        refine ⟨y, (hat q y).mpr hy, ?_⟩
        rwa [node_setNode_of_ne _ (hne y hy)]

theorem setValue (h : t.Sound live) {p : List (BitVec 8)} {x : NodePtr} (hx : t.At p x)
    {d : BitVec 8} {b : ℕ} (hb : (t.node x).children (hi d) = some b) (hlast : t.isLast p = true)
    {v : BitVec 64} (hv : v = 0#64 ∨ (t.node x).bits.has d = true) :
    (t.setValue b (lo d) v).Sound live := by
  have hat := at_congr t (t.setValue b (lo d) v) rfl fun _ y _ ↦ by
    rw [node_setValue]
  refine ⟨⟨fun leaf ↦ (h.pools leaf).of_subset fun _ hr ↦ hr, h.apart, fun leaf c hc a ha ↦ ?_⟩,
    h.levels_pos, h.levels_le, ?_, ?_, ?_, ?_, ?_⟩
  · have hlive := h.owned hx hb
    have hne : a ≠ b := by
      rintro rfl
      exact h.not_free hlive hc ha
    rw [WideRadixTree.setValue, write_cell_of_ne _ _ hne]
    exact h.blank leaf c hc a ha
  · intro q y i c hq hc
    rw [node_setValue] at hc
    exact h.owned ((hat q y).mp hq) hc
  · intro leaf c hc
    obtain ⟨q, y, i, hq, hl, hy⟩ := h.reach hc
    exact ⟨q, y, i, (hat q y).mpr hq, hl, by rwa [node_setValue]⟩
  · intro q r y z i j c hq hr hy hz
    rw [node_setValue] at hy hz
    exact h.unshared ((hat q y).mp hq) ((hat r z).mp hr) hy hz
  · intro q y i hq
    rw [node_setValue]
    exact h.null_iff ((hat q y).mp hq)
  · intro q y e c hq hbit hc
    rw [node_setValue] at hbit hc
    have hq' := (hat q y).mp hq
    have hzero := h.clear hq' hbit hc
    change (t.setValue b (lo d) v).SlotZero (t.isLast q) c (lo e)
    refine hzero.mono (fun _ h0 ↦ ?_) fun _ h0 ↦ by rw [node_setValue, h0]
    by_cases hce : c = b ∧ lo e = lo d
    · obtain ⟨rfl, hlo⟩ := hce
      obtain ⟨rfl, hhi⟩ := h.unshared hq' hx hc hb
      obtain rfl := byte_ext hhi hlo
      obtain rfl := hq'.unique hx
      rw [value_setValue_self]
      refine hv.resolve_right fun htrue ↦ ?_
      rw [hbit] at htrue
      cases htrue
    · rw [value_setValue_of_ne _ (not_and_or.mp hce), h0]

theorem setValue_content (h : t.Sound live) {p : List (BitVec 8)} {x : NodePtr} (hx : t.At p x)
    {d : BitVec 8} {b : ℕ} (hb : (t.node x).children (hi d) = some b) (v : BitVec 64)
    {q : List (BitVec 8)} (e : BitVec 8) (hq : q.length < t.numLevels) :
    (t.setValue b (lo d) v).content q e = if q = p ∧ e = d then v else t.content q e := by
  have hwalk : walk (t.setValue b (lo d) v).next .root q = walk t.next .root q := by
    refine walk_congr fun r d _ y _ ↦ ?_
    rw [next, next, node_setValue]
  split_ifs with hqe
  · obtain ⟨rfl, rfl⟩ := hqe
    simp only [content, hwalk, hx.2, node_setValue, hb, value_setValue_self]
  · simp only [content, hwalk, node_setValue]
    cases hy : walk t.next .root q with
    | none => rfl
    | some y =>
      cases hc : (t.node y).children (hi e) with
      | none => simp only [hc]
      | some c =>
        simp only [hc]
        refine value_setValue_of_ne _ ?_
        by_contra hne
        obtain ⟨rfl, hlo⟩ := not_or.mp hne |>.imp not_not.mp not_not.mp
        obtain ⟨rfl, hhi⟩ := h.unshared ⟨hq, hy⟩ hx hc hb
        exact hqe ⟨rfl, byte_ext hhi hlo⟩

end Sound

theorem hasBit_setValue {b : ℕ} {c : Fin 64} {v : BitVec 64} (q : List (BitVec 8)) (e : BitVec 8) :
    (t.setValue b c v).HasBit q e ↔ t.HasBit q e := by
  have hat := at_congr t (t.setValue b c v) rfl fun _ y _ ↦ by rw [node_setValue]
  simp only [HasBit, hat, node_setValue]

end WideRadixTree

end RadixBench.RadixNew
