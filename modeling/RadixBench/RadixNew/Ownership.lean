import RadixBench.RadixNew.QueryRuns

namespace RadixBench.RadixNew

open Foundation Memory Pool

namespace WideRadixTree

variable {t t' : WideRadixTree} {live : Bool → List ℕ}

/-- A presence bit of an inner node below the root leads to a node that has some bit. -/
def Filled (t : WideRadixTree) : Prop :=
  ∀ r e, t.HasBit r e → r ≠ [] → r.length + 1 < t.numLevels → ∃ f, t.HasBit (r ++ [e]) f

theorem Inserted.filled {q : List (BitVec 8)} {d : BitVec 8} {v : BitVec 64}
    (hi : Inserted t t' q d v) (hq : q.length + 1 = t.numLevels) (hfill : t.Filled) :
    t'.Filled := by
  intro r e hbit hr hlen
  rw [hi.numLevels] at hlen
  rcases (hi.hasBit r e).mp hbit with hbit | hpre
  · obtain ⟨f, hf⟩ := hfill r e hbit hr hlen
    exact ⟨f, (hi.hasBit _ f).mpr (.inl hf)⟩
  · obtain ⟨f, hf⟩ := exists_digit hpre (by simp; omega)
    exact ⟨f, (hi.hasBit _ f).mpr (.inr hf)⟩

theorem Removed.filled {q : List (BitVec 8)} {d : BitVec 8} (hrem : Removed t t' q d)
    (h' : t'.Sound live) (hfill : t.Filled) : t'.Filled := by
  intro r e hbit hr hlen
  rw [hrem.numLevels] at hlen
  by_cases hpre : r ++ [e] <+: q ++ [d]
  · obtain ⟨r', e', hle, hbit', -⟩ := hrem.supported hbit hr hpre
    rcases Nat.lt_or_eq_of_le hle.length_le with hlt | heq
    · obtain ⟨f, hf⟩ := exists_digit hle hlt
      exact ⟨f, hbit'.above h' hf⟩
    · exact ⟨e', (hle.eq_of_length heq).symm ▸ hbit'⟩
  · obtain ⟨f, hf⟩ := hfill r e (hrem.of_hasBit hbit) hr hlen
    exact ⟨f, hrem.hasBit_of hf (.inr fun hle ↦ hpre ((List.prefix_append _ _).trans hle))⟩

/-- `children[i]` of the node `x`, which the bytes `p` lead to, is the only pointer to `b`. -/
structure SoleReference (t : WideRadixTree) (b : ℕ) (p : List (BitVec 8)) (x : NodePtr)
    (i : Fin 4) : Prop where
  at_node : t.At p x
  child : (t.node x).children i = some b
  sole : ∀ {q y j}, t.At q y → (t.node y).children j = some b → q = p ∧ y = x ∧ j = i

/-- Every object of the pools is free and zero, or it is handed out and has one owner, and
the presence bits tell what there is. -/
structure Hygienic (t : WideRadixTree) : Prop where
  objects : ∀ leaf, ∀ c ∈ (t.pool leaf).pools, ∀ b ∈ c.objects,
    b ∈ c.free ∧ Blank leaf (t.memory.cell b) ∨
      b ∉ c.free ∧ ∃ p x i, t.SoleReference b p x i ∧ t.isLast p = leaf
  references : ∀ {p x i b}, t.At p x → (t.node x).children i = some b →
    ∃ c ∈ (t.pool (t.isLast p)).pools, b ∈ c.objects ∧ b ∉ c.free
  null_iff : ∀ {p x i}, t.At p x → ((t.node x).children i ≠ none ↔ (t.node x).bits i ≠ 0#64)
  clear : ∀ {p x d b}, t.At p x → (t.node x).bits.has d = false →
    (t.node x).children (hi d) = some b → t.SlotZero (t.isLast p) b (lo d)
  filled : ∀ {p x d}, t.At p x → p ≠ [] → t.isLast p = false → (t.node x).bits.has d = true →
    ∃ b, (t.node x).children (hi d) = some b ∧ ∃ e, (t.node (.item b (lo d))).bits.has e = true

theorem Sound.hygienic (h : t.Sound live) (hfill : t.Filled) : t.Hygienic := by
  refine ⟨fun leaf c hc b hb ↦ ?_, fun {p x i b} hx hb ↦ ?_, fun hx ↦ not_congr (h.null_iff hx),
    h.clear, fun {p x d} hx hp hlast hbit ↦ ?_⟩
  · by_cases hfree : b ∈ c.free
    · exact .inl ⟨hfree, h.blank leaf c hc b hfree⟩
    · obtain ⟨p, x, i, hx, hlast, hchild⟩ :=
        h.reach (((h.pools leaf).live_iff b).mpr ⟨c, hc, hb, hfree⟩)
      refine .inr ⟨hfree, p, x, i, ⟨hx, hchild, fun {q y j} hy hj ↦ ?_⟩, hlast⟩
      obtain ⟨rfl, rfl⟩ := h.unshared hy hx hj hchild
      exact ⟨rfl, hy.unique hx, rfl⟩
  · exact ((h.pools _).live_iff b).mp (h.owned hx hb)
  · have hlen : p.length + 1 < t.numLevels := by
      have hlt := hx.1
      have hne : ¬ p.length + 1 = t.numLevels := of_decide_eq_false hlast
      omega
    obtain ⟨f, hf⟩ := hfill p d ⟨x, hx, hbit⟩ hp hlen
    obtain ⟨z, hz, hzf⟩ := hf
    obtain ⟨y, b, hy, hb, -, rfl⟩ := at_snoc.mp hz
    rw [hy.unique hx] at hb
    exact ⟨b, hb, f, hzf⟩

end WideRadixTree

open WideRadixTree

def ServedLegal (A : Allocator) (s : MapState) : MapOp → Prop
  | .insert key value => s.tree.InRange key ∧
      (treeInsertOrReturnExisting A s.tree key value).2.2.memory.failures = s.tree.memory.failures
  | .remove key => s.tree.InRange key

abbrev ServedReachable (A : Allocator) (log2Max log2Align : BitVec 8) :=
  Reachable (MapInitial A log2Max log2Align) (ServedLegal A) (mapStep A)

theorem mapStep_filled (A : Allocator) {s : MapState} (h : ∃ live, s.tree.Sound live)
    (hfill : s.tree.Filled) (op : MapOp) (hl : ServedLegal A s op) :
    ∃ s', mapStep A s op = .ok s' ∧ (∃ live, s'.tree.Sound live) ∧ s'.tree.Filled := by
  obtain ⟨live, hs⟩ := h
  cases op with
  | insert key value =>
    obtain ⟨-, hfail⟩ := hl
    obtain ⟨t', -, heq, -, -, hlt⟩ | ⟨q, d, t', live', hq, heq, hs', hins⟩ :=
      hs.insert_cases A key value
    · rw [heq] at hfail
      exact absurd hfail hlt.ne'
    · exact ⟨_, by simp only [mapStep, heq]; rfl, ⟨live', hs'⟩,
        hins.filled (digits_eq_concat hq).2.2 hfill⟩
  | remove key =>
    obtain ⟨q, d, live', -, -, hs', hrem⟩ := treeRemove_removed hs key
    exact ⟨_, rfl, ⟨live', hs'⟩, hrem.filled hs' hfill⟩

/-- Over every run whose allocations succeed, no block is lost, shared or given back dirty. -/
theorem wideRadixTree_hygienic (A : Allocator) {log2Max log2Align : BitVec 8}
    (hlt : log2Align.toNat < log2Max.toNat) (hle : log2Max.toNat ≤ log2Align.toNat + 64)
    {s : MapState} (h : ServedReachable A log2Max log2Align s) : s.tree.Hygienic := by
  have hinv := Reachable.invariant_of_returns
    (I := fun s ↦ (∃ live, s.tree.Sound live) ∧ s.tree.Filled) (fun s hinit ↦ ?_)
    (fun s op hs hl ↦ mapStep_filled A hs.1 hs.2 op hl) h
  · obtain ⟨⟨live, hs⟩, hfill⟩ := hinv
    exact hs.hygienic hfill
  · obtain ⟨⟨m, ht⟩, -⟩ := hinit
    obtain ⟨hs, hzero⟩ := treeInit_sound A m hlt hle
    rw [ht]
    exact ⟨⟨_, hs⟩, fun r e hbit ↦ absurd hbit (hzero r e).2⟩

theorem emptied_served : ServedReachable bumpAllocator 16 0 emptied := by
  refine emptied_reachable.mono fun s op hl ↦ ?_
  cases op with
  | insert key value => exact ⟨hl.1, hl.2.2⟩
  | remove key => exact hl

theorem wideRadixTree_hygienic_emptied : emptied.tree.Hygienic :=
  wideRadixTree_hygienic bumpAllocator (by decide) (by decide) emptied_served

end RadixBench.RadixNew
