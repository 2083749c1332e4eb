import RadixBench.RadixNew.Model
import RadixBench.Pool.Operations
import RadixBench.Foundation.Walk

namespace RadixBench.RadixNew

open Foundation Memory Pool

namespace WideRadixTree

variable {t t' : WideRadixTree}

@[simp] theorem node_setNode_self (x : NodePtr) (n : WideRadixNode) : (t.setNode x n).node x = n := by
  cases x with
  | root => rfl
  | item b i => simp [setNode, node]

theorem node_setNode_of_ne {x y : NodePtr} (n : WideRadixNode) (h : y ≠ x) :
    (t.setNode x n).node y = t.node y := by
  cases x with
  | root =>
    cases y with
    | root => exact absurd rfl h
    | item b i => rfl
  | item b i =>
    cases y with
    | root => rfl
    | item c j =>
      by_cases hbc : c = b
      · subst hbc
        have hij : j ≠ i := fun hij ↦ h (by rw [hij])
        simp [setNode, node, hij]
      · simp [setNode, node, write_cell_of_ne _ _ hbc]

@[simp] theorem value_setNode (x : NodePtr) (n : WideRadixNode) (b : ℕ) (c : Fin 64) :
    (t.setNode x n).value b c = t.value b c := by
  cases x with
  | root => rfl
  | item a i =>
    by_cases hba : b = a
    · subst hba; simp [setNode, value]
    · simp [setNode, value, write_cell_of_ne _ _ hba]

@[simp] theorem numLevels_setNode (x : NodePtr) (n : WideRadixNode) :
    (t.setNode x n).numLevels = t.numLevels := by cases x <;> rfl

@[simp] theorem pool_setNode (x : NodePtr) (n : WideRadixNode) (leaf : Bool) :
    (t.setNode x n).pool leaf = t.pool leaf := by cases x <;> rfl

@[simp] theorem live_setNode (x : NodePtr) (n : WideRadixNode) :
    (t.setNode x n).memory.live = t.memory.live := by cases x <;> rfl

@[simp] theorem failures_setNode (x : NodePtr) (n : WideRadixNode) :
    (t.setNode x n).memory.failures = t.memory.failures := by cases x <;> rfl

theorem cell_setNode_of_ne {x : NodePtr} {b : ℕ} (n : WideRadixNode) (h : ∀ i, x ≠ .item b i) :
    (t.setNode x n).memory.cell b = t.memory.cell b := by
  cases x with
  | root => rfl
  | item a i =>
    exact write_cell_of_ne _ _ fun hba ↦ h i (by rw [hba])

@[simp] theorem node_setValue (b : ℕ) (c : Fin 64) (v : BitVec 64) (x : NodePtr) :
    (t.setValue b c v).node x = t.node x := by
  cases x with
  | root => rfl
  | item a i =>
    by_cases hab : a = b
    · subst hab; simp [setValue, node]
    · simp [setValue, node, write_cell_of_ne _ _ hab]

@[simp] theorem value_setValue_self (b : ℕ) (c : Fin 64) (v : BitVec 64) :
    (t.setValue b c v).value b c = v := by simp [setValue, value]

theorem value_setValue_of_ne {b b' : ℕ} {c c' : Fin 64} (v : BitVec 64) (h : b' ≠ b ∨ c' ≠ c) :
    (t.setValue b c v).value b' c' = t.value b' c' := by
  by_cases hb : b' = b
  · subst hb
    have hc : c' ≠ c := h.resolve_left fun hne ↦ hne rfl
    simp [setValue, value, hc]
  · simp [setValue, value, write_cell_of_ne _ _ hb]

@[simp] theorem node_setPool (leaf : Bool) (pool : ObjectPool) (x : NodePtr) :
    (t.setPool leaf pool).node x = t.node x := by cases leaf <;> cases x <;> rfl

@[simp] theorem value_setPool (leaf : Bool) (pool : ObjectPool) (b : ℕ) (c : Fin 64) :
    (t.setPool leaf pool).value b c = t.value b c := by cases leaf <;> rfl

@[simp] theorem memory_setPool (leaf : Bool) (pool : ObjectPool) :
    (t.setPool leaf pool).memory = t.memory := by cases leaf <;> rfl

@[simp] theorem numLevels_setPool (leaf : Bool) (pool : ObjectPool) :
    (t.setPool leaf pool).numLevels = t.numLevels := by cases leaf <;> rfl

@[simp] theorem pool_setPool_self (leaf : Bool) (pool : ObjectPool) :
    (t.setPool leaf pool).pool leaf = pool := by cases leaf <;> rfl

theorem pool_setPool_of_ne {leaf leaf' : Bool} (pool : ObjectPool) (h : leaf' ≠ leaf) :
    (t.setPool leaf pool).pool leaf' = t.pool leaf' := by
  cases leaf <;> cases leaf' <;> first | rfl | exact absurd rfl h

def next (t : WideRadixTree) (x : NodePtr) (d : BitVec 8) : Option NodePtr :=
  ((t.node x).children (hi d)).map fun b ↦ .item b (lo d)

def At (t : WideRadixTree) (p : List (BitVec 8)) (x : NodePtr) : Prop :=
  p.length < t.numLevels ∧ walk t.next .root p = some x

def isLast (t : WideRadixTree) (p : List (BitVec 8)) : Bool := p.length + 1 = t.numLevels

/-- The object behind a slot of a block: a value at the last level, a node elsewhere. -/
def SlotZero (t : WideRadixTree) (leaf : Bool) (b : ℕ) (c : Fin 64) : Prop :=
  if leaf then t.value b c = 0#64 else t.node (.item b c) = 0

theorem isLast_iff {p : List (BitVec 8)} : t.isLast p = true ↔ p.length + 1 = t.numLevels :=
  decide_eq_true_iff

theorem slotZero_last {p : List (BitVec 8)} {b : ℕ} {c : Fin 64}
    (hp : p.length + 1 = t.numLevels) : t'.SlotZero (t.isLast p) b c ↔ t'.value b c = 0#64 := by
  rw [SlotZero, isLast_iff.mpr hp, if_pos rfl]

theorem slotZero_inner {p : List (BitVec 8)} {b : ℕ} {c : Fin 64}
    (hp : p.length + 1 < t.numLevels) :
    t'.SlotZero (t.isLast p) b c ↔ t'.node (.item b c) = 0 := by
  rw [SlotZero, isLast, decide_eq_false hp.ne, if_neg Bool.false_ne_true]

theorem SlotZero.mono {leaf : Bool} {b : ℕ} {c : Fin 64} (h : t.SlotZero leaf b c)
    (hvalue : leaf = true → t.value b c = 0#64 → t'.value b c = 0#64)
    (hnode : leaf = false → t.node (.item b c) = 0 → t'.node (.item b c) = 0) :
    t'.SlotZero leaf b c := by
  cases leaf with
  | true => exact hvalue rfl h
  | false => exact hnode rfl h

def Blank (leaf : Bool) (b : Block) : Prop :=
  ∀ c, if leaf then b.value c = 0#64 else b.node c = 0

theorem blank_zero (leaf : Bool) : Blank leaf 0 := by
  intro c
  cases leaf <;> rfl

/-- The two pools of the tree share its memory, and their free blocks are zero. -/
structure PoolsSound (t : WideRadixTree) (live : Bool → List ℕ) : Prop where
  pools : ∀ leaf, Pool.Invariant (t.pool leaf) t.memory (live leaf)
  apart : ∀ b ∈ (t.pool false).pools, ∀ c ∈ (t.pool true).pools, b.region.Disjoint c.region
  blank : ∀ leaf, FreeAll (Blank leaf) (t.pool leaf) t.memory

/-- The invariant of the tree, also in the middle of an insertion or a removal and
after a failed insertion. -/
structure Sound (t : WideRadixTree) (live : Bool → List ℕ) : Prop
    extends PoolsSound t live where
  levels_pos : 0 < t.numLevels
  levels_le : t.numLevels ≤ 8
  owned : ∀ {p x i b}, t.At p x → (t.node x).children i = some b → b ∈ live (t.isLast p)
  reach : ∀ {leaf b}, b ∈ live leaf →
    ∃ p x i, t.At p x ∧ t.isLast p = leaf ∧ (t.node x).children i = some b
  unshared : ∀ {p q x y i j b}, t.At p x → t.At q y → (t.node x).children i = some b →
    (t.node y).children j = some b → p = q ∧ i = j
  null_iff : ∀ {p x i}, t.At p x → ((t.node x).children i = none ↔ (t.node x).bits i = 0#64)
  clear : ∀ {p x d b}, t.At p x → (t.node x).bits.has d = false →
    (t.node x).children (hi d) = some b → t.SlotZero (t.isLast p) b (lo d)

namespace PoolsSound

variable {live : Bool → List ℕ}

theorem apart_of_ne (h : t.PoolsSound live) {leaf leaf' : Bool} (hne : leaf' ≠ leaf)
    {c c' : ObjectPoolBlock} (hc : c ∈ (t.pool leaf').pools) (hc' : c' ∈ (t.pool leaf).pools) :
    c.region.Disjoint c'.region := by
  cases leaf with
  | true =>
    cases leaf' with
    | true => exact absurd rfl hne
    | false => exact h.apart c hc c' hc'
  | false =>
    cases leaf' with
    | true => exact (h.apart c' hc' c hc).symm
    | false => exact absurd rfl hne

theorem not_free (h : t.PoolsSound live) {leaf leaf' : Bool} {b : ℕ} (hb : b ∈ live leaf)
    {c : ObjectPoolBlock} (hc : c ∈ (t.pool leaf').pools) : b ∉ c.free := by
  intro hfree
  have hwf := (h.pools leaf').wellFormed c hc
  have hobj := hwf.subset b hfree
  have hcont := ObjectPoolBlock.objects_contains hwf.size_pos hobj
  by_cases hl : leaf' = leaf
  · subst hl
    have hout := ((h.pools leaf').live_iff b).mp hb
    obtain ⟨c', hc', ho⟩ := hout
    have hcont' := ObjectPoolBlock.objects_contains ((h.pools leaf').wellFormed c' hc').size_pos ho.1
    obtain ⟨pre, post, hp⟩ := List.append_of_mem hc
    by_cases hcc : c' = c
    · subst hcc; exact ho.2 hfree
    · refine (h.pools leaf').sound.unique_block hp ?_ hcont hcont'
      rw [hp] at hc'
      simp only [List.mem_append, List.mem_cons] at hc'
      tauto
  · obtain ⟨c', hc', hcont'⟩ := (h.pools leaf).sound.live_contains hb
    exact (h.apart_of_ne hl hc hc').not_contains hcont hcont'

theorem setNode (h : t.PoolsSound live) {x : NodePtr} (hx : ∀ b i, x = .item b i → b ∈ live false)
    (n : WideRadixNode) : (t.setNode x n).PoolsSound live := by
  refine ⟨fun leaf ↦ ?_, by simpa only [pool_setNode] using h.apart, fun leaf c hc a ha ↦ ?_⟩
  · rw [pool_setNode]
    exact (h.pools leaf).of_subset (by simp)
  · rw [pool_setNode] at hc
    rw [cell_setNode_of_ne]
    · exact h.blank leaf c hc a ha
    · intro i hxi
      exact h.not_free (hx a i hxi) hc ha

end PoolsSound

theorem at_nil (h : 0 < t.numLevels) : t.At [] .root := ⟨h, rfl⟩

theorem at_snoc {p : List (BitVec 8)} {d : BitVec 8} {y : NodePtr} :
    t.At (p ++ [d]) y ↔ ∃ x b, t.At p x ∧ (t.node x).children (hi d) = some b ∧
      p.length + 1 < t.numLevels ∧ y = .item b (lo d) := by
  simp only [At, walk_snoc, List.length_append, List.length_singleton, Option.bind_eq_some_iff,
    next, Option.map_eq_some_iff]
  constructor
  · rintro ⟨hlen, x, hx, b, hb, rfl⟩
    exact ⟨x, b, ⟨by omega, hx⟩, hb, hlen, rfl⟩
  · rintro ⟨x, b, ⟨-, hx⟩, hb, hlen, rfl⟩
    exact ⟨hlen, x, hx, b, hb, rfl⟩

theorem At.child {p : List (BitVec 8)} {x : NodePtr} {d : BitVec 8} {b : ℕ} (hx : t.At p x)
    (hb : (t.node x).children (hi d) = some b) (hlast : t.isLast p = false) :
    t.At (p ++ [d]) (.item b (lo d)) := by
  have hlt := hx.1
  have hne : p.length + 1 ≠ t.numLevels := of_decide_eq_false hlast
  exact at_snoc.mpr ⟨x, b, hx, hb, by omega, rfl⟩

theorem At.unique {p : List (BitVec 8)} {x y : NodePtr} (hx : t.At p x) (hy : t.At p y) : x = y :=
  Option.some.inj (hx.2.symm.trans hy.2)

theorem at_congr (t t' : WideRadixTree) (hn : t'.numLevels = t.numLevels)
    (h : ∀ p x, t.At p x → (t'.node x).children = (t.node x).children) (p : List (BitVec 8))
    (x : NodePtr) : t'.At p x ↔ t.At p x := by
  rw [At, At, hn]
  refine and_congr_right fun hlen ↦ ?_
  have hwalk : walk t'.next .root p = walk t.next .root p := by
    refine walk_congr fun r d hr y hy ↦ ?_
    have hle := hr.length_le
    rw [List.length_append, List.length_singleton] at hle
    rw [next, next, h r y ⟨by omega, hy⟩]
  rw [hwalk]

namespace Sound

variable {live : Bool → List ℕ}

theorem at_injective (h : t.Sound live) {p q : List (BitVec 8)} {x : NodePtr} (hp : t.At p x)
    (hq : t.At q x) : p = q := by
  have hun : Unshared t.next .root (t.numLevels - 1) := by
    constructor
    · intro p x d _ _ hroot
      obtain ⟨b, -, hb⟩ := Option.map_eq_some_iff.mp hroot
      cases hb
    · intro p q x y d e z hp hq hx hy hd he
      obtain ⟨b, hb, rfl⟩ := Option.map_eq_some_iff.mp hd
      obtain ⟨c, hc, hz⟩ := Option.map_eq_some_iff.mp he
      have hinj := NodePtr.item.inj hz
      rw [hinj.1] at hc
      obtain ⟨hpq, hde⟩ := h.unshared (p := p) (q := q) ⟨by omega, hx⟩ ⟨by omega, hy⟩ hb hc
      exact ⟨hpq, byte_ext hde hinj.2.symm⟩
  have hlen := hp.1
  have hlen' := hq.1
  exact hun.injective (by omega) (by omega) hp.2 hq.2

theorem block_live (h : t.Sound live) {p : List (BitVec 8)} {x : NodePtr} {i : Fin 4} {b : ℕ}
    (hp : t.At p x) (hb : (t.node x).children i = some b) :
    ∃ r ∈ t.memory.live, r.Contains b := by
  obtain ⟨c, hc, hcont⟩ := (h.pools _).sound.live_contains (h.owned hp hb)
  exact ⟨_, (h.pools _).region_live c hc, hcont⟩

theorem node_live (h : t.Sound live) {p : List (BitVec 8)} {b : ℕ} {c : Fin 64}
    (hp : t.At p (.item b c)) : b ∈ live false := by
  induction p using List.reverseRecOn with
  | nil => cases hp.2
  | append_singleton p d =>
    obtain ⟨x, b', hx, hb, hlen, hy⟩ := at_snoc.mp hp
    cases hy
    have hown := h.owned hx hb
    rwa [isLast, decide_eq_false (by omega)] at hown

theorem setBits (h : t.Sound live) {p : List (BitVec 8)} {x : NodePtr} (hx : t.At p x) {m : Mask}
    (hnull : ∀ i, (t.node x).children i = none ↔ m i = 0#64)
    (hclear : ∀ e b, m.has e = false → (t.node x).children (hi e) = some b →
      t.SlotZero (t.isLast p) b (lo e)) :
    (t.setNode x { t.node x with bits := m }).Sound live := by
  set t' := t.setNode x { t.node x with bits := m } with ht'
  have hchild : ∀ y, (t'.node y).children = (t.node y).children := by
    intro y
    by_cases hy : y = x
    · rw [hy, ht', node_setNode_self]
    · rw [ht', node_setNode_of_ne _ hy]
  have hn : t'.numLevels = t.numLevels := numLevels_setNode _ _
  have hat := at_congr t t' hn fun _ y _ ↦ hchild y
  have hlast : t'.isLast = t.isLast := by funext q; rw [isLast, isLast, hn]
  refine ⟨h.toPoolsSound.setNode (fun b i hxi ↦ h.node_live (hxi ▸ hx)) _, hn ▸ h.levels_pos,
    hn ▸ h.levels_le, ?_, ?_, ?_, ?_, ?_⟩
  · intro q y i c hq hc
    rw [hlast]
    exact h.owned ((hat q y).mp hq) (hchild y ▸ hc)
  · intro leaf c hc
    obtain ⟨q, y, i, hq, hl, hy⟩ := h.reach hc
    exact ⟨q, y, i, (hat q y).mpr hq, hlast ▸ hl, hchild y ▸ hy⟩
  · intro q r y z i j c hq hr hy hz
    exact h.unshared ((hat q y).mp hq) ((hat r z).mp hr) (hchild y ▸ hy) (hchild z ▸ hz)
  · intro q y i hq
    rw [hchild]
    by_cases hy : y = x
    · subst hy
      rw [ht', node_setNode_self]
      exact hnull i
    · rw [ht', node_setNode_of_ne _ hy]
      exact h.null_iff ((hat q y).mp hq)
  · intro q y e c hq hbit hc
    have hq' := (hat q y).mp hq
    rw [hchild] at hc
    have hzero : t.SlotZero (t.isLast q) c (lo e) := by
      by_cases hy : y = x
      · subst hy
        rw [ht', node_setNode_self] at hbit
        obtain rfl := h.at_injective hq' hx
        exact hclear e c hbit hc
      · rw [ht', node_setNode_of_ne _ hy] at hbit
        exact h.clear hq' hbit hc
    rw [hlast]
    refine hzero.mono (fun _ h0 ↦ by rw [ht', value_setNode, h0]) fun _ h0 ↦ ?_
    by_cases hxc : NodePtr.item c (lo e) = x
    · -- a zero node without blocks stays zero
      have hm : m = fun _ ↦ 0#64 := by
        funext i
        rw [← hnull, ← hxc, h0]
        rfl
      rw [hxc, ht', node_setNode_self, ← hxc, h0, hm]
      rfl
    · rw [ht', node_setNode_of_ne _ hxc, h0]

theorem setBit (h : t.Sound live) {p : List (BitVec 8)} {x : NodePtr} (hx : t.At p x)
    {d : BitVec 8} {b : ℕ} (hb : (t.node x).children (hi d) = some b) :
    (t.setNode x { t.node x with bits := (t.node x).bits.set d }).Sound live := by
  refine h.setBits hx (fun i ↦ ?_) fun e c he hc ↦ ?_
  · rw [h.null_iff hx, Mask.word_set]
    refine ⟨fun h0 ↦ ⟨?_, h0⟩, And.right⟩
    rintro rfl
    rw [(h.null_iff hx).mpr h0] at hb
    cases hb
  · rw [← Bool.not_eq_true, Mask.has_set, not_or] at he
    exact h.clear hx (Bool.eq_false_of_not_eq_true he.2) hc

/-- Clearing a presence bit whose slot is zero and which is not the last one of its
block. -/
theorem clearBit (h : t.Sound live) {p : List (BitVec 8)} {x : NodePtr} (hx : t.At p x)
    {d : BitVec 8}
    (hzero : ∀ b, (t.node x).children (hi d) = some b → t.SlotZero (t.isLast p) b (lo d))
    (hword : (t.node x).children (hi d) = none ↔ (t.node x).bits.clear d (hi d) = 0#64) :
    (t.setNode x { t.node x with bits := (t.node x).bits.clear d }).Sound live := by
  refine h.setBits hx (fun i ↦ ?_) fun e c he hc ↦ ?_
  · by_cases hi : i = Foundation.hi d
    · rw [hi, hword]
    · rw [h.null_iff hx, Mask.clear, Function.update_of_ne hi]
  · rw [← Bool.not_eq_true, Mask.has_clear, not_and_or, not_not] at he
    rcases he with rfl | he
    · exact hzero c hc
    · exact h.clear hx (Bool.eq_false_of_not_eq_true he) hc

end Sound

end WideRadixTree

end RadixBench.RadixNew
