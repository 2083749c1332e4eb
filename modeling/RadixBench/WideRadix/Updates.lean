import RadixBench.WideRadix.Invariant

namespace RadixBench.WideRadix

open Foundation Memory

variable {m m' : Memory WideRadixNode} {root : ℕ}

/-- `m'` is `m` with one node `a` more, not yet linked. -/
structure Created (m m' : Memory WideRadixNode) (a : ℕ) (leaf : Bool) (value : BitVec 64) :
    Prop where
  live : m'.live = nodeRegion a :: m.live
  failures : m'.failures = m.failures
  fresh : ∀ y, nodeRegion y ∈ m.live → y ≠ a
  same : ∀ y, nodeRegion y ∈ m.live → m'.cell y = m.cell y
  cell : m'.cell a = ⟨fun _ ↦ 0#64, fun _ ↦ none, value, leaf⟩

theorem createNode_cases (A : Allocator) (m : Memory WideRadixNode) (leaf : Bool) :
    (∃ m', createNode A m leaf = (none, m') ∧ m'.live = m.live ∧ m'.cell = m.cell ∧
      m.failures < m'.failures) ∨
    (∃ a m', createNode A m leaf = (some a, m') ∧ Created m m' a leaf 0#64) := by
  obtain ⟨m', heq, hl, hf, hc⟩ | ⟨a, m', heq, -, -, hfresh, hl, hf, hs, hz, -⟩ :=
    calloc_cases A m sizeofWideRadixNode
  · exact .inl ⟨m', by simp only [createNode, heq], hl, hc, by omega⟩
  · have hne : ∀ y, nodeRegion y ∈ m.live → y ≠ a := fun y hy ↦ (hfresh _ hy).1.symm
    refine .inr ⟨a, m'.write a { m'.cell a with isLeaf := leaf, value := 0#64 },
      by simp only [createNode, heq], hl, hf, hne, fun y hy ↦ ?_, ?_⟩
    · rw [write_cell_of_ne _ _ (hne y hy)]
      exact hs y ⟨_, hy, nodeRegion_contains y⟩
    · rw [write_cell_self, hz a (nodeRegion_contains a)]
      rfl

theorem Created.setValue {a : ℕ} {leaf : Bool} {v : BitVec 64} (h : Created m m' a leaf v)
    (value : BitVec 64) :
    Created m (m'.write a { m'.cell a with value := value }) a leaf value := by
  refine ⟨h.live, h.failures, h.fresh, fun y hy ↦ ?_, ?_⟩
  · rw [write_cell_of_ne _ _ (h.fresh y hy), h.same y hy]
  · rw [write_cell_self, h.cell]

def stored (m : Memory WideRadixNode) (root : ℕ) (path : List (BitVec 8)) : Option (BitVec 64) :=
  (walk (next m) root path).map fun x ↦ (m.cell x).value

def HasNode (m : Memory WideRadixNode) (root : ℕ) (p : List (BitVec 8)) : Prop :=
  ∃ x, At m root p x

theorem stored_of_at {p : List (BitVec 8)} {x : ℕ} (hx : At m root p x) :
    stored m root p = some (m.cell x).value := by
  rw [stored, hx.2]
  rfl

theorem stored_isSome {p : List (BitVec 8)} (hp : p.length ≤ 8) :
    (stored m root p).isSome = true ↔ HasNode m root p := by
  rw [stored, Option.isSome_map, Option.isSome_iff_exists]
  exact exists_congr fun x ↦ (and_iff_right hp).symm

theorem stored_congr {p : List (BitVec 8)} (hp : p.length ≤ 8)
    (hat : ∀ x, At m' root p x ↔ At m root p x)
    (hvalue : ∀ x, At m root p x → (m'.cell x).value = (m.cell x).value) :
    stored m' root p = stored m root p := by
  cases hw : walk (next m) root p with
  | none =>
    have hw' : walk (next m') root p = none := by
      cases hw' : walk (next m') root p with
      | none => rfl
      | some x =>
        have hx := ((hat x).mp ⟨hp, hw'⟩).2
        rw [hw] at hx
        cases hx
    rw [stored, stored, hw, hw']
    rfl
  | some x =>
    have hx : At m root p x := ⟨hp, hw⟩
    rw [stored_of_at hx, stored_of_at ((hat x).mpr hx), hvalue x hx]

structure Linked (m m' : Memory WideRadixNode) (root x : ℕ) (d : BitVec 8) (a : ℕ) (leaf : Bool)
    (value : BitVec 64) : Prop where
  live : m'.live = nodeRegion a :: m.live
  failures : m'.failures = m.failures
  fresh : ∀ {q y}, At m root q y → y ≠ a
  self : m'.cell x = { m.cell x with
    childMask := (m.cell x).childMask.set d
    children := Function.update (m.cell x).children d (some a) }
  same : ∀ {q y}, At m root q y → y ≠ x → m'.cell y = m.cell y
  new : m'.cell a = ⟨fun _ ↦ 0#64, fun _ ↦ none, value, leaf⟩

theorem Created.linked (h : Sound m root) {p : List (BitVec 8)} {x : ℕ} (hx : At m root p x)
    (d : BitVec 8) {a : ℕ} {leaf : Bool} {v : BitVec 64} (ha : Created m m' a leaf v) :
    Linked m (setChild m' x d a) root x d a leaf v := by
  have hxa : x ≠ a := ha.fresh x (h.live hx)
  refine ⟨ha.live, ha.failures, fun hy ↦ ha.fresh _ (h.live hy), ?_, fun {q y} hy hyx ↦ ?_, ?_⟩
  · rw [setChild, write_cell_self, ha.same x (h.live hx), maskSetBit_eq]
  · rw [setChild, write_cell_of_ne _ _ hyx, ha.same y (h.live hy)]
  · rw [setChild, write_cell_of_ne _ _ hxa.symm, ha.cell]

namespace Linked

variable {p : List (BitVec 8)} {x : ℕ} {d : BitVec 8} {a : ℕ} {leaf : Bool} {v : BitVec 64}

theorem next_self (hl : Linked m m' root x d a leaf v) : next m' x d = some a := by
  rw [next, hl.self]
  exact Function.update_self ..

theorem next_new (hl : Linked m m' root x d a leaf v) (e : BitVec 8) : next m' a e = none := by
  rw [next, hl.new]

theorem next_of_ne (hl : Linked m m' root x d a leaf v) {q : List (BitVec 8)} {y : ℕ}
    {e : BitVec 8} (hy : At m root q y) (hne : y ≠ x ∨ e ≠ d) : next m' y e = next m y e := by
  by_cases hyx : y = x
  · subst hyx
    rw [next, hl.self]
    exact Function.update_of_ne (hne.resolve_left fun hyy ↦ hyy rfl) _ _
  · rw [next, hl.same hy hyx]
    rfl

theorem walk_iff (hl : Linked m m' root x d a leaf v) (h : Sound m root) (hx : At m root p x)
    (hlt : p.length < 8) (hnone : (m.cell x).children d = none) {q : List (BitVec 8)}
    (hq : q.length ≤ 8) (y : ℕ) :
    walk (next m') root q = some y ↔ walk (next m) root q = some y ∨ q = p ++ [d] ∧ y = a :=
  walk_link (fun _ hr hw ↦ h.at_injective ⟨hr.le, hw⟩ hx) hx.2 hlt hnone hl.next_self hl.next_new
    (fun _ _ _ hr hy hne ↦ hl.next_of_ne ⟨hr.le, hy⟩ hne) hq y

theorem at_iff (hl : Linked m m' root x d a leaf v) (h : Sound m root) (hx : At m root p x)
    (hlt : p.length < 8) (hnone : (m.cell x).children d = none) (q : List (BitVec 8)) (y : ℕ) :
    At m' root q y ↔ At m root q y ∨ q = p ++ [d] ∧ y = a := by
  constructor
  · rintro ⟨hq, hy⟩
    exact ((hl.walk_iff h hx hlt hnone hq y).mp hy).imp_left fun hy ↦ ⟨hq, hy⟩
  · rintro (⟨hq, hy⟩ | ⟨rfl, rfl⟩)
    · exact ⟨hq, (hl.walk_iff h hx hlt hnone hq y).mpr (.inl hy)⟩
    · have hq : (p ++ [d]).length ≤ 8 := by
        rw [List.length_append, List.length_singleton]
        omega
      exact ⟨hq, (hl.walk_iff h hx hlt hnone hq _).mpr (.inr ⟨rfl, rfl⟩)⟩

theorem unshared (hl : Linked m m' root x d a leaf v) (h : Sound m root) (hx : At m root p x)
    (hlt : p.length < 8) (hnone : (m.cell x).children d = none) : Unshared (next m') root 8 :=
  h.unshared.link (fun _ hq hw ↦ hl.fresh ⟨hq, hw⟩ rfl)
    (fun _ hq y ↦ hl.walk_iff h hx hlt hnone hq y)
    (fun _ hr hw ↦ h.at_injective ⟨hr.le, hw⟩ hx) hl.next_self hl.next_new
    fun _ _ _ hr hy hne ↦ hl.next_of_ne ⟨hr.le, hy⟩ hne

/-- The mask of an old node is written in step with its pointers, nothing else is. -/
theorem old_node (hl : Linked m m' root x d a leaf v) (h : Sound m root) {q : List (BitVec 8)}
    {y : ℕ} (hy : At m root q y) :
    (m'.cell y).value = (m.cell y).value ∧ (m'.cell y).isLeaf = (m.cell y).isLeaf ∧
      ∀ e, (m'.cell y).childMask.has e = true ↔ (m'.cell y).children e ≠ none := by
  by_cases hyx : y = x
  · subst hyx
    rw [hl.self]
    refine ⟨rfl, rfl, fun e ↦ ?_⟩
    dsimp only
    rw [Mask.has_set]
    by_cases hed : e = d
    · subst hed
      rw [Function.update_self]
      simp
    · rw [Function.update_of_ne hed, h.mask_iff hy]
      exact or_iff_right hed
  · rw [hl.same hy hyx]
    exact ⟨rfl, rfl, h.mask_iff hy⟩

theorem sound (hl : Linked m m' root x d a leaf v) (h : Sound m root) (hx : At m root p x)
    (hlt : p.length < 8) (hnone : (m.cell x).children d = none)
    (hleaf : leaf = true ↔ p.length + 1 = 8) : Sound m' root := by
  have hat := hl.at_iff h hx hlt hnone
  refine ⟨fun {q y} hy ↦ ?_, hl.unshared h hx hlt hnone, fun {q y} hy ↦ ?_, fun {q y} hy ↦ ?_,
    fun {q y} hy hq e ↦ ?_⟩
  · rw [hl.live, List.mem_cons]
    rcases (hat q y).mp hy with hy | ⟨-, rfl⟩
    · exact .inr (h.live hy)
    · exact .inl rfl
  · rcases (hat q y).mp hy with hy | ⟨-, rfl⟩
    · exact (hl.old_node h hy).2.2
    · rw [hl.new]
      simp
  · rcases (hat q y).mp hy with hy | ⟨rfl, rfl⟩
    · rw [(hl.old_node h hy).2.1]
      exact h.leaf_iff hy
    · rw [hl.new, List.length_append, List.length_singleton]
      exact hleaf
  · rcases (hat q y).mp hy with hy | ⟨rfl, rfl⟩
    · have hyx : y ≠ x := by
        rintro rfl
        rw [h.at_injective hy hx] at hq
        omega
      rw [hl.same hy hyx]
      exact h.leaf_end hy hq e
    · rw [hl.new]

end Linked

namespace Sound

theorem link (h : Sound m root) {p : List (BitVec 8)} {x : ℕ} (hx : At m root p x)
    (hlt : p.length < 8) {d : BitVec 8} (hnone : (m.cell x).children d = none) {a : ℕ} {leaf : Bool}
    (hleaf : leaf = true ↔ p.length + 1 = 8) {v : BitVec 64} (ha : Created m m' a leaf v) :
    Sound (setChild m' x d a) root ∧
      (∀ q y, At (setChild m' x d a) root q y ↔ At m root q y ∨ q = p ++ [d] ∧ y = a) ∧
      (∀ q y, At m root q y → ((setChild m' x d a).cell y).value = (m.cell y).value) ∧
      ((setChild m' x d a).cell a).value = v ∧
      (setChild m' x d a).failures = m.failures := by
  have hl := ha.linked h hx d
  refine ⟨hl.sound h hx hlt hnone hleaf, hl.at_iff h hx hlt hnone,
    fun q y hy ↦ (hl.old_node h hy).1, ?_, hl.failures⟩
  rw [hl.new]

theorem setValue (h : Sound m root) {p : List (BitVec 8)} {x : ℕ} (hx : At m root p x)
    (v : BitVec 64) :
    Sound (m.write x { m.cell x with value := v }) root ∧
      (∀ q y, At (m.write x { m.cell x with value := v }) root q y ↔ At m root q y) ∧
      ∀ q, q.length ≤ 8 → stored (m.write x { m.cell x with value := v }) root q =
        if q = p then some v else stored m root q := by
  set m₂ := m.write x { m.cell x with value := v } with hm₂
  have hcell : ∀ y, m₂.cell y = if y = x then { m.cell x with value := v } else m.cell y := by
    intro y
    split_ifs with hyx
    · rw [hyx, hm₂, write_cell_self]
    · rw [hm₂, write_cell_of_ne _ _ hyx]
  have hnext : next m₂ = next m := by
    funext y e
    rw [next, hcell]
    split_ifs with hyx
    · rw [hyx]
      rfl
    · rfl
  have hat : ∀ q y, At m₂ root q y ↔ At m root q y := by
    intro q y
    rw [At, At, hnext]
  refine ⟨⟨fun {q y} hy ↦ h.live ((hat q y).mp hy), hnext ▸ h.unshared, ?_, ?_, ?_⟩, hat,
    fun q hq ↦ ?_⟩
  · intro q y hy e
    have hmask := h.mask_iff ((hat q y).mp hy) e
    rw [hcell]
    split_ifs with hyx
    · rwa [hyx] at hmask
    · exact hmask
  · intro q y hy
    have hleaf := h.leaf_iff ((hat q y).mp hy)
    rw [hcell]
    split_ifs with hyx
    · rwa [hyx] at hleaf
    · exact hleaf
  · intro q y hy hlen e
    have hend := h.leaf_end ((hat q y).mp hy) hlen e
    rw [hcell]
    split_ifs with hyx
    · rwa [hyx] at hend
    · exact hend
  · split_ifs with hqp
    · subst hqp
      rw [stored_of_at ((hat q x).mpr hx), hcell, if_pos rfl]
    · refine stored_congr hq (hat q) fun y hy ↦ ?_
      rw [hcell, if_neg]
      rintro rfl
      exact hqp (h.at_injective hy hx)

end Sound

end RadixBench.WideRadix
