import RadixBench.WideRadix.Updates

namespace RadixBench.WideRadix

open Foundation Memory

variable {m m' : Memory WideRadixNode} {root : ℕ}

structure Unlinked (m m' : Memory WideRadixNode) (x : ℕ) (d : BitVec 8) (a : ℕ) : Prop where
  live : ∀ {y}, nodeRegion y ∈ m.live → y ≠ a → nodeRegion y ∈ m'.live
  self : m'.cell x = { m.cell x with
    children := Function.update (m.cell x).children d none
    childMask := (m.cell x).childMask.clear d }
  same : ∀ {y}, y ≠ x → m'.cell y = m.cell y

namespace Unlinked

variable {p : List (BitVec 8)} {x : ℕ} {d : BitVec 8} {a : ℕ}

theorem next_self (hu : Unlinked m m' x d a) : next m' x d = none := by
  rw [next, hu.self]
  exact Function.update_self ..

theorem next_of_ne (hu : Unlinked m m' x d a) {y : ℕ} {e : BitVec 8} (hne : y ≠ x ∨ e ≠ d) :
    next m' y e = next m y e := by
  by_cases hyx : y = x
  · subst hyx
    rw [next, hu.self]
    exact Function.update_of_ne (hne.resolve_left fun hyy ↦ hyy rfl) _ _
  · rw [next, hu.same hyx]
    rfl

theorem at_iff (hu : Unlinked m m' x d a) (h : Sound m root) (hx : At m root p x)
    (ha : At m root (p ++ [d]) a) (hlen : p.length + 1 = 8) (q : List (BitVec 8)) (y : ℕ) :
    At m' root q y ↔ At m root q y ∧ q ≠ p ++ [d] := by
  have hchild : next m x d = some a := by
    obtain ⟨y, hy, -, hya⟩ := at_snoc.mp ha
    rwa [hy.unique hx] at hya
  rw [At, At, and_assoc]
  exact and_congr_right fun hq ↦ walk_unlink (fun _ hr hw ↦ h.at_injective ⟨hr.le, hw⟩ hx) hx.2
    (by omega) hchild (fun e ↦ h.leaf_end ha (by simpa using hlen) e) hu.next_self
    (fun _ _ _ _ _ ↦ hu.next_of_ne) hq y

theorem unshared (hu : Unlinked m m' x d a) (h : Sound m root)
    (hold : ∀ {q y}, At m' root q y → At m root q y) : Unshared (next m') root 8 := by
  refine h.unshared.mono (fun q hq y hy ↦ (hold ⟨hq.le, hy⟩).2) fun q y e z _ _ hz ↦ ?_
  have hne : y ≠ x ∨ e ≠ d := by
    by_contra hcon
    obtain ⟨rfl, rfl⟩ : y = x ∧ e = d := by tauto
    rw [hu.next_self] at hz
    cases hz
  rwa [hu.next_of_ne hne] at hz

theorem old_node (hu : Unlinked m m' x d a) (h : Sound m root) {q : List (BitVec 8)} {y : ℕ}
    (hy : At m root q y) :
    (m'.cell y).value = (m.cell y).value ∧ (m'.cell y).isLeaf = (m.cell y).isLeaf ∧
      ∀ e, (m'.cell y).childMask.has e = true ↔ (m'.cell y).children e ≠ none := by
  by_cases hyx : y = x
  · subst hyx
    rw [hu.self]
    refine ⟨rfl, rfl, fun e ↦ ?_⟩
    dsimp only
    rw [Mask.has_clear]
    by_cases hed : e = d
    · subst hed
      rw [Function.update_self]
      simp
    · rw [Function.update_of_ne hed, h.mask_iff hy]
      exact and_iff_right hed
  · rw [hu.same hyx]
    exact ⟨rfl, rfl, h.mask_iff hy⟩

theorem sound (hu : Unlinked m m' x d a) (h : Sound m root) (hx : At m root p x)
    (ha : At m root (p ++ [d]) a) (hlen : p.length + 1 = 8) : Sound m' root := by
  have hat := hu.at_iff h hx ha hlen
  have hold : ∀ {q y}, At m' root q y → At m root q y := fun {q y} hy ↦ ((hat q y).mp hy).1
  refine ⟨fun {q y} hnew ↦ ?_, hu.unshared h hold, fun hy ↦ (hu.old_node h (hold hy)).2.2,
    fun hy ↦ ?_, fun {q y} hy hq e ↦ ?_⟩
  · obtain ⟨hy, hne⟩ := (hat q y).mp hnew
    refine hu.live (h.live hy) ?_
    rintro rfl
    exact hne (h.at_injective hy ha)
  · rw [(hu.old_node h (hold hy)).2.1]
    exact h.leaf_iff (hold hy)
  · have hyx : y ≠ x := by
      rintro rfl
      rw [h.at_injective (hold hy) hx] at hq
      omega
    rw [hu.same hyx]
    exact h.leaf_end (hold hy) hq e

end Unlinked

theorem Sound.unlink (h : Sound m root) {p : List (BitVec 8)} {x : ℕ} (hx : At m root p x)
    {d : BitVec 8} {a : ℕ} (ha : At m root (p ++ [d]) a) (hlen : p.length + 1 = 8) :
    let m₂ := (m.free a).write x { (m.free a).cell x with
      children := Function.update ((m.free a).cell x).children d none
      childMask := maskClearBit ((m.free a).cell x).childMask d }
    Sound m₂ root ∧ (∀ q y, At m₂ root q y ↔ At m root q y ∧ q ≠ p ++ [d]) ∧
      ∀ q y, At m root q y → (m₂.cell y).value = (m.cell y).value := by
  intro m₂
  have hu : Unlinked m m₂ x d a := by
    refine ⟨fun hy hya ↦ List.mem_filter.mpr ⟨hy, decide_eq_true hya⟩, ?_, fun hyx ↦ ?_⟩
    · rw [write_cell_self, free_cell, maskClearBit_eq]
    · rw [write_cell_of_ne _ _ hyx, free_cell]
  exact ⟨hu.sound h hx ha hlen, hu.at_iff h hx ha hlen, fun q y hy ↦ (hu.old_node h hy).1⟩

structure Inserted (m m' : Memory WideRadixNode) (root : ℕ) (path : List (BitVec 8))
    (value : BitVec 64) : Prop where
  failures : m'.failures = m.failures
  hasNode : ∀ q, HasNode m' root q ↔ HasNode m root q ∨ q <+: path
  stored : ∀ q, q.length = 8 →
    stored m' root q = if q = path then some value else stored m root q

theorem stored_link {p : List (BitVec 8)} {d : BitVec 8} {a : ℕ} {v : BitVec 64}
    (hat : ∀ q y, At m' root q y ↔ At m root q y ∨ q = p ++ [d] ∧ y = a)
    (hvalue : ∀ q y, At m root q y → (m'.cell y).value = (m.cell y).value)
    (ha : (m'.cell a).value = v) {q : List (BitVec 8)} (hq : q.length ≤ 8) :
    stored m' root q = if q = p ++ [d] then some v else stored m root q := by
  split_ifs with hqp
  · rw [stored_of_at ((hat q a).mpr (.inr ⟨hqp, rfl⟩)), ha]
  · refine stored_congr hq (fun y ↦ ?_) (hvalue q)
    rw [hat]
    exact or_iff_left fun hy ↦ hqp hy.1

theorem At.hasNode_prefix {p q : List (BitVec 8)} {x : ℕ} (hx : At m root p x) (hq : q <+: p) :
    HasNode m root q := by
  obtain ⟨r, rfl⟩ := hq
  have hlen := hx.1
  rw [List.length_append] at hlen
  obtain ⟨y, hy, -⟩ := Option.bind_eq_some_iff.mp (walk_append root q r ▸ hx.2)
  exact ⟨y, by omega, hy⟩

theorem hasNode_link {p : List (BitVec 8)} {x : ℕ} {d : BitVec 8} {a : ℕ} (hx : At m root p x)
    (hat : ∀ q y, At m' root q y ↔ At m root q y ∨ q = p ++ [d] ∧ y = a) (q : List (BitVec 8)) :
    HasNode m' root q ↔ HasNode m root q ∨ q <+: p ++ [d] := by
  rw [List.prefix_concat_iff]
  constructor
  · rintro ⟨y, hy⟩
    rcases (hat q y).mp hy with hy | ⟨hq, -⟩
    · exact .inl ⟨y, hy⟩
    · exact .inr (.inl hq)
  · rintro (⟨y, hy⟩ | hq | hq)
    · exact ⟨y, (hat q y).mpr (.inl hy)⟩
    · exact ⟨a, (hat q a).mpr (.inr ⟨hq, rfl⟩)⟩
    · obtain ⟨y, hy⟩ := hx.hasNode_prefix hq
      exact ⟨y, (hat q y).mpr (.inl hy)⟩

theorem Sound.congr (h : Sound m root) (hl : m'.live = m.live) (hc : m'.cell = m.cell) :
    Sound m' root ∧ ∀ q, stored m' root q = stored m root q := by
  cases m with
  | mk live calls failures cell =>
    cases m' with
    | mk live' calls' failures' cell' =>
      cases hl
      cases hc
      exact ⟨⟨h.live, h.unshared, h.mask_iff, h.leaf_iff, h.leaf_end⟩, fun _ ↦ rfl⟩

theorem insertFrom_cases (A : Allocator) (key value : BitVec 64) (rem : ℕ) (h : Sound m root)
    {p : List (BitVec 8)} {x : ℕ} (hx : At m root p x) (hlen : p.length + rem = 7) :
    (∃ m', insertFrom A key value rem m x = .ok (false, m') ∧ Sound m' root ∧
      (∀ q, q.length = 8 → stored m' root q = stored m root q) ∧ m.failures < m'.failures) ∨
    (∃ m', insertFrom A key value rem m x = .ok (true, m') ∧ Sound m' root ∧
      Inserted m m' root (p ++ digits key (rem + 1)) value) := by
  induction rem generalizing m p x with
  | zero =>
    have hbyte : extractByte key 7 = digit key 0 := extractByte_eq key 0 (Nat.zero_le _)
    rw [insertFrom, hbyte]
    set d := digit key 0 with hd
    simp only [maskGetBit_eq]
    by_cases hbit : (m.cell x).childMask.has d = true
    · obtain ⟨y, hy⟩ := h.exists_child hx hbit
      have hat : At m root (p ++ [d]) y := at_snoc.mpr ⟨x, hx, by omega, hy⟩
      have hleaf : (m.cell y).isLeaf = true := (h.leaf_iff hat).mpr (by simp; omega)
      obtain ⟨hs, hsame, hstored⟩ := h.setValue hat value
      rw [if_pos hbit, hy, deref_some, ok_bind, check_of hleaf, ok_bind]
      refine .inr ⟨_, rfl, hs, rfl, fun q ↦ ?_, fun q hq ↦ hstored q hq.le⟩
      simp only [HasNode, hsame]
      exact (or_iff_left_of_imp fun hq ↦ hat.hasNode_prefix hq).symm
    · have hnone := h.child_none hx hbit
      rw [if_neg hbit]
      obtain ⟨m', heq, hl, hc, hf⟩ | ⟨a, m', heq, ha⟩ := createNode_cases A m true
      · obtain ⟨hs, hstored⟩ := h.congr hl hc
        exact .inl ⟨m', by rw [heq], hs, fun q _ ↦ hstored q, hf⟩
      · obtain ⟨hs, hat, hvalue, hv, hf⟩ := h.link hx (by omega) hnone
          (iff_of_true rfl (by omega)) (ha.setValue value)
        refine .inr ⟨_, by rw [heq], hs, hf, hasNode_link hx hat, fun q hq ↦ ?_⟩
        exact stored_link hat hvalue hv hq.le
  | succ rem ih =>
    have hbyte : extractByte key (7 - (rem + 1)) = digit key (rem + 1) :=
      extractByte_eq key (rem + 1) (by omega)
    have hfull := append_digits p key (rem + 1)
    rw [insertFrom, hbyte, hfull]
    set d := digit key (rem + 1) with hd
    have hlen' : (p ++ [d]).length + rem = 7 := by
      rw [List.length_append, List.length_singleton]
      omega
    simp only [maskGetBit_eq]
    by_cases hbit : (m.cell x).childMask.has d = true
    · obtain ⟨y, hy⟩ := h.exists_child hx hbit
      rw [if_pos hbit, hy, require_some, ok_bind]
      exact ih h (at_snoc.mpr ⟨x, hx, by omega, hy⟩) hlen'
    · have hnone := h.child_none hx hbit
      rw [if_neg hbit]
      obtain ⟨m', heq, hl, hc, hf⟩ | ⟨a, m', heq, ha⟩ := createNode_cases A m false
      · obtain ⟨hs, hstored⟩ := h.congr hl hc
        exact .inl ⟨m', by rw [heq], hs, fun q _ ↦ hstored q, hf⟩
      · obtain ⟨hs, hat, hvalue, -, hf⟩ := h.link hx (by omega) hnone
          (iff_of_false Bool.false_ne_true (by omega)) ha
        have hstored : ∀ q, q.length = 8 →
            stored (setChild m' x d a) root q = stored m root q := by
          intro q hq
          refine stored_congr hq.le (fun y ↦ ?_) (hvalue q)
          rw [hat]
          refine or_iff_left ?_
          rintro ⟨rfl, -⟩
          omega
        rw [heq]
        dsimp only
        obtain ⟨m'', hrun, hs', hst, hlt⟩ | ⟨m'', hrun, hs', hins⟩ :=
          ih hs ((hat _ a).mpr (.inr ⟨rfl, rfl⟩)) hlen'
        · exact .inl ⟨m'', hrun, hs', fun q hq ↦ (hst q hq).trans (hstored q hq), hf ▸ hlt⟩
        · refine .inr ⟨m'', hrun, hs', hins.failures.trans hf, fun q ↦ ?_, fun q hq ↦ ?_⟩
          · rw [hins.hasNode, hasNode_link hx hat, or_assoc]
            exact or_congr_right (or_iff_right_of_imp fun hq ↦ hq.trans (List.prefix_append _ _))
          · rw [hins.stored q hq, hstored q hq]

structure Deleted (m m' : Memory WideRadixNode) (root : ℕ) (path : List (BitVec 8)) : Prop where
  hasNode : ∀ q, HasNode m' root q ↔ HasNode m root q ∧ q ≠ path
  stored : ∀ q, q.length = 8 →
    stored m' root q = if q = path then none else stored m root q

theorem Deleted.refl {path : List (BitVec 8)} (hlen : path.length = 8)
    (hnot : ¬ HasNode m root path) : Deleted m m root path := by
  refine ⟨fun q ↦ (and_iff_left_of_imp ?_).symm, fun q hq ↦ ?_⟩
  · rintro hq rfl
    exact hnot hq
  · split_ifs with hqp
    · rw [← Option.not_isSome_iff_eq_none, stored_isSome hq.le, hqp]
      exact hnot
    · rfl

theorem not_hasNode_below {p q : List (BitVec 8)} {x : ℕ} {d : BitVec 8} (hx : At m root p x)
    (hnone : (m.cell x).children d = none) (hpre : p ++ [d] <+: q) : ¬ HasNode m root q := by
  rintro ⟨y, hy⟩
  obtain ⟨z, hz⟩ := hy.hasNode_prefix hpre
  obtain ⟨w, hw, -, hwz⟩ := at_snoc.mp hz
  rw [hw.unique hx, hnone] at hwz
  cases hwz

theorem deleteFrom_deleted (key : BitVec 64) (rem : ℕ) (h : Sound m root) {p : List (BitVec 8)}
    {x : ℕ} (hx : At m root p x) (hlen : p.length + rem = 7) :
    ∃ m', deleteFrom key rem m x =
        .ok ((stored m root (p ++ digits key (rem + 1))).isSome, m') ∧
      Sound m' root ∧ Deleted m m' root (p ++ digits key (rem + 1)) ∧
      m'.failures = m.failures := by
  induction rem generalizing p x with
  | zero =>
    have hbyte : extractByte key 7 = digit key 0 := extractByte_eq key 0 (Nat.zero_le _)
    have hpath : p ++ digits key (0 + 1) = p ++ [digit key 0] := rfl
    rw [deleteFrom, hbyte, hpath]
    set d := digit key 0 with hd
    have hfull : (p ++ [d]).length = 8 := by simp; omega
    simp only [maskGetBit_eq]
    by_cases hbit : (m.cell x).childMask.has d = true
    · obtain ⟨y, hy⟩ := h.exists_child hx hbit
      have hya : At m root (p ++ [d]) y := at_snoc.mpr ⟨x, hx, by omega, hy⟩
      have hleaf : (m.cell y).isLeaf = true := (h.leaf_iff hya).mpr hfull
      obtain ⟨hs, hat, hvalue⟩ := h.unlink hx hya (by omega)
      rw [if_pos hbit, hy, deref_some, ok_bind, check_of hleaf, ok_bind,
        (stored_isSome hfull.le).mpr ⟨y, hya⟩]
      refine ⟨_, rfl, hs, ⟨fun q ↦ ?_, fun q hq ↦ ?_⟩, rfl⟩
      · simp only [HasNode, hat, exists_and_right]
      · split_ifs with hqp
        · rw [← Option.not_isSome_iff_eq_none, stored_isSome hq.le]
          rintro ⟨z, hz⟩
          exact ((hat q z).mp hz).2 hqp
        · refine stored_congr hq.le (fun z ↦ ?_) (hvalue q)
          rw [hat]
          exact and_iff_left hqp
    · have hnot := not_hasNode_below hx (h.child_none hx hbit) List.prefix_rfl
      rw [if_neg hbit, Bool.eq_false_of_not_eq_true fun hs ↦ hnot ((stored_isSome hfull.le).mp hs)]
      exact ⟨m, rfl, h, .refl hfull hnot, rfl⟩
  | succ rem ih =>
    have hbyte : extractByte key (7 - (rem + 1)) = digit key (rem + 1) :=
      extractByte_eq key (rem + 1) (by omega)
    have hfull := append_digits p key (rem + 1)
    rw [deleteFrom, hbyte, hfull]
    set d := digit key (rem + 1) with hd
    have hfull : (p ++ [d] ++ digits key (rem + 1)).length = 8 := by simp; omega
    simp only [maskGetBit_eq]
    by_cases hbit : (m.cell x).childMask.has d = true
    · obtain ⟨y, hy⟩ := h.exists_child hx hbit
      rw [if_pos hbit, hy, require_some, ok_bind]
      exact ih (at_snoc.mpr ⟨x, hx, by omega, hy⟩) (by simp; omega)
    · have hnot := not_hasNode_below hx (h.child_none hx hbit)
        (List.prefix_append (p ++ [d]) (digits key (rem + 1)))
      rw [if_neg hbit, Bool.eq_false_of_not_eq_true fun hs ↦ hnot ((stored_isSome hfull.le).mp hs)]
      exact ⟨m, rfl, h, .refl hfull hnot, rfl⟩

theorem lookupFrom_walk (key : BitVec 64) (rem : ℕ) (h : Sound m root) {p : List (BitVec 8)}
    {x : ℕ} (hx : At m root p x) (hlen : p.length + rem = 7) :
    lookupFrom m key rem x = .ok (walk (next m) root (p ++ digits key (rem + 1))) := by
  induction rem generalizing p x with
  | zero =>
    have hbyte : extractByte key 7 = digit key 0 := extractByte_eq key 0 (Nat.zero_le _)
    have hpath : p ++ digits key (0 + 1) = p ++ [digit key 0] := rfl
    rw [lookupFrom, hbyte, hpath, walk_snoc, hx.2, Option.bind_some, next]
    simp only [maskGetBit_eq]
    by_cases hbit : (m.cell x).childMask.has (digit key 0) = true
    · obtain ⟨y, hy⟩ := h.exists_child hx hbit
      have hya : At m root (p ++ [digit key 0]) y := at_snoc.mpr ⟨x, hx, by omega, hy⟩
      have hleaf : (m.cell y).isLeaf = true := (h.leaf_iff hya).mpr (by simp; omega)
      rw [if_pos hbit, hy, require_some, ok_bind, check_of hleaf]
      rfl
    · rw [if_neg hbit, h.child_none hx hbit]
  | succ rem ih =>
    have hbyte : extractByte key (7 - (rem + 1)) = digit key (rem + 1) :=
      extractByte_eq key (rem + 1) (by omega)
    have hfull := append_digits p key (rem + 1)
    rw [lookupFrom, hbyte, hfull]
    simp only [maskGetBit_eq]
    by_cases hbit : (m.cell x).childMask.has (digit key (rem + 1)) = true
    · obtain ⟨y, hy⟩ := h.exists_child hx hbit
      rw [if_pos hbit, hy, require_some, ok_bind]
      exact ih (at_snoc.mpr ⟨x, hx, by omega, hy⟩) (by simp; omega)
    · have hnone := h.child_none hx hbit
      rw [if_neg hbit, walk_append, walk_snoc, hx.2, Option.bind_some, next, hnone]
      rfl

end RadixBench.WideRadix
