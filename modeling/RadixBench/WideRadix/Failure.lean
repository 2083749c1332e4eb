import RadixBench.WideRadix.LowerBound

namespace RadixBench.WideRadix

open Foundation Memory

/-- The insertion of `key`, at level `7 - rem` in the node `current`, stops at `level`, where
`create_node` returns `NULL`. -/
inductive FailsAt (A : Allocator) (key : BitVec 64) : ℕ → Memory WideRadixNode → ℕ → ℕ → Prop
  | stop {rem : ℕ} {m m' : Memory WideRadixNode} {current : ℕ} :
      ¬ maskGetBit (m.cell current).childMask (extractByte key (7 - rem)) = true →
      createNode A m (decide (rem = 0)) = (none, m') → FailsAt A key rem m current (7 - rem)
  | child {rem : ℕ} {m : Memory WideRadixNode} {current next level : ℕ} :
      maskGetBit (m.cell current).childMask (extractByte key (7 - (rem + 1))) = true →
      (m.cell current).children (extractByte key (7 - (rem + 1))) = some next →
      FailsAt A key rem m next level → FailsAt A key (rem + 1) m current level
  | created {rem : ℕ} {m m' : Memory WideRadixNode} {current newNode level : ℕ} :
      ¬ maskGetBit (m.cell current).childMask (extractByte key (7 - (rem + 1))) = true →
      createNode A m false = (some newNode, m') →
      FailsAt A key rem (setChild m' current (extractByte key (7 - (rem + 1))) newNode) newNode
        level → FailsAt A key (rem + 1) m current level

variable {A : Allocator} {m m' m'' : Memory WideRadixNode} {root : ℕ} {path : List (BitVec 8)}

structure Extended (m m' : Memory WideRadixNode) (root : ℕ) (path : List (BitVec 8)) :
    Prop where
  at_mono : ∀ {q y}, At m root q y → At m' root q y
  hasNode : ∀ q, HasNode m' root q ↔ HasNode m root q ∨ q <+: path
  value : ∀ {q y}, At m root q y → (m'.cell y).value = (m.cell y).value

theorem Extended.of_cell (hc : m'.cell = m.cell) {x : ℕ} (hx : At m root path x) :
    Extended m m' root path := by
  have hnext : next m' = next m := by
    funext y d
    rw [next, next, hc]
  have hat : ∀ q y, At m' root q y ↔ At m root q y := fun q y ↦ by rw [At, At, hnext]
  refine ⟨fun hy ↦ (hat _ _).mpr hy, fun q ↦ ?_, fun _ ↦ by rw [hc]⟩
  simp only [HasNode, hat]
  exact (or_iff_left_of_imp fun hq ↦ hx.hasNode_prefix hq).symm

theorem Extended.trans {p : List (BitVec 8)} (h : Extended m m' root p)
    (h' : Extended m' m'' root path) (hp : p <+: path) : Extended m m'' root path := by
  refine ⟨fun hy ↦ h'.at_mono (h.at_mono hy), fun q ↦ ?_, fun hy ↦ ?_⟩
  · rw [h'.hasNode, h.hasNode, or_assoc]
    exact or_congr_right (or_iff_right_of_imp fun hq ↦ hq.trans hp)
  · rw [h'.value (h.at_mono hy), h.value hy]

/-- A failed insertion leaves the nodes on the path of the key down to the level where it
failed. -/
theorem insertFrom_failed {key : BitVec 64} (value : BitVec 64) {rem x level : ℕ}
    (hfail : FailsAt A key rem m x level) {p : List (BitVec 8)} (h : Sound m root)
    (hx : At m root p x) (hlen : p.length + rem = 7) :
    p.length ≤ level ∧ level ≤ 7 ∧ ∃ m', insertFrom A key value rem m x = .ok (false, m') ∧
      Sound m' root ∧ Extended m m' root ((p ++ digits key (rem + 1)).take level) := by
  induction hfail generalizing p with
  | @stop rem m m' x hbit hcreate =>
    have hpath : (p ++ digits key (rem + 1)).take (7 - rem) = p := by
      rw [← hlen, Nat.add_sub_cancel, List.take_left]
    obtain ⟨m₁, heq, hl, hc, -⟩ | ⟨a, m₁, heq, -⟩ := createNode_cases A m (decide (rem = 0))
    · rw [hcreate, Prod.mk.injEq] at heq
      obtain ⟨-, rfl⟩ := heq
      refine ⟨by omega, by omega, m', ?_, (h.congr hl hc).1, ?_⟩
      · cases rem with
        | zero => rw [insertFrom, if_neg hbit, show createNode A m true = _ from hcreate]
        | succ rem => rw [insertFrom, if_neg hbit, show createNode A m false = _ from hcreate]
      · rw [hpath]
        exact .of_cell hc hx
    · rw [hcreate] at heq
      cases heq
  | @child rem m x y level hbit hchild _ ih =>
    have hbyte := extractByte_eq key (rem + 1) (by omega)
    have hfull := append_digits p key (rem + 1)
    rw [hbyte] at hchild
    obtain ⟨hle, hle', m', hrun, hs, hext⟩ :=
      ih h (at_snoc.mpr ⟨x, hx, by omega, hchild⟩) (by simp; omega)
    rw [List.length_append, List.length_singleton] at hle
    refine ⟨by omega, hle', m', ?_, hs, hfull ▸ hext⟩
    rw [insertFrom, if_pos hbit, hbyte, hchild, require_some, ok_bind]
    exact hrun
  | @created rem m m₁ x a level hbit hcreate _ ih =>
    have hbyte := extractByte_eq key (rem + 1) (by omega)
    have hfull := append_digits p key (rem + 1)
    have hnone : (m.cell x).children (digit key (rem + 1)) = none := by
      rw [maskGetBit_eq, hbyte] at hbit
      exact h.child_none hx hbit
    have ha : Created m m₁ a false 0#64 := by
      obtain ⟨m₂, heq, -⟩ | ⟨a', m₂, heq, ha⟩ := createNode_cases A m false
      · rw [hcreate] at heq
        cases heq
      · rw [hcreate, Prod.mk.injEq, Option.some.injEq] at heq
        obtain ⟨rfl, rfl⟩ := heq
        exact ha
    rw [hbyte] at ih
    obtain ⟨hs, hat, hvalue, -, -⟩ := h.link hx (by omega) hnone
      (iff_of_false Bool.false_ne_true (by omega)) ha
    obtain ⟨hle, hle', m', hrun, hs', hext⟩ :=
      ih hs ((hat _ a).mpr (.inr ⟨rfl, rfl⟩)) (by simp; omega)
    rw [List.length_append, List.length_singleton] at hle
    refine ⟨by omega, hle', m', ?_, hs', ?_⟩
    · rw [insertFrom, if_neg hbit, hcreate, hbyte]
      exact hrun
    · have hstep : Extended m (setChild m₁ x (digit key (rem + 1)) a) root
          (p ++ [digit key (rem + 1)]) :=
        ⟨fun hy ↦ (hat _ _).mpr (.inl hy), hasNode_link hx hat, fun hy ↦ hvalue _ _ hy⟩
      rw [hfull]
      exact hstep.trans hext (snoc_le_take hle)

theorem exists_failsAt {key value : BitVec 64} {rem x : ℕ} {p : List (BitVec 8)}
    (h : Sound m root) (hx : At m root p x) (hlen : p.length + rem = 7)
    (hrun : insertFrom A key value rem m x = .ok (false, m')) :
    ∃ level, FailsAt A key rem m x level := by
  induction rem generalizing m p x with
  | zero =>
    rw [insertFrom] at hrun
    by_cases hbit : maskGetBit (m.cell x).childMask (extractByte key 7) = true
    · rw [if_pos hbit] at hrun
      obtain ⟨leaf, -, hrun⟩ := bind_eq_ok.mp hrun
      obtain ⟨_, -, hrun⟩ := bind_eq_ok.mp hrun
      cases hrun
    · rw [if_neg hbit] at hrun
      cases hcreate : createNode A m true with
      | mk a m₁ =>
        rw [hcreate] at hrun
        cases a with
        | none => exact ⟨7, .stop hbit hcreate⟩
        | some a => cases hrun
  | succ rem ih =>
    have hbyte := extractByte_eq key (rem + 1) (by omega)
    have hlen' : (p ++ [digit key (rem + 1)]).length + rem = 7 := by
      rw [List.length_append, List.length_singleton]
      omega
    rw [insertFrom] at hrun
    by_cases hbit : maskGetBit (m.cell x).childMask (extractByte key (7 - (rem + 1))) = true
    · rw [if_pos hbit] at hrun
      obtain ⟨y, hy, hrun⟩ := bind_eq_ok.mp hrun
      cases hchild : (m.cell x).children (extractByte key (7 - (rem + 1))) with
      | none =>
        rw [hchild] at hy
        cases hy
      | some z =>
        rw [hchild, require_some, Except.ok.injEq] at hy
        obtain rfl := hy
        obtain ⟨level, hfail⟩ := ih h (at_snoc.mpr ⟨x, hx, by omega, hbyte ▸ hchild⟩) hlen' hrun
        exact ⟨level, .child hbit hchild hfail⟩
    · rw [if_neg hbit] at hrun
      have hnone : (m.cell x).children (digit key (rem + 1)) = none := by
        rw [maskGetBit_eq, hbyte] at hbit
        exact h.child_none hx hbit
      obtain ⟨m₁, hcreate, -⟩ | ⟨a, m₁, hcreate, ha⟩ := createNode_cases A m false
      · exact ⟨_, .stop hbit hcreate⟩
      · rw [hcreate] at hrun
        obtain ⟨hs, hat, -⟩ := h.link hx (by omega) hnone
          (iff_of_false Bool.false_ne_true (by omega)) ha
        obtain ⟨level, hfail⟩ :=
          ih hs ((hat _ a).mpr (.inr ⟨rfl, rfl⟩)) hlen' (hbyte ▸ hrun)
        exact ⟨level, .created hbit hcreate (hbyte.symm ▸ hfail)⟩

end RadixBench.WideRadix
