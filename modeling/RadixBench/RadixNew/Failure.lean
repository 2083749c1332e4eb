import RadixBench.RadixNew.Insertion

namespace RadixBench.RadixNew

open Foundation Memory Pool WideRadixTree

/-- The insertion of `key` stops at `level`, where `objectPoolAlloc` returns `NULL`; it has come
to the node `x`, with `rem` levels below. -/
inductive FailsAt (A : Allocator) (key : BitVec 64) : ℕ → WideRadixTree → NodePtr → ℕ → Prop
  | stop {rem : ℕ} {t : WideRadixTree} {x : NodePtr} :
      (t.node x).children (hi (digit key rem)) = none →
      (objectPoolAlloc A (t.pool (rem = 0)) t.memory).1 = none →
      FailsAt A key rem t x (t.numLevels - 1 - rem)
  | goOn {rem : ℕ} {t t' : WideRadixTree} {x : NodePtr} {block level : ℕ} :
      t.enter A x (digit key (rem + 1)) false = (some block, t') →
      FailsAt A key rem t' (.item block (lo (digit key (rem + 1)))) level →
      FailsAt A key (rem + 1) t x level

namespace WideRadixTree

variable {A : Allocator} {t t' t'' : WideRadixTree} {live : Bool → List ℕ}

structure Extended (t t' : WideRadixTree) (path : List (BitVec 8)) : Prop
    extends SameContent t t' where
  hasBit : ∀ r e, t'.HasBit r e ↔ t.HasBit r e ∨ r ++ [e] <+: path

theorem Entered.extended {p path : List (BitVec 8)} {x : NodePtr} {d : BitVec 8} {b : ℕ}
    (h : Entered t t' p x d b) (h' : Extended t' t'' path) (hp : p ++ [d] <+: path) :
    Extended t t'' path := by
  refine ⟨h.toSameContent.trans h'.toSameContent, fun r e ↦ ?_⟩
  rw [h'.hasBit, h.hasBit, or_assoc]
  refine or_congr_right (or_iff_right_of_imp ?_)
  rintro ⟨rfl, rfl⟩
  exact hp

/-- A failed insertion has marked the bytes of the levels above the failure. -/
theorem insertFrom_failed {key : BitVec 64} (v : BitVec 64) {rem level : ℕ} {x : NodePtr}
    (hfail : FailsAt A key rem t x level) (h : t.Sound live) {p : List (BitVec 8)}
    (hx : t.At p x) (hlen : p.length + rem + 1 = t.numLevels)
    (hpath : ∀ q e, q ++ [e] <+: p → t.HasBit q e) :
    p.length ≤ level ∧ level < t.numLevels ∧ ∃ t' live',
      t.insertFrom A key v rem x = (-1, 0#64, t') ∧ t'.Sound live' ∧
      Extended t t' ((p ++ digits key (rem + 1)).take level) := by
  induction hfail generalizing p live with
  | @stop rem t x hnull halloc =>
    have hlevel : t.numLevels - 1 - rem = p.length := by omega
    have hleaf : t.isLast p = decide (rem = 0) := decide_eq_decide.mpr (by omega)
    obtain ⟨t', henter, hs, hsame, hbits, -⟩ := enter_failed A h hx hnull (hleaf ▸ halloc)
    rw [hleaf] at henter
    rw [hlevel, List.take_left]
    refine ⟨le_rfl, by omega, t', live, ?_, hs, hsame, fun r e ↦ ?_⟩
    · cases rem with
      | zero =>
        rw [decide_eq_true rfl] at henter
        simp only [insertFrom, henter]
      | succ rem =>
        rw [decide_eq_false (Nat.succ_ne_zero rem)] at henter
        simp only [insertFrom, henter]
    · rw [hbits]
      exact (or_iff_left_of_imp (hpath r e)).symm
  | @goOn rem t t₁ x b level henter _ ih =>
    have hleaf : t.isLast p = false := decide_eq_false (by omega)
    have hstep := enter_cases A h hx (digit key (rem + 1)) fun q e hq ↦
      hpath q e (hq ▸ List.prefix_rfl)
    rw [hleaf, henter] at hstep
    obtain ⟨_, heq, -⟩ | ⟨_, _, live₁, heq, hs, he⟩ := hstep
    · cases heq
    · cases heq
      have hn := he.numLevels
      obtain ⟨hle, hlt, t', live', hrun, hs', hext⟩ := ih hs
        (at_snoc.mpr ⟨x, b, he.at_self, he.child, by omega, rfl⟩) (by simp; omega)
        fun q e ↦ he.marked hpath
      rw [List.length_append, List.length_singleton] at hle
      have hfull := append_digits p key (rem + 1)
      rw [hfull]
      refine ⟨by omega, hn ▸ hlt, t', live', ?_, hs', he.extended hext (snoc_le_take hle)⟩
      simp only [insertFrom, henter, hrun]

theorem enter_none {x : NodePtr} {d : BitVec 8} {leaf : Bool}
    (hrun : t.enter A x d leaf = (none, t')) :
    (t.node x).children (hi d) = none ∧ (objectPoolAlloc A (t.pool leaf) t.memory).1 = none := by
  cases hb : (t.node x).children (hi d) with
  | some b =>
    simp only [enter, hb] at hrun
    cases hrun
  | none =>
    cases halloc : objectPoolAlloc A (t.pool leaf) t.memory with
    | mk a rest =>
      cases a with
      | none => exact ⟨rfl, rfl⟩
      | some a =>
        simp only [enter, hb, halloc, node_setNode_self, Function.update_self] at hrun
        cases hrun

theorem exists_failsAt {key v v' : BitVec 64} {rem : ℕ} {x : NodePtr}
    (hrun : t.insertFrom A key v rem x = (-1, v', t')) :
    ∃ level, FailsAt A key rem t x level := by
  induction rem generalizing t x with
  | zero =>
    cases henter : t.enter A x (digit key 0) true with
    | mk a t₁ =>
      cases a with
      | none =>
        obtain ⟨hnull, halloc⟩ := enter_none henter
        exact ⟨_, .stop hnull halloc⟩
      | some b =>
        simp only [insertFrom, henter] at hrun
        cases hrun
  | succ rem ih =>
    cases henter : t.enter A x (digit key (rem + 1)) false with
    | mk a t₁ =>
      cases a with
      | none =>
        obtain ⟨hnull, halloc⟩ := enter_none henter
        exact ⟨_, .stop hnull (by rwa [decide_eq_false (Nat.succ_ne_zero rem)])⟩
      | some b =>
        simp only [insertFrom, henter] at hrun
        obtain ⟨level, hfail⟩ := ih hrun
        exact ⟨level, .goOn henter hfail⟩

end WideRadixTree

end RadixBench.RadixNew
