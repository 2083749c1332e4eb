import RadixBench.RadixNew.Clearing
import RadixBench.RadixNew.Insertion

namespace RadixBench.RadixNew

open Foundation Memory Pool

/-- `treeRemove` splits keys into the same bytes as the other operations. -/
theorem getKeyLevelBits_eq (key : BitVec 64) (n : ℕ) :
    getKeyLevelBits key n = (digits key n).map fun d ↦ (hi d, lo d) := by
  induction n generalizing key with
  | zero => rfl
  | succ n ih =>
    have hdigit := toNat_digit key 0
    rw [pow_zero, Nat.div_one] at hdigit
    have hidx : Fin.ofNat 4 ((key &&& 0xC0#64) >>> 6).toNat = hi (digit key 0) := by
      apply Fin.ext
      rw [hi_val, hdigit, BitVec.ushiftRight_and_distrib, BitVec.toNat_and,
        BitVec.toNat_ushiftRight, Nat.shiftRight_eq_div_pow, Fin.val_ofNat]
      have hmask := Nat.and_two_pow_sub_one_eq_mod (key.toNat / 2 ^ 6) 2
      have hthree : (0xC0#64 >>> 6).toNat = 2 ^ 2 - 1 := rfl
      rw [hthree, hmask]
      omega
    have hchild : Fin.ofNat 64 (key &&& 0x3F#64).toNat = lo (digit key 0) := by
      apply Fin.ext
      rw [lo_val, hdigit, BitVec.toNat_and, Fin.val_ofNat]
      have hmask := Nat.and_two_pow_sub_one_eq_mod key.toNat 6
      have hlow : (0x3F#64).toNat = 2 ^ 6 - 1 := rfl
      rw [hlow, hmask]
      omega
    rw [getKeyLevelBits, ih, digits_snoc, List.map_append, hidx, hchild]
    rfl

namespace WideRadixTree

variable {t t' : WideRadixTree} {live : Bool → List ℕ}

/-- The entries of a stack of `treeRemove` are the nodes along the bytes of a path,
the deepest first. -/
inductive Trail (t : WideRadixTree) :
    List (NodePtr × Fin 4 × Fin 64) → List (BitVec 8) → Prop
  | nil : Trail t [] []
  | push {stack p x d} : Trail t stack p → t.At p x →
      Trail t ((x, hi d, lo d) :: stack) (p ++ [d])

theorem Trail.length {stack : List (NodePtr × Fin 4 × Fin 64)} {p : List (BitVec 8)}
    (h : Trail t stack p) : stack.length = p.length := by
  induction h with
  | nil => rfl
  | push _ _ ih => rw [List.length_cons, List.length_append, ih, List.length_singleton]

theorem Trail.mono {stack : List (NodePtr × Fin 4 × Fin 64)} {p : List (BitVec 8)}
    (h : Trail t stack p) (hat : ∀ {q y}, q.length < p.length → t.At q y → t'.At q y) :
    Trail t' stack p := by
  induction h with
  | nil => exact .nil
  | push _ hx ih =>
    refine .push (ih fun hq ↦ hat ?_) (hat ?_ hx)
    · rw [List.length_append]
      omega
    · rw [List.length_append, List.length_singleton]
      omega

/-- What the second loop of `treeRemove` leaves of the presence bits along a path. A
bit of the path that stays set below the root has another set bit underneath. -/
structure Unmarked (t t' : WideRadixTree) (path : List (BitVec 8)) : Prop
    extends SameContent t t' where
  failures : t'.memory.failures = t.memory.failures
  of_hasBit : ∀ {r e}, t'.HasBit r e → t.HasBit r e
  hasBit_of : ∀ {r e}, t.HasBit r e → r = [] ∨ ¬ r ++ [e] <+: path → t'.HasBit r e
  supported : ∀ {r e}, t'.HasBit r e → r ≠ [] → r ++ [e] <+: path →
    ∃ r' e', r ++ [e] <+: r' ∧ t'.HasBit r' e' ∧ ¬ r' ++ [e'] <+: path

namespace Cleared

variable {p : List (BitVec 8)} {d : BitVec 8}

theorem prefix_of_hasBit (hc : Cleared t t' p d) {r : List (BitVec 8)} {e : BitVec 8}
    (hb : t'.HasBit r e) (hpre : r ++ [e] <+: p ++ [d]) : r ++ [e] <+: p := by
  rcases concat_prefix_concat.mp hpre with hpre | hend
  · exact hpre
  · exact absurd hend ((hc.hasBit r e).mp hb).2

theorem hasBit_of (hc : Cleared t t' p d) (hp : p ≠ []) {r : List (BitVec 8)} {e : BitVec 8}
    (hb : t.HasBit r e) (hr : r = [] ∨ ¬ r ++ [e] <+: p ++ [d]) : t'.HasBit r e := by
  refine (hc.hasBit r e).mpr ⟨hb, ?_⟩
  rintro ⟨rfl, rfl⟩
  rcases hr with hr | hr
  · exact hp hr
  · exact hr List.prefix_rfl

theorem stop (hc : Cleared t t' p d) (hp : p ≠ []) {e : BitVec 8} (hleft : t'.HasBit p e) :
    Unmarked t t' (p ++ [d]) := by
  refine ⟨hc.toSameContent, hc.failures, fun hb ↦ ((hc.hasBit _ _).mp hb).1,
    fun hb hr ↦ hc.hasBit_of hp hb hr, fun hb _ hpre ↦ ?_⟩
  refine ⟨p, e, hc.prefix_of_hasBit hb hpre, hleft, fun hpre' ↦ ?_⟩
  have hlen := (hc.prefix_of_hasBit hleft hpre').length_le
  rw [List.length_append, List.length_singleton] at hlen
  omega

theorem trans {t'' : WideRadixTree} (hc : Cleared t t' p d) (hp : p ≠ [])
    (hu : Unmarked t' t'' p) : Unmarked t t'' (p ++ [d]) := by
  refine ⟨hc.toSameContent.trans hu.toSameContent, hu.failures.trans hc.failures,
    fun hb ↦ ((hc.hasBit _ _).mp (hu.of_hasBit hb)).1, fun hb hr ↦ ?_, fun hb hr hpre ↦ ?_⟩
  · refine hu.hasBit_of (hc.hasBit_of hp hb hr) ?_
    exact hr.imp_right fun hn hpre ↦ hn (hpre.trans (List.prefix_append _ _))
  · obtain ⟨r, e, hle, hb', hn⟩ :=
      hu.supported hb hr (hc.prefix_of_hasBit (hu.of_hasBit hb) hpre)
    exact ⟨r, e, hle, hb', fun hpre' ↦ hn (hc.prefix_of_hasBit (hu.of_hasBit hb') hpre')⟩

end Cleared

theorem exists_bit {m : Mask} (h : m 0 ≠ 0#64 ∨ m 1 ≠ 0#64 ∨ m 2 ≠ 0#64 ∨ m 3 ≠ 0#64) :
    ∃ e, m.has e = true := by
  by_contra hnone
  push Not at hnone
  have hword : ∀ i, m i = 0#64 := fun i ↦
    (Mask.word_eq_zero m i).mpr fun e _ ↦ Bool.eq_false_of_not_eq_true (hnone e)
  simp only [hword, ne_eq, not_true, or_false] at h

theorem Sound.node_eq_zero (h : t.Sound live) {p : List (BitVec 8)} {x : NodePtr} (hx : t.At p x)
    (hbits : (t.node x).bits 0 = 0#64 ∧ (t.node x).bits 1 = 0#64 ∧ (t.node x).bits 2 = 0#64 ∧
      (t.node x).bits 3 = 0#64) : t.node x = 0 := by
  have hword : ∀ i, (t.node x).bits i = 0#64 := fun
    | 0 => hbits.1
    | 1 => hbits.2.1
    | 2 => hbits.2.2.1
    | 3 => hbits.2.2.2
  have hnull : ∀ i, (t.node x).children i = none := fun i ↦ (h.null_iff hx).mpr (hword i)
  calc t.node x = ⟨(t.node x).bits, (t.node x).children⟩ := rfl
    _ = 0 := by rw [funext hword, funext hnull]; rfl

theorem removeClear_unmarked {stack : List (NodePtr × Fin 4 × Fin 64)} {q : List (BitVec 8)}
    {x : NodePtr} {d : BitVec 8} (h : t.Sound live) (htrail : Trail t stack q) (hx : t.At q x)
    (hzero : ∀ b, (t.node x).children (hi d) = some b → t.SlotZero (t.isLast q) b (lo d)) :
    ∃ live', (t.removeClear ((x, hi d, lo d) :: stack)).Sound live' ∧
      Unmarked t (t.removeClear ((x, hi d, lo d) :: stack)) (q ++ [d]) := by
  induction stack generalizing t live q x d with
  | nil =>
    cases htrail
    refine ⟨live, h, ⟨⟨rfl, fun _ _ ↦ rfl⟩, rfl, id, fun hb _ ↦ hb, fun {r e} _ hr hpre ↦ ?_⟩⟩
    have hlen := hpre.length_le
    have hpos := List.length_pos_iff.mpr hr
    simp only [List.nil_append, List.length_append, List.length_singleton] at hlen
    omega
  | cons entry stack ih =>
    cases htrail with
    | @push stack p y d₀ htrail hy =>
      set s := (y, hi d₀, lo d₀) :: stack with hs
      have hlast : (decide (s.length = t.numLevels - 1)) = t.isLast (p ++ [d₀]) := by
        have hlen := htrail.length
        have hlt := hx.1
        rw [hs, List.length_cons, isLast, List.length_append, List.length_singleton] at *
        exact decide_eq_decide.mpr (by omega)
      obtain ⟨live₁, h₁, hc⟩ := h.clearSlot hx hzero
      set t₁ := t.clearSlot x (hi d) (lo d) (t.isLast (p ++ [d₀])) with ht₁
      have hx₁ : t₁.At (p ++ [d₀]) x := hc.at_above le_rfl hx
      have hne : p ++ [d₀] ≠ [] := by simp
      have hstep : t.removeClear ((x, hi d, lo d) :: s) =
          if (t₁.node x).bits 0 ≠ 0#64 ∨ (t₁.node x).bits 1 ≠ 0#64 ∨ (t₁.node x).bits 2 ≠ 0#64 ∨
            (t₁.node x).bits 3 ≠ 0#64 then t₁ else t₁.removeClear s := by
        rw [hs, removeClear, ← hs, hlast]
      rw [hstep]
      split_ifs with hbits
      · obtain ⟨e, he⟩ := exists_bit hbits
        exact ⟨live₁, h₁, hc.stop hne ⟨x, hx₁, he⟩⟩
      · -- the node is empty, so the bit that leads to it may go as well
        have hnode : t₁.node x = 0 := h₁.node_eq_zero hx₁ (by simpa only [not_or, not_not] using hbits)
        have habove : ∀ {q y}, q.length ≤ p.length → t.At q y → t₁.At q y := by
          intro q y hq hy
          refine hc.at_above ?_ hy
          rw [List.length_append]
          omega
        have hy₁ := habove le_rfl hy
        have htrail₁ : Trail t₁ stack p := htrail.mono fun hq hz ↦ habove hq.le hz
        have hzero₁ : ∀ b, (t₁.node y).children (hi d₀) = some b →
            t₁.SlotZero (t₁.isLast p) b (lo d₀) := by
          intro b hb
          have hlt := hx₁.1
          rw [List.length_append, List.length_singleton] at hlt
          have hchild : t₁.At (p ++ [d₀]) (.item b (lo d₀)) := at_snoc.mpr ⟨y, b, hy₁, hb, hlt, rfl⟩
          have hxb := hx₁.unique hchild
          rw [slotZero_inner hlt, ← hxb, hnode]
        obtain ⟨live₂, h₂, hu⟩ := ih h₁ htrail₁ hy₁ hzero₁
        exact ⟨live₂, h₂, hc.trans hne hu⟩

/-- The descent of `treeRemove` stops at the last level or above a missing block. -/
theorem removePath_trail {ds : List (BitVec 8)} (hds : ds ≠ []) {p : List (BitVec 8)}
    {x : NodePtr} {stack : List (NodePtr × Fin 4 × Fin 64)} (htrail : Trail t stack p)
    (hx : t.At p x) (hlen : p.length + ds.length = t.numLevels) :
    ∃ y q d rest, t.removePath (ds.map fun d ↦ (hi d, lo d)) x stack = (y, hi d, lo d) :: rest ∧
      Trail t rest q ∧ t.At q y ∧ q ++ [d] <+: p ++ ds ∧
      (q.length + 1 = t.numLevels ∨
        q.length + 1 < t.numLevels ∧ (t.node y).children (hi d) = none) := by
  induction ds generalizing p x stack with
  | nil => exact absurd rfl hds
  | cons d ds ih =>
    cases ds with
    | nil =>
      refine ⟨x, p, d, stack, rfl, htrail, hx, List.prefix_rfl, .inl ?_⟩
      simpa using hlen
    | cons e ds =>
      simp only [List.length_cons] at hlen
      cases hb : (t.node x).children (hi d) with
      | none =>
        refine ⟨x, p, d, stack, ?_, htrail, hx, ?_, .inr ⟨by omega, hb⟩⟩
        · simp only [List.map_cons, removePath, hb]
        · exact ⟨e :: ds, by rw [List.append_assoc]; rfl⟩
      | some b =>
        have hchild : t.At (p ++ [d]) (.item b (lo d)) := at_snoc.mpr ⟨x, b, hx, hb, by omega, rfl⟩
        have hfull : p ++ [d] ++ e :: ds = p ++ d :: e :: ds := by
          rw [List.append_assoc]
          rfl
        have hnext := ih (List.cons_ne_nil e ds) (.push htrail hx) hchild (by
          rw [List.length_append, List.length_singleton, List.length_cons]
          omega)
        rw [hfull] at hnext
        obtain ⟨y, q, f, rest, heq, hrest⟩ := hnext
        refine ⟨y, q, f, rest, ?_, hrest⟩
        rw [← heq]
        simp only [List.map_cons, removePath, hb]

structure Removed (t t' : WideRadixTree) (q : List (BitVec 8)) (d : BitVec 8) : Prop where
  numLevels : t'.numLevels = t.numLevels
  failures : t'.memory.failures = t.memory.failures
  content : ∀ {r} e, r.length + 1 = t.numLevels →
    t'.content r e = if r = q ∧ e = d then 0#64 else t.content r e
  of_hasBit : ∀ {r e}, t'.HasBit r e → t.HasBit r e
  hasBit_of : ∀ {r e}, t.HasBit r e → r = [] ∨ ¬ r ++ [e] <+: q ++ [d] → t'.HasBit r e
  supported : ∀ {r e}, t'.HasBit r e → r ≠ [] → r ++ [e] <+: q ++ [d] →
    ∃ r' e', r ++ [e] <+: r' ∧ t'.HasBit r' e' ∧ ¬ r' ++ [e'] <+: q ++ [d]

theorem content_of_walk_none {q : List (BitVec 8)} (d : BitVec 8)
    (h : walk t.next .root q = none) : t.content q d = 0#64 := by
  simp only [content, h]

theorem not_at_below_null {p q : List (BitVec 8)} {d : BitVec 8} {x : NodePtr} (hx : t.At p x)
    (hnull : (t.node x).children (hi d) = none) (hpre : p ++ [d] <+: q) :
    walk t.next .root q = none := by
  obtain ⟨r, rfl⟩ := hpre
  rw [walk_append, walk_snoc, hx.2, Option.bind_some, next, hnull]
  rfl

theorem HasBit.above_null {p full r : List (BitVec 8)} {d e : BitVec 8} {x : NodePtr}
    (hbit : t.HasBit r e) (hx : t.At p x) (hnull : (t.node x).children (hi d) = none)
    (hpre : p ++ [d] <+: full) (hle : r ++ [e] <+: full) : r ++ [e] <+: p ++ [d] := by
  obtain ⟨y, hy, -⟩ := hbit
  rcases List.prefix_or_prefix_of_prefix hle hpre with hle | hle
  · exact hle
  · rcases concat_prefix_concat.mp hle with hle | ⟨rfl, rfl⟩
    · have hw := not_at_below_null hx hnull hle
      rw [hy.2] at hw
      cases hw
    · exact List.prefix_rfl

/-- Bytes of the key that the descent did not reach carry no presence bits. -/
theorem Unmarked.extend {path full : List (BitVec 8)} (hu : Unmarked t t' path)
    (hpre : path <+: full)
    (hfull : ∀ r e, t.HasBit r e → r ++ [e] <+: full → r ++ [e] <+: path) :
    Unmarked t t' full := by
  refine ⟨hu.toSameContent, hu.failures, hu.of_hasBit, fun hb hr ↦ ?_, fun hb hr hle ↦ ?_⟩
  · exact hu.hasBit_of hb (hr.imp_right fun hn hle ↦ hn (hle.trans hpre))
  · obtain ⟨r', e', hle', hb', hn⟩ := hu.supported hb hr (hfull _ _ (hu.of_hasBit hb) hle)
    exact ⟨r', e', hle', hb', fun hf ↦ hn (hfull _ _ (hu.of_hasBit hb') hf)⟩

theorem Unmarked.removed {q : List (BitVec 8)} {d : BitVec 8} (hu : Unmarked t t' (q ++ [d]))
    (hzero : t.content q d = 0#64) : Removed t t' q d := by
  refine ⟨hu.numLevels, hu.failures, fun {r} e hr ↦ ?_, hu.of_hasBit, hu.hasBit_of, hu.supported⟩
  rw [hu.content e hr]
  split_ifs with hre
  · rw [hre.1, hre.2, hzero]
  · rfl

theorem Removed.of_setValue (h : t.Sound live) {q : List (BitVec 8)} {x : NodePtr} {d : BitVec 8}
    {b : ℕ} (hx : t.At q x) (hb : (t.node x).children (hi d) = some b)
    (hr : Removed (t.setValue b (lo d) 0#64) t' q d) : Removed t t' q d := by
  refine ⟨hr.numLevels, hr.failures, fun {r} e hre ↦ ?_, fun hb' ↦ ?_, fun hb' ↦ ?_, hr.supported⟩
  · rw [hr.content e hre, h.setValue_content hx hb 0#64 e (by omega)]
    split_ifs <;> rfl
  · exact (hasBit_setValue _ _).mp (hr.of_hasBit hb')
  · exact hr.hasBit_of ((hasBit_setValue _ _).mpr hb')

theorem treeRemove_removed (h : t.Sound live) (key : BitVec 64) :
    ∃ q d live', q ++ [d] = digits key t.numLevels ∧
      (treeRemove t key).1 = t.content q d ∧ (treeRemove t key).2.Sound live' ∧
      Removed t (treeRemove t key).2 q d := by
  have hpos := h.levels_pos
  have hne : digits key t.numLevels ≠ [] := by
    rw [← List.length_pos_iff, length_digits]
    exact hpos
  obtain ⟨x, q, d, rest, hstack, htrail, hx, hpre, hend⟩ :=
    removePath_trail (p := []) hne .nil (at_nil hpos) (by simp)
  rw [List.nil_append] at hpre
  rw [← getKeyLevelBits_eq] at hstack
  have hlen := htrail.length
  simp only [treeRemove, hstack, removeValue]
  rcases hend with hlast | ⟨hlt, hnull⟩
  · have hpath : q ++ [d] = digits key t.numLevels := hpre.eq_of_length (by simpa using hlast)
    have hleaf : t.isLast q = true := decide_eq_true hlast
    rw [if_pos (by omega)]
    cases hb : (t.node x).children (hi d) with
    | none =>
      obtain ⟨live', h', hu⟩ := removeClear_unmarked h htrail hx fun b hb' ↦ by
        rw [hb] at hb'
        cases hb'
      have hzero := content_of_null hx hb
      exact ⟨q, d, live', hpath, hzero.symm, h', hu.removed hzero⟩
    | some b =>
      have h₀ := h.setValue hx hb hleaf (v := 0#64) (.inl rfl)
      have hat := at_congr t (t.setValue b (lo d) 0#64) rfl fun _ y _ ↦ by rw [node_setValue]
      obtain ⟨live', h', hu⟩ := removeClear_unmarked h₀ (d := d)
        (htrail.mono fun _ hy ↦ (hat _ _).mpr hy) ((hat q x).mpr hx) fun b' hb' ↦ by
          rw [node_setValue, hb] at hb'
          cases hb'
          change SlotZero _ (t.isLast q) _ _
          rw [hleaf, SlotZero, if_pos rfl, value_setValue_self]
      have hzero : (t.setValue b (lo d) 0#64).content q d = 0#64 := by
        rw [h.setValue_content hx hb 0#64 d hx.1]
        exact if_pos ⟨rfl, rfl⟩
      exact ⟨q, d, live', hpath, (content_of_at hx hb).symm, h',
        .of_setValue h hx hb (hu.removed hzero)⟩
  · rw [if_neg (by omega)]
    obtain ⟨live', h', hu⟩ := removeClear_unmarked h htrail hx fun b hb' ↦ by
      rw [hnull] at hb'
      cases hb'
    obtain ⟨last, hn⟩ := Nat.exists_eq_succ_of_ne_zero hpos.ne'
    have hfull : digits key t.numLevels = digits (key >>> 8) last ++ [digit key 0] := by
      rw [hn]
      exact digits_snoc key last
    rw [hfull] at hpre
    have hinit : q ++ [d] <+: digits (key >>> 8) last := by
      rcases concat_prefix_concat.mp hpre with hle | ⟨hq, -⟩
      · exact hle
      · rw [hq, length_digits] at hlt
        omega
    have hzero := content_of_walk_none (digit key 0) (not_at_below_null hx hnull hinit)
    refine ⟨_, _, live', hfull.symm, hzero.symm, h', ?_⟩
    exact (hu.extend hpre fun r e hbit hle ↦ hbit.above_null hx hnull hpre hle).removed hzero

end WideRadixTree

end RadixBench.RadixNew
