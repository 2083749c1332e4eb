import RadixBench.Foundation.Branching
import RadixBench.RadixNew.BitScan
import RadixBench.RadixNew.Lookup

namespace RadixBench.RadixNew

open Foundation Memory Pool

namespace WideRadixTree

/-- The first loop of `treeFindGEQ`; the value that it returns, or the levels entered,
the deepest first. -/
def geqDescend (t : WideRadixTree) (key : BitVec 64) :
    ℕ → NodePtr → List (NodePtr × BitVec 8) → BitVec 64 ⊕ List (NodePtr × BitVec 8)
  | 0, x, stack =>
    let d := digit key 0
    if (t.node x).bits (hi d) &&& 1#64 <<< (lo d).val = 0#64 then .inr ((x, d) :: stack)
    else
      match (t.node x).children (hi d) with
      | none => .inl 0#64
      | some block => .inl (t.value block (lo d))
  | rem + 1, x, stack =>
    let d := digit key (rem + 1)
    if (t.node x).bits (hi d) &&& 1#64 <<< (lo d).val = 0#64 then .inr ((x, d) :: stack)
    else
      match (t.node x).children (hi d) with
      | none => .inl 0#64
      | some block => geqDescend t key rem (.item block (lo d)) ((x, d) :: stack)

/-- The second loop: the node and its level, with the bit to go on from. -/
def geqClimb (t : WideRadixTree) : List (NodePtr × BitVec 8) → Exec (Option (ℕ × NodePtr × ℕ))
  | [] => .error .uninitializedRead
  | (x, d) :: stack => do
    let firstSetBit ← getFirstSetBitInRange (t.node x).bits (d.toNat + 1) 255
    if firstSetBit ≤ 255 then .ok (some (stack.length, x, firstSetBit))
    else if stack.isEmpty then .ok none
    else geqClimb t stack

def readChild (n : WideRadixNode) (idx : ℕ) : Exec (Option ℕ) :=
  if h : idx < 4 then .ok (n.children ⟨idx, h⟩) else .error .indexOutOfRange

def geqLeftmost (t : WideRadixTree) : ℕ → NodePtr → ℕ → Exec (BitVec 64)
  | 0, x, firstSetBit => do
    let child ← readChild (t.node x) (firstSetBit >>> 6)
    let block ← deref child
    .ok (t.value block (Fin.ofNat 64 (firstSetBit &&& 0x3F)))
  | rem + 1, x, firstSetBit => do
    let child ← readChild (t.node x) (firstSetBit >>> 6)
    let block ← deref child
    let y := NodePtr.item block (Fin.ofNat 64 (firstSetBit &&& 0x3F))
    let firstSetBit ← getFirstSetBitInRange (t.node y).bits 0 255
    geqLeftmost t rem y firstSetBit

end WideRadixTree

def treeFindGEQ (t : WideRadixTree) (key : BitVec 64) : Exec (BitVec 64) :=
  match t.numLevels with
  | 0 => .error .uninitializedRead
  | last + 1 =>
    match t.geqDescend key last .root [] with
    | .inl v => .ok v
    | .inr stack => do
      match ← t.geqClimb stack with
      | none => .ok 0#64
      | some (level, x, firstSetBit) => t.geqLeftmost (last - level) x firstSetBit

namespace WideRadixTree

variable {t t' : WideRadixTree} {live : Bool → List ℕ}

def Present (t : WideRadixTree) (path : List (BitVec 8)) : Prop :=
  ∃ q d, q ++ [d] = path ∧ q.length + 1 = t.numLevels ∧ t.content q d ≠ 0#64

def Supported (t : WideRadixTree) : Prop :=
  ∀ {r e}, t.HasBit r e → r ≠ [] → ∃ path, t.Present path ∧ r ++ [e] <+: path

theorem Present.length {path : List (BitVec 8)} (h : t.Present path) :
    path.length = t.numLevels := by
  obtain ⟨q, d, rfl, hq, -⟩ := h
  rw [List.length_append, List.length_singleton, hq]

theorem Present.hasBit (h : t.Sound live) {path r : List (BitVec 8)} {e : BitVec 8}
    (hp : t.Present path) (hpre : r ++ [e] <+: path) : t.HasBit r e := by
  obtain ⟨q, d, rfl, hq, hne⟩ := hp
  exact h.hasBit_of_content hq hne hpre

theorem Present.exists_hasBit (h : t.Sound live) {path : List (BitVec 8)} (hp : t.Present path) :
    ∃ q d, path = q ++ [d] ∧ t.HasBit q d := by
  obtain ⟨q, d, rfl, hq, hne⟩ := hp
  exact ⟨q, d, rfl, h.hasBit_of_content hq hne List.prefix_rfl⟩

theorem readChild_digit (n : WideRadixNode) (d : BitVec 8) :
    readChild n (d.toNat >>> 6) = .ok (n.children (hi d)) := by
  have hd := d.isLt
  have hidx : d.toNat >>> 6 = (hi d).val := by
    rw [hi_val, Nat.shiftRight_eq_div_pow]
  rw [readChild, dif_pos (by rw [hidx]; exact (hi d).isLt)]
  congr

theorem child_digit (d : BitVec 8) : Fin.ofNat 64 (d.toNat &&& 0x3F) = lo d := by
  apply Fin.ext
  rw [lo_val, Fin.val_ofNat, show d.toNat &&& 0x3F = d.toNat % 64 from
    Nat.and_two_pow_sub_one_eq_mod _ 6]
  omega

theorem Sound.exists_block (h : t.Sound live) {p : List (BitVec 8)} {x : NodePtr}
    (hx : t.At p x) {d : BitVec 8} (hbit : (t.node x).bits.has d = true) :
    ∃ b, (t.node x).children (hi d) = some b := by
  refine Option.ne_none_iff_exists'.mp fun hnull ↦ ?_
  have hword := (Mask.word_eq_zero _ _).mp ((h.null_iff hx).mp hnull) d rfl
  rw [hword] at hbit
  cases hbit

theorem HasBit.length_lt {q : List (BitVec 8)} {d : BitVec 8} (h : t.HasBit q d) :
    q.length < t.numLevels := by
  obtain ⟨x, hx, -⟩ := h
  exact hx.1

theorem HasBit.of_le (h : t.Sound live) {q r : List (BitVec 8)} {d e : BitVec 8}
    (hq : t.HasBit q d) (hpre : r ++ [e] <+: q ++ [d]) : t.HasBit r e := by
  rcases concat_prefix_concat.mp hpre with hpre | ⟨rfl, rfl⟩
  · exact hq.above h hpre
  · exact hq

theorem HasBit.exists_next (h : t.Sound live) {p r : List (BitVec 8)} {d e : BitVec 8}
    (hr : t.HasBit r e) (hpre : p ++ [d] <+: r ++ [e]) :
    p ++ [d] = r ++ [e] ∨ ∃ c, t.HasBit (p ++ [d]) c ∧ p ++ [d] ++ [c] <+: r ++ [e] := by
  rcases Nat.lt_or_eq_of_le hpre.length_le with hlt | hlen
  · obtain ⟨c, hc⟩ := exists_digit hpre hlt
    exact .inr ⟨c, hr.of_le h hc, hc⟩
  · exact .inl (hpre.eq_of_length hlen)

/-- The path `q ++ [e]` is marked and belongs to `N`, no other such path comes before it, and
it goes on to no mark. -/
structure FirstEnd (t : WideRadixTree) (N : List (BitVec 8) → Prop) (q : List (BitVec 8))
    (e : BitVec 8) : Prop where
  hasBit : t.HasBit q e
  mem : N (q ++ [e])
  least : ∀ {r f}, t.HasBit r f → N (r ++ [f]) → ¬ Before (r ++ [f]) (q ++ [e])
  stuck : ∀ f, ¬ t.HasBit (q ++ [e]) f

/-- The value in the slot at the end of a path, and the read out of bounds at the end of one
that is too short. -/
def endResult (t : WideRadixTree) (q : List (BitVec 8)) (e : BitVec 8) : Exec (BitVec 64) :=
  if q.length + 1 = t.numLevels then .ok (t.content q e) else .error .indexOutOfRange

theorem geqLeftmost_end (h : t.Sound live) (rem : ℕ) {p : List (BitVec 8)} {x : NodePtr}
    (hx : t.At p x) (hlen : p.length + rem + 1 = t.numLevels) {d : BitVec 8}
    (hbit : t.HasBit p d) :
    ∃ q e, t.geqLeftmost rem x d.toNat = t.endResult q e ∧
      t.FirstEnd (fun s ↦ p ++ [d] <+: s) q e := by
  obtain ⟨b, hb⟩ := h.exists_block hx ((hx.hasBit d).mp hbit)
  induction rem generalizing p x d b with
  | zero =>
    refine ⟨p, d, ?_, hbit, List.prefix_rfl, fun _ hr hlt ↦ hlt.incomparable.2 hr, fun f hf ↦ ?_⟩
    · rw [geqLeftmost, readChild_digit, hb, child_digit, endResult, if_pos hlen,
        content_of_at hx hb]
      rfl
    · have hlt := hf.length_lt
      rw [List.length_append, List.length_singleton] at hlt
      omega
  | succ rem ih =>
    have hy : t.At (p ++ [d]) (.item b (lo d)) := at_snoc.mpr ⟨x, b, hx, hb, by omega, rfl⟩
    have hstep : t.geqLeftmost (rem + 1) x d.toNat =
        (getFirstSetBitInRange (t.node (.item b (lo d))).bits 0 255 >>= fun firstSetBit ↦
          t.geqLeftmost rem (.item b (lo d)) firstSetBit) := by
      rw [geqLeftmost, readChild_digit, hb, child_digit]
      rfl
    obtain ⟨c, hfirst, hscan⟩ | ⟨hscan, hnone⟩ :=
      getFirstSetBitInRange_cases (t.node (.item b (lo d))).bits 0 (le_refl 255)
    · obtain ⟨b', hb'⟩ := h.exists_block hy hfirst.has
      obtain ⟨q, e, hrun, hend⟩ := ih hy (by rw [List.length_append, List.length_singleton]; omega)
        ((hy.hasBit c).mpr hfirst.has) b' hb'
      refine ⟨q, e, by rw [hstep, hscan, ok_bind, hrun], hend.hasBit,
        (List.prefix_append _ _).trans hend.mem, fun {r f} hr hpre hlt ↦ ?_, hend.stuck⟩
      rcases hr.exists_next h hpre with heq | ⟨c', hc', hpre'⟩
      · rw [← heq] at hlt
        exact hlt.incomparable.1 ((List.prefix_append _ _).trans hend.mem)
      · rcases Nat.lt_or_eq_of_le (hfirst.least c' (Nat.zero_le _) ((hy.hasBit c').mp hc'))
          with hcc | hcc
        · exact hlt.asymm (.of_branch hend.mem hpre' hcc)
        · rw [← BitVec.eq_of_toNat_eq hcc] at hpre'
          exact hend.least hr hpre' hlt
    · have hempty : ∀ f, ¬ t.HasBit (p ++ [d]) f := by
        intro f hf
        have hlt := f.isLt
        rw [hy.hasBit, hnone f (Nat.zero_le _) (by omega)] at hf
        cases hf
      refine ⟨p, d, ?_, hbit, List.prefix_rfl, fun _ hr hlt ↦ hlt.incomparable.2 hr, hempty⟩
      -- the scan has returned 256, the number of a word that is not there
      rw [hstep, hscan, endResult, if_neg (by omega)]
      cases rem <;> rfl

inductive Spine (t : WideRadixTree) : List (NodePtr × BitVec 8) → List (BitVec 8) → Prop
  | nil : Spine t [] []
  | push {stack p x d} : Spine t stack p → t.At p x → Spine t ((x, d) :: stack) (p ++ [d])

theorem Spine.length {stack : List (NodePtr × BitVec 8)} {p : List (BitVec 8)}
    (h : Spine t stack p) : stack.length = p.length := by
  induction h with
  | nil => rfl
  | push _ _ ih => rw [List.length_cons, List.length_append, ih, List.length_singleton]

theorem geqDescend_cases (h : t.Sound live) (key : BitVec 64) (rem : ℕ) {p : List (BitVec 8)}
    {x : NodePtr} {stack : List (NodePtr × BitVec 8)} (hx : t.At p x) (hspine : Spine t stack p)
    (hlen : p.length + rem + 1 = t.numLevels) :
    (∃ q d, t.geqDescend key rem x stack = .inl (t.content q d) ∧
      q ++ [d] = p ++ digits key (rem + 1) ∧ t.HasBit q d) ∨
    (∃ q d y s, t.geqDescend key rem x stack = .inr ((y, d) :: s) ∧ Spine t s q ∧ t.At q y ∧
      q ++ [d] <+: p ++ digits key (rem + 1) ∧ ¬ t.HasBit q d) := by
  induction rem generalizing p x stack with
  | zero =>
    by_cases hbit : (t.node x).bits.has (digit key 0) = true
    · obtain ⟨b, hb⟩ := h.exists_block hx hbit
      refine .inl ⟨p, digit key 0, ?_, rfl, (hx.hasBit _).mpr hbit⟩
      rw [geqDescend, if_neg ((Mask.test_iff _ _).mpr hbit), content_of_at hx hb]
      simp only [hb]
    · refine .inr ⟨p, digit key 0, x, stack, ?_, hspine, hx, List.prefix_rfl,
        fun hb ↦ hbit ((hx.hasBit _).mp hb)⟩
      rw [geqDescend, if_pos (not_not.mp fun hne ↦ hbit ((Mask.test_iff _ _).mp hne))]
  | succ rem ih =>
    set d := digit key (rem + 1) with hd
    have hfull : p ++ digits key (rem + 1 + 1) = p ++ [d] ++ digits key (rem + 1) :=
      append_digits p key (rem + 1)
    by_cases hbit : (t.node x).bits.has d = true
    · obtain ⟨b, hb⟩ := h.exists_block hx hbit
      have hy : t.At (p ++ [d]) (.item b (lo d)) := at_snoc.mpr ⟨x, b, hx, hb, by omega, rfl⟩
      have hstep : t.geqDescend key (rem + 1) x stack =
          t.geqDescend key rem (.item b (lo d)) ((x, d) :: stack) := by
        rw [geqDescend, if_neg ((Mask.test_iff _ _).mpr hbit)]
        simp only [← hd, hb]
      rw [hstep, hfull]
      exact ih hy (hspine.push hx) (by rw [List.length_append, List.length_singleton]; omega)
    · refine .inr ⟨p, d, x, stack, ?_, hspine, hx, ?_, fun hb ↦ hbit ((hx.hasBit _).mp hb)⟩
      · rw [geqDescend, if_pos (not_not.mp fun hne ↦ hbit ((Mask.test_iff _ _).mp hne))]
      · rw [hfull]
        exact List.prefix_append _ _

theorem not_after_goal (h : t.Sound live) {goal p : List (BitVec 8)} {x : NodePtr}
    {d : BitVec 8} (hx : t.At p x) (hpre : p ++ [d] <+: goal)
    (hno : ∀ {r f}, t.HasBit r f → p ++ [d] <+: r ++ [f] → ¬ Before goal (r ++ [f]))
    (hnone : ∀ e : BitVec 8, d.toNat + 1 ≤ e.toNat → e.toNat ≤ 255 →
      (t.node x).bits.has e = false) {r : List (BitVec 8)} {f : BitVec 8} (hr : t.HasBit r f)
    (hpr : p <+: r ++ [f]) : ¬ Before goal (r ++ [f]) := by
  intro hlt
  rcases hlt.splits hpre hpr with ⟨e, hde, he⟩ | hd
  · have hbit := (hx.hasBit e).mp (hr.of_le h he)
    have hmax := e.isLt
    rw [hnone e hde (by omega)] at hbit
    cases hbit
  · exact hno hr hd hlt

theorem geqClimb_step (x : NodePtr) (d : BitVec 8) (stack : List (NodePtr × BitVec 8)) {f : ℕ}
    (hscan : getFirstSetBitInRange (t.node x).bits (d.toNat + 1) 255 = .ok f) :
    t.geqClimb ((x, d) :: stack) = if f ≤ 255 then .ok (some (stack.length, x, f))
      else if stack.isEmpty then .ok none else t.geqClimb stack := by
  rw [geqClimb, hscan, ok_bind]

/-- The climb stops at the deepest level with a greater bit, and passes no marked path that
comes after the goal. -/
theorem geqClimb_cases (h : t.Sound live) {goal : List (BitVec 8)}
    {stack : List (NodePtr × BitVec 8)} {p : List (BitVec 8)} {x : NodePtr} {d : BitVec 8}
    (hspine : Spine t stack p) (hx : t.At p x) (hpre : p ++ [d] <+: goal)
    (hno : ∀ {r f}, t.HasBit r f → p ++ [d] <+: r ++ [f] → ¬ Before goal (r ++ [f])) :
    (t.geqClimb ((x, d) :: stack) = .ok none ∧ ∀ r f, t.HasBit r f → ¬ Before goal (r ++ [f])) ∨
    (∃ q y c e, t.geqClimb ((x, d) :: stack) = .ok (some (q.length, y, e.toNat)) ∧ t.At q y ∧
      q ++ [c] <+: goal ∧ FirstIn (t.node y).bits (c.toNat + 1) 255 e ∧
      ∀ r f, t.HasBit r f → q ++ [c] <+: r ++ [f] → ¬ Before goal (r ++ [f])) := by
  induction stack generalizing p x d with
  | nil =>
    cases hspine
    obtain ⟨e, he, hscan⟩ | ⟨hscan, hnone⟩ :=
      getFirstSetBitInRange_cases (t.node x).bits (d.toNat + 1) (le_refl 255)
    · refine .inr ⟨[], x, d, e, ?_, hx, hpre, he, fun _ _ ↦ hno⟩
      rw [geqClimb_step x d [] hscan, if_pos he.le]
      rfl
    · refine .inl ⟨?_, fun r f hr ↦ not_after_goal h hx hpre hno hnone hr List.nil_prefix⟩
      rw [geqClimb_step x d [] hscan]
      rfl
  | cons entry stack ih =>
    have hlen := hspine.length
    cases hspine with
    | @push _ p y d₀ hspine hy =>
      obtain ⟨e, he, hscan⟩ | ⟨hscan, hnone⟩ :=
        getFirstSetBitInRange_cases (t.node x).bits (d.toNat + 1) (le_refl 255)
      · refine .inr ⟨p ++ [d₀], x, d, e, ?_, hx, hpre, he, fun _ _ ↦ hno⟩
        rw [geqClimb_step x d _ hscan, if_pos he.le, hlen]
      · rw [geqClimb_step x d _ hscan, if_neg (by omega), if_neg (by simp)]
        exact ih hspine hy ((List.prefix_append _ _).trans hpre) fun hr hpr ↦
          not_after_goal h hx hpre hno hnone hr hpr

theorem FirstEnd.after_goal (h : t.Sound live) {goal q p : List (BitVec 8)} {y : NodePtr}
    {c e a : BitVec 8} (hend : t.FirstEnd (fun s ↦ q ++ [e] <+: s) p a) (hy : t.At q y)
    (hpre : q ++ [c] <+: goal) (hfirst : FirstIn (t.node y).bits (c.toNat + 1) 255 e)
    (hno : ∀ r f, t.HasBit r f → q ++ [c] <+: r ++ [f] → ¬ Before goal (r ++ [f])) :
    t.FirstEnd (Before goal) p a := by
  refine ⟨hend.hasBit, .of_branch hpre hend.mem hfirst.ge, fun {r f} hr hge hlt ↦ ?_, hend.stuck⟩
  have hqr : q <+: r ++ [f] := hge.prefix_of_between hlt ((List.prefix_append _ _).trans hpre)
    ((List.prefix_append _ _).trans hend.mem)
  rcases hge.splits hpre hqr with ⟨e', hce, he'⟩ | hc
  · have hbit := (hy.hasBit e').mp (hr.of_le h he')
    rcases Nat.lt_or_eq_of_le (hfirst.least e' hce hbit) with hee | hee
    · exact hlt.asymm (.of_branch hend.mem he' hee)
    · rw [← BitVec.eq_of_toNat_eq hee] at he'
      exact hend.least hr he' hlt
  · exact hno r f hr hc hge

/-- Where a query ends depends on the presence bits alone: at the goal, after all of them, or at
the first end after the goal. -/
theorem treeFindGEQ_ends (h : t.Sound live) (key : BitVec 64) {goal : List (BitVec 8)}
    (hgoal : digits key t.numLevels = goal) :
    (∃ q d, q ++ [d] = goal ∧ t.HasBit q d ∧ treeFindGEQ t key = .ok (t.content q d)) ∨
    ((∀ q d, q ++ [d] = goal → ¬ t.HasBit q d) ∧
      ((treeFindGEQ t key = .ok 0#64 ∧ ∀ r f, t.HasBit r f → ¬ Before goal (r ++ [f])) ∨
        ∃ q e, treeFindGEQ t key = t.endResult q e ∧ t.FirstEnd (Before goal) q e)) := by
  obtain ⟨last, hn⟩ := Nat.exists_eq_succ_of_ne_zero h.levels_pos.ne'
  have hfull : [] ++ digits key (last + 1) = goal := by rw [← hgoal, hn]; rfl
  obtain ⟨q, d, hrun, hq, hbit⟩ | ⟨q, d, y, s, hrun, hspine, hy, hpre, hbit⟩ :=
    geqDescend_cases h key last (at_nil h.levels_pos) .nil (by rw [List.length_nil, hn]; omega)
  · refine .inl ⟨q, d, hq.trans hfull, hbit, ?_⟩
    rw [treeFindGEQ, hn]
    simp only [hrun]
  · rw [hfull] at hpre
    have heq : treeFindGEQ t key = (t.geqClimb ((y, d) :: s) >>= fun
        | none => .ok 0#64
        | some (level, x, firstSetBit) => t.geqLeftmost (last - level) x firstSetBit) := by
      rw [treeFindGEQ, hn]
      simp only [hrun]
    refine .inr ⟨?_, ?_⟩
    · rintro r e rfl hr
      exact hbit (hr.of_le h hpre)
    · obtain ⟨hclimb, hno⟩ | ⟨q', y', c, e, hclimb, hy', hpre', hfirst, hno⟩ :=
        geqClimb_cases h hspine hy hpre fun hr hle ↦ absurd (hr.of_le h hle) hbit
      · exact .inl ⟨by rw [heq, hclimb]; rfl, hno⟩
      · have hlt := hy'.1
        obtain ⟨p, a, hrun, hend⟩ := geqLeftmost_end h (last - q'.length) hy' (by omega)
          ((hy'.hasBit e).mpr hfirst.has)
        refine .inr ⟨p, a, ?_, hend.after_goal h hy' hpre' hfirst hno⟩
        rw [heq, hclimb]
        exact hrun

end WideRadixTree

end RadixBench.RadixNew
