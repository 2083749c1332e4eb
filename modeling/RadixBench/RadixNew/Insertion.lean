import RadixBench.RadixNew.Allocation

namespace RadixBench.RadixNew

open Foundation Memory Pool

namespace WideRadixTree

variable {t t' : WideRadixTree} {live : Bool → List ℕ}

/-- What an insertion that returns 0 does to the values and the presence bits, the
bytes of the key being `q ++ [d]`. -/
structure Inserted (t t' : WideRadixTree) (q : List (BitVec 8)) (d : BitVec 8)
    (v : BitVec 64) : Prop where
  numLevels : t'.numLevels = t.numLevels
  failures : t'.memory.failures = t.memory.failures
  content : ∀ {r} e, r.length + 1 = t.numLevels →
    t'.content r e = if (r = q ∧ e = d) ∧ t.content q d = 0#64 then v else t.content r e
  hasBit : ∀ r e, t'.HasBit r e ↔ t.HasBit r e ∨ r ++ [e] <+: q ++ [d]

theorem concat_prefix_concat {α : Type} {r q : List α} {e d : α} :
    r ++ [e] <+: q ++ [d] ↔ r ++ [e] <+: q ∨ r = q ∧ e = d := by
  rw [List.prefix_concat_iff, or_comm]
  exact or_congr_right List.append_singleton_inj

theorem Entered.marked {p : List (BitVec 8)} {x : NodePtr} {d : BitVec 8} {b : ℕ}
    (h : Entered t t' p x d b) (hpath : ∀ q e, q ++ [e] <+: p → t.HasBit q e)
    {q : List (BitVec 8)} {e : BitVec 8} (hq : q ++ [e] <+: p ++ [d]) : t'.HasBit q e := by
  rw [h.hasBit]
  rcases concat_prefix_concat.mp hq with hq | hq
  · exact .inl (hpath q e hq)
  · exact .inr hq

theorem Entered.insert {p : List (BitVec 8)} {x : NodePtr} {d : BitVec 8} {b : ℕ}
    (he : Entered t t' p x d b) (h : t'.Sound live) (hlast : t.isLast p = true)
    (hpath : ∀ q e, q ++ [e] <+: p → t.HasBit q e) (v : BitVec 64) :
    t'.value b (lo d) = t.content p d ∧
      (if t'.value b (lo d) = 0#64 then t'.setValue b (lo d) v else t').Sound live ∧
      Inserted t (if t'.value b (lo d) = 0#64 then t'.setValue b (lo d) v else t') p d v := by
  have hlen : p.length + 1 = t.numLevels := of_decide_eq_true hlast
  have hold : t'.value b (lo d) = t.content p d := by
    rw [← content_of_at he.at_self he.child]
    exact he.content d hlen
  have hlast' : t'.isLast p = true := by rwa [isLast, he.numLevels]
  have hbit : (t'.node x).bits.has d = true :=
    (he.at_self.hasBit d).mp ((he.hasBit p d).mpr (.inr ⟨rfl, rfl⟩))
  have hbits : ∀ r e, t'.HasBit r e ↔ t.HasBit r e ∨ r ++ [e] <+: p ++ [d] := by
    intro r e
    rw [he.hasBit, concat_prefix_concat]
    have hr := hpath r e
    tauto
  refine ⟨hold, ?_, ?_⟩
  · split_ifs
    · exact h.setValue he.at_self he.child hlast' (.inr hbit)
    · exact h
  · by_cases hz : t'.value b (lo d) = 0#64
    · rw [if_pos hz]
      refine ⟨he.numLevels, he.failures, fun {r} e hr ↦ ?_, fun r e ↦ ?_⟩
      · rw [h.setValue_content he.at_self he.child v e (by rw [he.numLevels]; omega), he.content e hr]
        simp only [← hold, hz, and_true]
      · rw [hasBit_setValue, hbits]
    · rw [if_neg hz]
      refine ⟨he.numLevels, he.failures, fun {r} e hr ↦ ?_, hbits⟩
      rw [← hold]
      simp only [hz, and_false, if_false]
      exact he.content e hr

theorem insertFrom_cases (A : Allocator) (key v : BitVec 64) (rem : ℕ) (h : t.Sound live)
    {p : List (BitVec 8)} {x : NodePtr} (hx : t.At p x) (hlen : p.length + rem + 1 = t.numLevels)
    (hpath : ∀ q e, q ++ [e] <+: p → t.HasBit q e) :
    (∃ t' live', t.insertFrom A key v rem x = (-1, 0#64, t') ∧ t'.Sound live' ∧
      t.SameContent t' ∧ t.memory.failures < t'.memory.failures) ∨
    (∃ q d t' live', q ++ [d] = p ++ digits key (rem + 1) ∧
      insertFrom A key v rem t x = (0, t.content q d, t') ∧ t'.Sound live' ∧
      Inserted t t' q d v) := by
  induction rem generalizing t live p x with
  | zero =>
    have hlast : t.isLast p = true := decide_eq_true (by omega)
    have hstep := enter_cases A h hx (digit key 0) fun q e hq ↦ hpath q e (hq ▸ List.prefix_rfl)
    rw [hlast] at hstep
    obtain ⟨t', hfail, hs, hsame, hfl⟩ | ⟨b, t', live', hok, hs, he⟩ := hstep
    · exact .inl ⟨t', live, by simp only [insertFrom, hfail], hs, hsame, hfl⟩
    · obtain ⟨hold, hs', hdone⟩ := he.insert hs hlast hpath v
      refine .inr ⟨p, digit key 0, _, live', rfl, ?_, hs', hdone⟩
      simp only [insertFrom, hok, hold]
  | succ rem ih =>
    have hlast : t.isLast p = false := decide_eq_false (by omega)
    have hstep := enter_cases A h hx (digit key (rem + 1)) fun q e hq ↦
      hpath q e (hq ▸ List.prefix_rfl)
    rw [hlast] at hstep
    obtain ⟨t', hfail, hs, hsame, hfl⟩ | ⟨b, t', live', hok, hs, he⟩ := hstep
    · exact .inl ⟨t', live, by simp only [insertFrom, hfail], hs, hsame, hfl⟩
    · have hx' : t'.At (p ++ [digit key (rem + 1)]) (.item b (lo (digit key (rem + 1)))) :=
        at_snoc.mpr ⟨x, b, he.at_self, he.child, by rw [he.numLevels]; omega, rfl⟩
      have hlen' : (p ++ [digit key (rem + 1)]).length + rem + 1 = t'.numLevels := by
        rw [he.numLevels, List.length_append, List.length_singleton]
        omega
      have heq : insertFrom A key v (rem + 1) t x =
          insertFrom A key v rem t' (.item b (lo (digit key (rem + 1)))) := by
        simp only [insertFrom, hok]
      have hfull := append_digits p key (rem + 1)
      rw [heq, hfull]
      obtain ⟨t'', live'', hfail, hs, hsame, hfl⟩ | ⟨q, d, t'', live'', hq, hok, hs, hdone⟩ :=
        ih hs hx' hlen' fun q e ↦ he.marked hpath
      · exact .inl ⟨t'', live'', hfail, hs, he.toSameContent.trans hsame, he.failures ▸ hfl⟩
      · have hqlen : q.length + 1 = t.numLevels := by
          have hlenq := congrArg List.length hq
          simp only [List.length_append, List.length_singleton, length_digits] at hlenq
          omega
        refine .inr ⟨q, d, t'', live'', hq, ?_, hs, ⟨hdone.numLevels.trans he.numLevels,
          hdone.failures.trans he.failures, fun {r} e hr ↦ ?_, fun r e ↦ ?_⟩⟩
        · rw [hok, he.content d hqlen]
        · rw [hdone.content e (by rwa [he.numLevels]), he.content e hr, he.content d hqlen]
        · rw [hdone.hasBit, he.hasBit, or_assoc, hq]
          refine or_congr_right (or_iff_right_of_imp ?_)
          rintro ⟨rfl, rfl⟩
          exact List.prefix_append _ _

end WideRadixTree

end RadixBench.RadixNew
