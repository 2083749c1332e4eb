import RadixBench.RadixNew.Query
import RadixBench.RadixNew.Runs

namespace RadixBench.RadixNew

open Foundation Memory Pool

namespace WideRadixTree

variable {t t' : WideRadixTree} {live : Bool → List ℕ} {goal : List (BitVec 8)}

def Answers (t : WideRadixTree) (goal : List (BitVec 8)) (r : Exec (BitVec 64)) : Prop :=
  (∃ q d, r = .ok (t.content q d) ∧ t.Present (q ++ [d]) ∧
    ofDigits goal ≤ ofDigits (q ++ [d]) ∧
    ∀ p, t.Present p → ofDigits goal ≤ ofDigits p → ofDigits (q ++ [d]) ≤ ofDigits p) ∨
  (r = .ok 0#64 ∧ ∀ p, t.Present p → ofDigits p < ofDigits goal)

theorem Present.after_iff (h : t.Sound live) (hgoal : goal.length = t.numLevels)
    (hmark : ∀ q d, q ++ [d] = goal → ¬ t.HasBit q d) {r : List (BitVec 8)} (hr : t.Present r) :
    Before goal r ↔ ofDigits goal ≤ ofDigits r := by
  have hlen := hgoal.trans hr.length.symm
  rw [before_iff_lt hlen, Nat.lt_iff_le_and_ne]
  refine and_iff_left fun heq ↦ ?_
  obtain ⟨q, d, hq, hbit⟩ := hr.exists_hasBit h
  exact hmark q d (hq.symm.trans (ofDigits_injective hlen heq).symm) hbit

theorem FirstEnd.before_first {q : List (BitVec 8)} {e : BitVec 8} (h : t.Sound live)
    (hend : t.FirstEnd (Before goal) q e) {r : List (BitVec 8)} (hr : t.Present r)
    (hgr : Before goal r) : ¬ Before r (q ++ [e]) := by
  obtain ⟨p, d, rfl, hbit⟩ := hr.exists_hasBit h
  exact hend.least hbit hgr

theorem FirstEnd.top (h : t.Sound live) {q : List (BitVec 8)} {e f : BitVec 8}
    (hend : t.FirstEnd (Before goal) q e) (hf : [f] <+: goal) :
    [f] <+: q ++ [e] ∨
      ∃ a, FirstIn (t.node .root).bits (f.toNat + 1) 255 a ∧ [a] <+: q ++ [e] := by
  have hroot := at_nil h.levels_pos
  rcases hend.mem.splits (p := []) hf List.nil_prefix with ⟨a, hfa, ha⟩ | hf'
  · have hmax := a.isLt
    have hbit := (hroot.hasBit a).mp (hend.hasBit.of_le h (r := []) ha)
    refine .inr ⟨a, ⟨hfa, by omega, hbit, fun c hc hbit ↦ ?_⟩, ha⟩
    by_contra hlt
    refine hend.least (r := []) ((hroot.hasBit c).mpr hbit) (.of_branch (p := []) hf ?_ hc)
      (.of_branch (p := []) List.prefix_rfl ha (Nat.lt_of_not_le hlt))
    exact List.prefix_rfl
  · exact .inl hf'

theorem FirstEnd.present_or_stale (h : t.Sound live) (hsup : t.Supported)
    {N : List (BitVec 8) → Prop} {q : List (BitVec 8)} {e : BitVec 8} (hend : t.FirstEnd N q e) :
    t.Present (q ++ [e]) ∨ q = [] ∧ ∀ r, t.Present r → ¬ [e] <+: r := by
  have hhere : ∀ r, t.Present r → q ++ [e] <+: r → q ++ [e] = r := by
    intro r hr hpre
    obtain ⟨p, d, rfl, hbit⟩ := hr.exists_hasBit h
    rcases hbit.exists_next h hpre with heq | ⟨c, hc, -⟩
    · exact heq
    · exact absurd hc (hend.stuck c)
  by_cases hpres : t.Present (q ++ [e])
  · exact .inl hpres
  · have hnone : ∀ r, t.Present r → ¬ q ++ [e] <+: r := fun r hr hpre ↦
      hpres (hhere r hr hpre ▸ hr)
    obtain rfl : q = [] := by
      by_contra hq
      obtain ⟨r, hr, hpre⟩ := hsup hend.hasBit hq
      exact hnone r hr hpre
    exact .inr ⟨rfl, hnone⟩

/-- The ways in which `treeFindGEQ` can end. Only in the last one it has followed a
presence bit of the root that leads to no value. -/
theorem treeFindGEQ_cases (h : t.Sound live) (hsup : t.Supported) (key : BitVec 64)
    (hgoal : digits key t.numLevels = goal) :
    (∃ q d, q ++ [d] = goal ∧ t.HasBit q d ∧ treeFindGEQ t key = .ok (t.content q d)) ∨
    ((∀ f, [f] = goal → ¬ t.HasBit [] f) ∧ ∃ q d, treeFindGEQ t key = .ok (t.content q d) ∧
      t.Present (q ++ [d]) ∧ ofDigits goal ≤ ofDigits (q ++ [d]) ∧
      (∀ r, t.Present r → ofDigits goal ≤ ofDigits r → ofDigits (q ++ [d]) ≤ ofDigits r) ∧
      ∀ f, [f] <+: goal → [f] <+: q ++ [d] ∨
        ∃ e, FirstIn (t.node .root).bits (f.toNat + 1) 255 e ∧ [e] <+: q ++ [d]) ∨
    (treeFindGEQ t key = .ok 0#64 ∧ (∀ r, t.Present r → ofDigits r < ofDigits goal) ∧
      ∀ f e, [f] <+: goal → ¬ FirstIn (t.node .root).bits (f.toNat + 1) 255 e) ∨
    ((∀ f, [f] = goal → ¬ t.HasBit [] f) ∧ ∃ f e, [f] <+: goal ∧
      FirstIn (t.node .root).bits (f.toNat + 1) 255 e ∧ (∀ r, t.Present r → ¬ [e] <+: r) ∧
      (∀ r, t.Present r → [f] <+: r → ofDigits r < ofDigits goal) ∧
      treeFindGEQ t key = if t.numLevels = 1 then .ok 0#64 else .error .indexOutOfRange) := by
  have hlen : goal.length = t.numLevels := by rw [← hgoal, length_digits]
  obtain ⟨q, d, hq, hbit, hrun⟩ | ⟨hmark, ⟨hrun, hno⟩ | ⟨q, e, hrun, hend⟩⟩ :=
    treeFindGEQ_ends h key hgoal
  · exact .inl ⟨q, d, hq, hbit, hrun⟩
  · refine .inr (.inr (.inl ⟨hrun, fun r hr ↦ ?_, fun f e hf he ↦ ?_⟩))
    · rw [← Nat.not_le, ← hr.after_iff h hlen hmark]
      obtain ⟨p, d, rfl, hbit⟩ := hr.exists_hasBit h
      exact hno p d hbit
    · exact hno [] e (((at_nil h.levels_pos).hasBit e).mpr he.has)
        (.of_branch (p := []) hf List.prefix_rfl he.ge)
  · rcases hend.present_or_stale h hsup with hpres | ⟨rfl, hstale⟩
    · refine .inr (.inl ⟨fun f hf ↦ hmark [] f hf, q, e, ?_, hpres,
        (hpres.after_iff h hlen hmark).mp hend.mem, fun r hr hge ↦ ?_, fun f hf ↦ hend.top h hf⟩)
      · have hql := hpres.length
        rw [List.length_append, List.length_singleton] at hql
        rw [hrun, endResult, if_pos hql]
      · rw [← Nat.not_lt, ← before_iff_lt (hr.length.trans hpres.length.symm)]
        exact hend.before_first h hr ((hr.after_iff h hlen hmark).mpr hge)
    · obtain ⟨f, hf⟩ := exists_digit (List.nil_prefix (l := goal)) (by
        rw [hlen]
        exact h.levels_pos)
      rw [List.nil_append] at hf
      have hfirst : FirstIn (t.node .root).bits (f.toNat + 1) 255 e := by
        rcases hend.top h hf with hpre | ⟨a, ha, hpre⟩
        · obtain rfl := List.singleton_inj.mp (hpre.eq_of_length rfl)
          exact absurd hf hend.mem.incomparable.2
        · rwa [← List.singleton_inj.mp (hpre.eq_of_length rfl)]
      refine .inr (.inr (.inr ⟨fun f hf ↦ hmark [] f hf, f, e, hf, hfirst, hstale,
        fun r hr hfr ↦ ?_, ?_⟩))
      · rw [← Nat.not_le, ← hr.after_iff h hlen hmark]
        exact fun hge ↦ hend.before_first h hr hge
          (.of_branch (p := []) hfr List.prefix_rfl hfirst.ge)
      · rw [hrun, endResult, List.length_nil]
        by_cases hn : t.numLevels = 1
        · have hzero : t.content [] e = 0#64 := by
            by_contra hne
            exact hstale [e] ⟨[], e, rfl, hn.symm, hne⟩ List.prefix_rfl
          rw [if_pos hn, if_pos hn.symm, hzero]
        · rw [if_neg hn, if_neg (Ne.symm hn)]

/-- The first bit of the root that is set from `startBit` on leads to some value. -/
def FirstSupported (t : WideRadixTree) (startBit : ℕ) : Prop :=
  ∀ e, FirstIn t.root.bits startBit 255 e → ∃ r, t.Present r ∧ [e] <+: r

theorem not_firstSupported {s : ℕ} {e : BitVec 8} (h : FirstIn t.root.bits s 255 e)
    (hstale : ∀ r, t.Present r → ¬ [e] <+: r) : ¬ t.FirstSupported s := by
  intro hsupp
  obtain ⟨r, hr, hpre⟩ := hsupp e h
  exact hstale r hr hpre

theorem Present.content_ne {q : List (BitVec 8)} {d : BitVec 8} (h : t.Present (q ++ [d])) :
    t.content q d ≠ 0#64 := by
  obtain ⟨q', d', heq, -, hne⟩ := h
  obtain ⟨rfl, rfl⟩ := List.append_singleton_inj.mp heq
  exact hne

theorem Supported.present (h : t.Supported) {q : List (BitVec 8)} {d : BitVec 8}
    (hbit : t.HasBit q d) (hq : q ≠ []) (hlen : q.length + 1 = t.numLevels) :
    t.Present (q ++ [d]) := by
  obtain ⟨path, hpath, hpre⟩ := h hbit hq
  have heq : q ++ [d] = path := hpre.eq_of_length (by
    rw [hpath.length, List.length_append, List.length_singleton, hlen])
  rwa [heq]

theorem answers_zero_iff :
    t.Answers goal (.ok 0#64) ↔ ∀ r, t.Present r → ofDigits r < ofDigits goal := by
  constructor
  · rintro (⟨q, d, heq, hpres, -⟩ | ⟨-, hno⟩)
    · exact absurd (Except.ok.inj heq).symm hpres.content_ne
    · exact hno
  · exact fun hno ↦ .inr ⟨rfl, hno⟩

/-- In a tree of one level a stale bit is taken for a value, and 0 is returned for it. -/
theorem answers_iff_of_one_level (h : t.Sound live) (hsup : t.Supported) {key : BitVec 64}
    {f : BitVec 8} (hgoal : digits key t.numLevels = [f]) (hn : t.numLevels = 1) :
    t.Answers [f] (treeFindGEQ t key) ↔
      (∀ r, t.Present r → ofDigits r < ofDigits [f]) ∨ t.FirstSupported f.toNat := by
  have hroot := at_nil h.levels_pos
  have hmax := f.isLt
  have hskip : ∀ {e}, ¬ t.HasBit [] f → (FirstIn t.root.bits f.toNat 255 e ↔
      FirstIn t.root.bits (f.toNat + 1) 255 e) := by
    intro e hclear
    rw [hroot.hasBit] at hclear
    exact FirstIn.skip (Bool.eq_false_of_not_eq_true hclear)
  obtain ⟨q, d, hq, hbit, hrun⟩ | ⟨hone, q, d, hrun, hpres, hge, hleast, htop⟩ |
    ⟨hrun, hno, hnone⟩ | ⟨hone, f', e, hf', hfirst, hstale, hno, hrun⟩ :=
    treeFindGEQ_cases h hsup key hgoal
  · obtain ⟨rfl, rfl⟩ := List.append_singleton_inj.mp (hq.trans (List.nil_append [f]).symm)
    have hfirst : FirstIn t.root.bits d.toNat 255 d :=
      ⟨le_rfl, by omega, (hroot.hasBit d).mp hbit, fun _ hle _ ↦ hle⟩
    by_cases hz : t.content [] d = 0#64
    · rw [hrun, hz, answers_zero_iff]
      refine (or_iff_left (not_firstSupported hfirst fun r hr hpre ↦ ?_)).symm
      obtain rfl : [d] = r := hpre.eq_of_length (by rw [hr.length, hn]; rfl)
      exact Present.content_ne (q := []) hr hz
    · have hpres : t.Present [d] := ⟨[], d, rfl, hn.symm, hz⟩
      refine iff_of_true (.inl ⟨[], d, hrun, hpres, le_rfl, fun _ _ hle ↦ hle⟩)
        (.inr fun e he ↦ ⟨_, hpres, ?_⟩)
      obtain rfl := he.unique hfirst
      exact List.prefix_rfl
  · have hlen := hpres.length
    rw [hn, List.length_append, List.length_singleton] at hlen
    obtain rfl : q = [] := List.length_eq_zero_iff.mp (by omega)
    refine iff_of_true (.inl ⟨[], d, hrun, hpres, hge, hleast⟩) (.inr fun e he ↦ ⟨_, hpres, ?_⟩)
    rcases htop f List.prefix_rfl with hpre | ⟨e', he', hpre⟩
    · exact absurd (hpres.hasBit h (r := []) hpre) (hone f rfl)
    · rwa [((hskip (hone f rfl)).mp he).unique he']
  · exact iff_of_true (.inr ⟨hrun, hno⟩) (.inl hno)
  · obtain rfl := List.singleton_inj.mp (hf'.eq_of_length rfl)
    rw [hrun, if_pos hn, answers_zero_iff]
    exact (or_iff_left (not_firstSupported ((hskip (hone f' rfl)).mpr hfirst) hstale)).symm

/-- In a deeper tree the search below a stale bit of the root leaves the node. -/
theorem answers_iff_of_deep (h : t.Sound live) (hsup : t.Supported) {key : BitVec 64}
    (hgoal : digits key t.numLevels = goal) {f : BitVec 8} (hf : [f] <+: goal)
    (hn : t.numLevels ≠ 1) :
    t.Answers goal (treeFindGEQ t key) ↔
      (∃ r, t.Present r ∧ ofDigits goal ≤ ofDigits r ∧ [f] <+: r) ∨
        t.FirstSupported (f.toNat + 1) := by
  obtain ⟨q, d, rfl, hbit, hrun⟩ | ⟨-, q, d, hrun, hpres, hge, hleast, htop⟩ |
    ⟨hrun, hno, hnone⟩ | ⟨-, f', e, hf', hfirst, hstale, hno, hrun⟩ :=
    treeFindGEQ_cases h hsup key hgoal
  · have hlen := congrArg List.length hgoal
    rw [length_digits, List.length_append, List.length_singleton] at hlen
    have hpres := hsup.present hbit (by rintro rfl; exact hn hlen) hlen.symm
    exact iff_of_true (.inl ⟨q, d, hrun, hpres, le_rfl, fun _ _ hle ↦ hle⟩)
      (.inl ⟨_, hpres, le_rfl, hf⟩)
  · refine iff_of_true (.inl ⟨q, d, hrun, hpres, hge, hleast⟩) ?_
    rcases htop f hf with hpre | ⟨e', he', hpre⟩
    · exact .inl ⟨_, hpres, hge, hpre⟩
    · exact .inr fun e he ↦ ⟨_, hpres, by rwa [he.unique he']⟩
  · exact iff_of_true (.inr ⟨hrun, hno⟩) (.inr fun e he ↦ absurd he (hnone f e hf))
  · obtain rfl : f' = f := digit_unique (p := []) hf' hf
    rw [hrun, if_neg hn]
    refine iff_of_false ?_ ?_
    · rintro (⟨q, d, heq, -⟩ | ⟨heq, -⟩) <;> cases heq
    · rintro (⟨r, hr, hle, hpre⟩ | hsupp)
      · have hlt := hno r hr hpre
        omega
      · exact not_firstSupported hfirst hstale hsupp

theorem answers_iff (h : t.Sound live) (hsup : t.Supported) {key : BitVec 64}
    (hgoal : digits key t.numLevels = goal) {f : BitVec 8} (hf : [f] <+: goal) :
    t.Answers goal (treeFindGEQ t key) ↔
      if t.numLevels = 1 then
        (∀ r, t.Present r → ofDigits r < ofDigits goal) ∨ t.FirstSupported f.toNat
      else
        (∃ r, t.Present r ∧ ofDigits goal ≤ ofDigits r ∧ [f] <+: r) ∨
          t.FirstSupported (f.toNat + 1) := by
  split_ifs with hn
  · obtain rfl : [f] = goal := hf.eq_of_length (by rw [← hgoal, length_digits, hn]; rfl)
    exact answers_iff_of_one_level h hsup hgoal hn
  · exact answers_iff_of_deep h hsup hgoal hf hn

end WideRadixTree

end RadixBench.RadixNew
