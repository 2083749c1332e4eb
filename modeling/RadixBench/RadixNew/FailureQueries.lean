import RadixBench.RadixNew.Failure
import RadixBench.RadixNew.InsertRuns

namespace RadixBench.RadixNew

open Foundation Memory Pool

namespace WideRadixTree

variable {t t' : WideRadixTree} {live live' : Bool → List ℕ} {goal path : List (BitVec 8)}

theorem HasBit.present (h : t.Sound live) (hmark : t.Marked) {q : List (BitVec 8)}
    {e : BitVec 8} (hbit : t.HasBit q e) (hlen : q.length + 1 = t.numLevels) :
    t.Present (q ++ [e]) := by
  obtain ⟨r, hr, hpre⟩ := hmark q e hbit
  obtain ⟨p, d, rfl, hr'⟩ := hr.exists_hasBit h
  rcases hr'.exists_next h hpre with heq | ⟨c, hc, -⟩
  · rwa [heq]
  · have hlt := hc.length_lt
    rw [List.length_append, List.length_singleton] at hlt
    omega

theorem FirstEnd.unique (h : t.Sound live) {N : List (BitVec 8) → Prop} {q q' : List (BitVec 8)}
    {e e' : BitVec 8} (hend : t.FirstEnd N q e) (hend' : t.FirstEnd N q' e') :
    q = q' ∧ e = e' := by
  have heq : q ++ [e] = q' ++ [e'] := by
    rcases Before.trichotomy (q ++ [e]) (q' ++ [e']) with hlt | hlt | hpre | hpre
    · exact absurd hlt (hend'.least hend.hasBit hend.mem)
    · exact absurd hlt (hend.least hend'.hasBit hend'.mem)
    · rcases hend'.hasBit.exists_next h hpre with heq | ⟨c, hc, -⟩
      · exact heq
      · exact absurd hc (hend.stuck c)
    · rcases hend.hasBit.exists_next h hpre with heq | ⟨c, hc, -⟩
      · exact heq.symm
      · exact absurd hc (hend'.stuck c)
  exact List.append_singleton_inj.mp heq

/-- Below `path` there is a value, or right before it there is one that every search heading
for it meets first. -/
def Harmless (t : WideRadixTree) (path : List (BitVec 8)) : Prop :=
  (∃ r, t.Present r ∧ path <+: r) ∨
  ∀ goal, goal.length = t.numLevels → Before goal path →
    ∃ r, t.Present r ∧ ¬ Before r goal ∧ Before r path

namespace Extended

variable {q : List (BitVec 8)} {e : BitVec 8}

theorem mono (h : Extended t t' path) (hbit : t.HasBit q e) : t'.HasBit q e :=
  (h.hasBit q e).mpr (.inl hbit)

theorem old (h : Extended t t' path) (hshort : path.length < t.numLevels)
    (hbit : t'.HasBit q e) (hlen : q.length + 1 = t.numLevels) : t.HasBit q e := by
  refine ((h.hasBit q e).mp hbit).resolve_right fun hpre ↦ ?_
  have hle := hpre.length_le
  rw [List.length_append, List.length_singleton] at hle
  omega

theorem endResult_eq (h : Extended t t' path) : t'.endResult q e = t.endResult q e := by
  rw [endResult, endResult, h.numLevels]
  split_ifs with hlen
  · rw [h.content e hlen]
  · rfl

theorem firstEnd (h : Extended t t' path) {N : List (BitVec 8) → Prop}
    (hend : t'.FirstEnd N q e) (hold : t.HasBit q e) : t.FirstEnd N q e :=
  ⟨hold, hend.mem, fun hr hN ↦ hend.least (h.mono hr) hN, fun f hf ↦ hend.stuck f (h.mono hf)⟩

theorem eq_path (h : Extended t t' path) {N : List (BitVec 8) → Prop}
    (hend : t'.FirstEnd N q e) (hnew : ¬ t.HasBit q e) : q ++ [e] = path := by
  have hpre := ((h.hasBit q e).mp hend.hasBit).resolve_left hnew
  rcases Nat.lt_or_eq_of_le hpre.length_le with hlt | hlen
  · obtain ⟨c, hc⟩ := exists_digit hpre hlt
    exact absurd ((h.hasBit _ c).mpr (.inr hc)) (hend.stuck c)
  · exact hpre.eq_of_length hlen

end Extended

/-- A search with a harmless new path ends as it did without it. -/
theorem treeFindGEQ_extended (h : t.Sound live) (h' : t'.Sound live') (hext : Extended t t' path)
    (hshort : path.length < t.numLevels) (hharm : t.Harmless path) (key : BitVec 64) :
    treeFindGEQ t' key = treeFindGEQ t key := by
  have hlen : (digits key t.numLevels).length = t.numLevels := length_digits key _
  obtain ⟨q, d, hq, hbit, hrun⟩ | ⟨hmark, hends⟩ :=
    treeFindGEQ_ends h' key (congrArg (digits key) hext.numLevels)
  · have hql := congrArg List.length hq
    rw [List.length_append, List.length_singleton, hlen] at hql
    obtain ⟨q', d', hq', -, hrun'⟩ | ⟨hmark', -⟩ := treeFindGEQ_ends h key rfl
    · obtain ⟨rfl, rfl⟩ := List.append_singleton_inj.mp (hq.trans hq'.symm)
      rw [hrun, hrun', hext.content d hql]
    · exact absurd (hext.old hshort hbit hql) (hmark' q d hq)
  · obtain ⟨q', d', hq', hbit', -⟩ | ⟨-, hends'⟩ := treeFindGEQ_ends h key rfl
    · exact absurd (hext.mono hbit') (hmark q' d' hq')
    · obtain ⟨hrun, hno⟩ | ⟨q, e, hrun, hend⟩ := hends
      · obtain ⟨hrun', -⟩ | ⟨q', e', -, hend'⟩ := hends'
        · rw [hrun, hrun']
        · exact absurd hend'.mem (hno q' e' (hext.mono hend'.hasBit))
      · by_cases hold : t.HasBit q e
        · obtain ⟨-, hno'⟩ | ⟨q', e', hrun', hend'⟩ := hends'
          · exact absurd hend.mem (hno' q e hold)
          · obtain ⟨rfl, rfl⟩ := (hext.firstEnd hend hold).unique h hend'
            rw [hrun, hrun', hext.endResult_eq]
        · exfalso
          have hpath := hext.eq_path hend hold
          rcases hharm with ⟨r, hr, hpre⟩ | hbetween
          · exact hold (hr.hasBit h (hpath ▸ hpre))
          · obtain ⟨r, hr, hge, hlt⟩ := hbetween _ hlen (hpath ▸ hend.mem)
            rw [before_iff_lt (hr.length.trans hlen.symm), Nat.not_lt] at hge
            have hgoal := (hr.after_iff h hlen fun p d hp hbit ↦
              hmark p d hp (hext.mono hbit)).mpr hge
            obtain ⟨p, d, rfl, hbit⟩ := hr.exists_hasBit h
            exact hend.least (hext.mono hbit) hgoal (hpath ▸ hlt)

/-- A search that comes upon the new path first runs out of the array of children. -/
theorem treeFindGEQ_dead (h : t.Sound live) (h' : t'.Sound live') (hmark : t.Marked)
    (hext : Extended t t' path) (hshort : path.length < t.numLevels)
    (hnew : ∀ r, t.Present r → ¬ path <+: r) {key : BitVec 64}
    (hgoal : Before (digits key t.numLevels) path)
    (hgap : ∀ r, t.Present r → ¬ Before r (digits key t.numLevels) → ¬ Before r path) :
    treeFindGEQ t' key = .error .indexOutOfRange := by
  have hlen : (digits key t.numLevels).length = t.numLevels := length_digits key _
  obtain ⟨p, b, hp⟩ : ∃ p b, path = p ++ [b] := by
    cases path using List.reverseRecOn with
    | nil => exact absurd List.nil_prefix hgoal.incomparable.2
    | append_singleton p b => exact ⟨p, b, rfl⟩
  have hbit : t'.HasBit p b := (hext.hasBit p b).mpr (.inr (hp ▸ List.prefix_rfl))
  have hpast : ∀ {q e}, t'.HasBit q e → q.length + 1 = t.numLevels → t.Present (q ++ [e]) :=
    fun hq hql ↦ (hext.old hshort hq hql).present h hmark hql
  obtain ⟨q, d, hq, hqd, -⟩ | ⟨-, ⟨-, hno⟩ | ⟨q, e, hrun, hend⟩⟩ :=
    treeFindGEQ_ends h' key (congrArg (digits key) hext.numLevels)
  · have hql := congrArg List.length hq
    rw [List.length_append, List.length_singleton, hlen] at hql
    exact absurd (hq ▸ hgoal) (hgap _ (hpast hqd hql) fun hlt ↦ (hq ▸ hlt).asymm (hq ▸ hlt))
  · exact absurd (hp ▸ hgoal) (hno p b hbit)
  · rw [hrun, endResult, if_neg]
    rw [hext.numLevels]
    intro hql
    have hpres := hpast hend.hasBit hql
    have hfirst : ¬ Before path (q ++ [e]) := hp ▸ hend.least hbit (hp ▸ hgoal)
    rcases Before.trichotomy (q ++ [e]) path with hlt | hlt | hpre | hpre
    · exact hgap _ hpres hend.mem.asymm hlt
    · exact hfirst hlt
    · have hle := hpre.length_le
      rw [hpres.length] at hle
      omega
    · exact hnew _ hpres hpre

end WideRadixTree

end RadixBench.RadixNew
