import RadixBench.WideRadix.Failure

namespace RadixBench.WideRadix

open Foundation Memory

variable {m m' : Memory WideRadixNode} {root : ℕ} {goal path : List (BitVec 8)}

section

variable {q q' s s' p : List (BitVec 8)} {d d' e e' : BitVec 8}

theorem Leaves.unique (h : Leaves m root goal q d) (h' : Leaves m root goal q' d') :
    q = q' ∧ d = d' := by
  have hle := h'.prefix_iff ((List.prefix_append q [d]).trans h.pre) h.hasNode
  have hge := h.prefix_iff ((List.prefix_append q' [d']).trans h'.pre) h'.hasNode
  obtain rfl := hle.eq_of_length (Nat.le_antisymm hle.length_le hge.length_le)
  exact ⟨rfl, digit_unique h.pre h'.pre⟩

theorem Leftmost.prefix_of_le (h : Leftmost m root p s) (h' : Leftmost m root p s')
    (hle : s.length ≤ s'.length) : s <+: s' := by
  obtain ⟨y, hy⟩ := h'.hasNode
  have hnode : HasNode m root (s'.take s.length) := hy.hasNode_prefix (List.take_prefix _ _)
  have hlen : (s'.take s.length).length = s.length := by
    rw [List.length_take]
    omega
  have hp : p <+: s'.take s.length :=
    List.prefix_take_iff.mpr ⟨h'.below, h.below.length_le⟩
  have hs := h.least _ hnode hp hlen.le
  have hs' := h'.least s h.hasNode h.below hle
  rw [hlen, List.take_length] at hs
  rw [ofDigits_injective hlen.symm (Nat.le_antisymm hs hs')]
  exact List.take_prefix _ _

theorem Leftmost.unique (h : Leftmost m root p s) (h' : Leftmost m root p s') : s = s' := by
  have hof : ∀ {s s'}, Leftmost m root p s → Leftmost m root p s' → s.length ≤ s'.length →
      s = s' := by
    intro s s' h h' hle
    have hpre := h.prefix_of_le h' hle
    by_contra hne
    have hlt : s.length < s'.length :=
      Nat.lt_of_le_of_ne hle fun hlen ↦ hne (hpre.eq_of_length hlen)
    obtain ⟨d, hd⟩ := exists_digit hpre hlt
    obtain ⟨y, hy⟩ := h'.hasNode
    exact h.stuck (Nat.lt_of_lt_of_le hlt hy.1) d (hy.hasNode_prefix hd)
  rcases Nat.le_total s.length s'.length with hle | hle
  · exact hof h h' hle
  · exact (hof h' h hle).symm

theorem Turns.hasNode_turn (h : Turns m root goal q d e s) : HasNode m root (q ++ [e]) := by
  obtain ⟨y, hy⟩ := h.leftmost.hasNode
  exact hy.hasNode_prefix h.leftmost.below

theorem Turns.unique (h : Turns m root goal q d e s) (h' : Turns m root goal q' d' e' s') :
    s = s' := by
  obtain ⟨rfl, rfl⟩ := h.toLeaves.unique h'.toLeaves
  have hle := h.first e' h'.greater h'.hasNode_turn
  have hge := h'.first e h.greater h.hasNode_turn
  obtain rfl := BitVec.eq_of_toNat_eq (Nat.le_antisymm hle hge)
  exact h.leftmost.unique h'.leftmost

end

section

variable {q s : List (BitVec 8)} {d e : BitVec 8}

theorem findGeqFrom_of_at (h : Sound m root) {key : BitVec 64} {leaf : ℕ}
    (hat : At m root (digits key 8) leaf) : findGeqFrom m key 7 root = .ok (some leaf) := by
  obtain ⟨leaf', hrun, hat'⟩ | ⟨q, d, -, hq, -⟩ | ⟨q, d, e, s, w, -, -, ht⟩ :=
    findGeqFrom_outcome h key
  · rw [hrun, hat'.unique hat]
  · exact absurd ⟨leaf, hat⟩ hq.not_hasNode_goal
  · exact absurd ⟨leaf, hat⟩ ht.not_hasNode_goal

theorem findGeqFrom_of_leaves (h : Sound m root) {key : BitVec 64}
    (hq : Leaves m root (digits key 8) q d) (hnone : ∀ f, d < f → ¬ HasNode m root (q ++ [f])) :
    findGeqFrom m key 7 root = .ok none := by
  obtain ⟨leaf, -, hat⟩ | ⟨-, -, hrun, -⟩ | ⟨q', d', e, s, w, -, -, ht⟩ :=
    findGeqFrom_outcome h key
  · exact absurd ⟨leaf, hat⟩ hq.not_hasNode_goal
  · exact hrun
  · obtain ⟨rfl, rfl⟩ := hq.unique ht.toLeaves
    exact absurd ht.hasNode_turn (hnone e ht.greater)

theorem findGeqFrom_of_turns (h : Sound m root) {key : BitVec 64} {w : ℕ}
    (ht : Turns m root (digits key 8) q d e s) (hw : At m root s w) :
    findGeqFrom m key 7 root = .ok (if s.length = 8 then some w else none) := by
  obtain ⟨leaf, -, hat⟩ | ⟨q', d', -, hq, hnone⟩ | ⟨q', d', e', s', w', hrun, hw', ht'⟩ :=
    findGeqFrom_outcome h key
  · exact absurd ⟨leaf, hat⟩ ht.not_hasNode_goal
  · obtain ⟨rfl, rfl⟩ := hq.unique ht.toLeaves
    exact absurd ht.hasNode_turn (hnone e ht.greater)
  · obtain rfl := ht.unique ht'
    rw [hrun, hw'.unique hw]

end

namespace Extended

variable {q s : List (BitVec 8)} {d e : BitVec 8}

theorem mono (h : Extended m m' root path) {t : List (BitVec 8)} (ht : HasNode m root t) :
    HasNode m' root t := (h.hasNode t).mpr (.inl ht)

theorem prefix_of_new (h : Extended m m' root path) {t : List (BitVec 8)}
    (ht : HasNode m' root t) (hnew : ¬ HasNode m root t) : t <+: path :=
  ((h.hasNode t).mp ht).resolve_left hnew

theorem at_iff (h : Extended m m' root path) {t : List (BitVec 8)} (ht : HasNode m root t)
    {y : ℕ} : At m' root t y ↔ At m root t y := by
  obtain ⟨z, hz⟩ := ht
  refine ⟨fun hy ↦ ?_, h.at_mono⟩
  rwa [hy.unique (h.at_mono hz)]

theorem leaves (h : Extended m m' root path) (hq : Leaves m' root goal q d)
    (hold : HasNode m root q) : Leaves m root goal q d :=
  ⟨hold, hq.pre, fun t ht hnode ↦ hq.missing t ht (h.mono hnode)⟩

theorem turns (h : Extended m m' root path) (ht : Turns m' root goal q d e s)
    (hold : HasNode m root s) : Turns m root goal q d e s := by
  obtain ⟨y, hy⟩ := hold
  refine ⟨h.leaves ht.toLeaves (hy.hasNode_prefix ht.below), ht.greater, fun f hf hnode ↦ ?_, ?_⟩
  · exact ht.first f hf (h.mono hnode)
  · exact ⟨⟨y, hy⟩, ht.leftmost.below, fun hlt f hnode ↦ ht.leftmost.stuck hlt f (h.mono hnode),
      fun t hnode ↦ ht.leftmost.least t (h.mono hnode)⟩

end Extended

/-- New nodes on `path` are passed by: they lie to the right of all old nodes, none of which
is a dead end. -/
structure Harmless (m : Memory WideRadixNode) (root : ℕ) (path : List (BitVec 8)) : Prop where
  last : ∀ {q b f}, q ++ [b] <+: path → ¬ HasNode m root (q ++ [b]) →
    HasNode m root (q ++ [f]) → f < b
  filled : ¬ HasNode m root path → ∀ q, HasNode m root q → q.length < 8 →
    ∃ f, HasNode m root (q ++ [f])

theorem Harmless.of_hasNode (h : HasNode m root path) : Harmless m root path := by
  refine ⟨fun {q b f} hpre hnot _ ↦ ?_, fun hnot ↦ absurd h hnot⟩
  obtain ⟨x, hx⟩ := h
  exact absurd (hx.hasNode_prefix hpre) hnot

theorem not_turns_of_new (hext : Extended m m' root path) (hharm : Harmless m root path)
    {q q' s : List (BitVec 8)} {d d' e : BitVec 8} (hq : Leaves m' root goal q d)
    (hnew : ¬ HasNode m root q) : ¬ Turns m root goal q' d' e s := by
  intro ht
  have hpath := hext.prefix_of_new hq.hasNode hnew
  have hpre : q' ++ [d'] <+: q := by
    rcases List.prefix_or_prefix_of_prefix ht.pre ((List.prefix_append q [d]).trans hq.pre)
      with hle | hle
    · exact hle
    · rcases List.prefix_concat_iff.mp hle with rfl | hle
      · exact List.prefix_rfl
      · obtain ⟨x, hx⟩ := ht.hasNode
        exact absurd (hx.hasNode_prefix hle) hnew
  have hlt := hharm.last (hpre.trans hpath) (ht.missing _ List.prefix_rfl) ht.hasNode_turn
  exact absurd hlt (BitVec.not_lt.mpr (BitVec.le_of_lt ht.greater))

/-- A leftmost descent from an old node never ends in a new one: where it would enter the new
nodes, an old child lies to their left. -/
theorem not_leftmost_of_new (hext : Extended m m' root path) (hshort : path.length ≤ 7)
    (hharm : Harmless m root path) {p s : List (BitVec 8)} (hold : HasNode m root p)
    (hnew : ¬ HasNode m root s) : ¬ Leftmost m' root p s := by
  intro hleft
  have hpath := hext.prefix_of_new hleft.hasNode hnew
  obtain ⟨u, b, hpu, hu, hub, hnewb⟩ := exists_branch hold hnew hleft.below
  have hpathm : ¬ HasNode m root path := fun ⟨x, hx⟩ ↦ hnew (hx.hasNode_prefix hpath)
  have hulen := hub.length_le
  have hslen := hpath.length_le
  rw [List.length_append, List.length_singleton] at hulen
  obtain ⟨f, hf⟩ := hharm.filled hpathm u hu (by omega)
  have hfb := hharm.last (hub.trans hpath) hnewb hf
  have hle := hleft.least _ (hext.mono hf) (hpu.trans (List.prefix_append u [f]))
    (by simpa using hulen)
  have htake : s.take (u ++ [f]).length = u ++ [b] := by
    rw [List.length_append, List.length_singleton, List.prefix_iff_eq_take.mp hub]
    simp
  have hlt := ofDigits_lt_of_digit (List.prefix_rfl (l := u ++ [f]))
    (List.prefix_rfl (l := u ++ [b])) (by simp) hfb
  rw [htake] at hle
  omega

theorem findGeqFrom_extended (h : Sound m root) (h' : Sound m' root)
    (hext : Extended m m' root path) (hshort : path.length ≤ 7) (hharm : Harmless m root path)
    (key : BitVec 64) : findGeqFrom m' key 7 root = findGeqFrom m key 7 root := by
  have hold : ∀ t, HasNode m' root t → t.length = 8 → HasNode m root t := by
    intro t ht hlen
    by_contra hnew
    have hle := (hext.prefix_of_new ht hnew).length_le
    omega
  have hgoal : ∀ {leaf}, At m root (digits key 8) leaf → HasNode m' root (digits key 8) :=
    fun hat ↦ hext.mono ⟨_, hat⟩
  obtain ⟨leaf, hrun', hat⟩ | ⟨q, d, hrun', hq, hnone⟩ | ⟨q, d, e, s, w, hrun', hw, ht⟩ :=
    findGeqFrom_outcome h' key
  · have hnode := hold _ ⟨leaf, hat⟩ (length_digits key 8)
    rw [hrun', findGeqFrom_of_at h ((hext.at_iff hnode).mp hat)]
  · rw [hrun']
    by_cases hqm : HasNode m root q
    · exact (findGeqFrom_of_leaves h (hext.leaves hq hqm)
        fun f hf hnode ↦ hnone f hf (hext.mono hnode)).symm
    · obtain ⟨leaf, -, hat⟩ | ⟨-, -, hrun, -⟩ | ⟨q', d', e, s, w, -, -, ht⟩ :=
        findGeqFrom_outcome h key
      · exact absurd (hgoal hat) hq.not_hasNode_goal
      · exact hrun.symm
      · exact absurd ht (not_turns_of_new hext hharm hq hqm)
  · by_cases hsm : HasNode m root s
    · rw [hrun', findGeqFrom_of_turns h (hext.turns ht hsm) ((hext.at_iff hsm).mp hw)]
    · have hpath := hext.prefix_of_new ⟨w, hw⟩ hsm
      have hlen := hpath.length_le
      rw [hrun', if_neg (by omega)]
      obtain ⟨leaf, -, hat⟩ | ⟨-, -, hrun, -⟩ | ⟨q', d', e', s', w', -, -, ht'⟩ :=
        findGeqFrom_outcome h key
      · exact absurd (hgoal hat) ht.not_hasNode_goal
      · exact hrun.symm
      · exfalso
        by_cases hqm : HasNode m root q
        · obtain ⟨rfl, rfl⟩ := (hext.leaves ht.toLeaves hqm).unique ht'.toLeaves
          by_cases hturn : HasNode m root (q ++ [e])
          · exact not_leftmost_of_new hext hshort hharm hturn hsm ht.leftmost
          · have hlt := hharm.last (ht.leftmost.below.trans hpath) hturn ht'.hasNode_turn
            have hle := ht.first e' ht'.greater (hext.mono ht'.hasNode_turn)
            rw [BitVec.lt_def] at hlt
            omega
        · exact not_turns_of_new hext hharm ht.toLeaves hqm ht'

/-- A search for a key behind the new nodes finds nothing. -/
theorem findGeqFrom_dead (h' : Sound m' root) (hext : Extended m m' root path)
    (hnew : ¬ HasNode m root path) (hshort : path.length ≤ 7) {key : BitVec 64}
    (hpath : path <+: digits key 8) : findGeqFrom m' key 7 root = .ok none := by
  have hnode : HasNode m' root path := (hext.hasNode path).mpr (.inr List.prefix_rfl)
  have hbelow : ∀ {t}, path <+: t → path.length < t.length → ¬ HasNode m' root t := by
    intro t hpt hlen ht
    rcases (hext.hasNode t).mp ht with ⟨x, hx⟩ | ht
    · exact hnew (hx.hasNode_prefix hpt)
    · exact absurd ht.length_le (by omega)
  obtain ⟨leaf, -, hat⟩ | ⟨-, -, hrun, -⟩ | ⟨q, d, e, s, w, -, hw, ht⟩ :=
    findGeqFrom_outcome h' key
  · exact absurd ⟨leaf, hat⟩ (hbelow hpath (by rw [length_digits]; omega))
  · exact hrun
  · have hpq := ht.prefix_iff hpath hnode
    refine absurd ht.hasNode_turn (hbelow (hpq.trans (List.prefix_append _ _)) ?_)
    have hle := hpq.length_le
    rw [List.length_append, List.length_singleton]
    omega

end RadixBench.WideRadix
