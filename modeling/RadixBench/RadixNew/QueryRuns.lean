import RadixBench.RadixNew.LowerBound

namespace RadixBench.RadixNew

open Foundation Memory Pool

namespace WideRadixTree

variable {t t' : WideRadixTree} {live : Bool → List ℕ}

theorem Inserted.present {q : List (BitVec 8)} {d : BitVec 8} {v : BitVec 64}
    (hi : Inserted t t' q d v) (hv : v ≠ 0#64) {path : List (BitVec 8)} (hp : t.Present path) :
    t'.Present path := by
  obtain ⟨r, e, rfl, hr, hne⟩ := hp
  refine ⟨r, e, rfl, hr.trans hi.numLevels.symm, ?_⟩
  rw [hi.content e hr]
  split_ifs
  · exact hv
  · exact hne

theorem Inserted.leads {q : List (BitVec 8)} {d : BitVec 8} {v : BitVec 64}
    (hi : Inserted t t' q d v) (hv : v ≠ 0#64) (hq : q.length + 1 = t.numLevels)
    {r : List (BitVec 8)} {e : BitVec 8}
    (hold : t.HasBit r e → ∃ path, t.Present path ∧ r ++ [e] <+: path) (hbit : t'.HasBit r e) :
    ∃ path, t'.Present path ∧ r ++ [e] <+: path := by
  rcases (hi.hasBit r e).mp hbit with hbit | hpre
  · obtain ⟨path, hpath, hle⟩ := hold hbit
    exact ⟨path, hi.present hv hpath, hle⟩
  · refine ⟨q ++ [d], ⟨q, d, rfl, hq.trans hi.numLevels.symm, ?_⟩, hpre⟩
    rw [hi.content d hq]
    split_ifs with hz
    · exact hv
    · exact fun hc ↦ hz ⟨⟨rfl, rfl⟩, hc⟩

theorem Inserted.supported {q : List (BitVec 8)} {d : BitVec 8} {v : BitVec 64}
    (hi : Inserted t t' q d v) (hv : v ≠ 0#64) (hq : q.length + 1 = t.numLevels)
    (hsup : t.Supported) : t'.Supported :=
  fun hbit hr ↦ hi.leads hv hq (fun hold ↦ hsup hold hr) hbit

/-- A removal takes away the marks below the root that only led to the removed value. -/
theorem Removed.keeps_supported {q : List (BitVec 8)} {d : BitVec 8} (hrem : Removed t t' q d)
    (hsup : t.Supported) : t'.Supported := by
  have hoff : ∀ {r e}, t'.HasBit r e → r ≠ [] → ¬ r ++ [e] <+: q ++ [d] →
      ∃ path, t'.Present path ∧ r ++ [e] <+: path := by
    intro r e hbit hr hnot
    obtain ⟨_, ⟨q', d', rfl, hq', hne⟩, hle⟩ := hsup (hrem.of_hasBit hbit) hr
    refine ⟨q' ++ [d'], ⟨q', d', rfl, hq'.trans hrem.numLevels.symm, ?_⟩, hle⟩
    rw [hrem.content d' hq', if_neg]
    · exact hne
    · rintro ⟨rfl, rfl⟩
      exact hnot hle
  intro r e hbit hr
  by_cases hpre : r ++ [e] <+: q ++ [d]
  · obtain ⟨r', e', hle, hbit', hnot⟩ := hrem.supported hbit hr hpre
    have hr' : r' ≠ [] := by
      rintro rfl
      exact absurd (List.prefix_nil.mp hle) (by simp)
    obtain ⟨path, hpath, hle'⟩ := hoff hbit' hr' hnot
    exact ⟨path, hpath, hle.trans ((List.prefix_append _ _).trans hle')⟩
  · exact hoff hbit hr hpre

end WideRadixTree

open WideRadixTree

/-- Calls on keys of the tree, insertions being of values other than zero and served
by the allocator. -/
def QueryLegal (A : Allocator) (s : MapState) : MapOp → Prop
  | .insert key value => s.tree.InRange key ∧ value ≠ 0#64 ∧
      (treeInsertOrReturnExisting A s.tree key value).2.2.memory.failures = s.tree.memory.failures
  | .remove key => s.tree.InRange key

abbrev QueryReachable (A : Allocator) (log2Max log2Align : BitVec 8) :=
  Reachable (MapInitial A log2Max log2Align) (QueryLegal A) (mapStep A)

theorem mapStep_supported (A : Allocator) {n : ℕ} {s : MapState} (h : Stores n s)
    (hsup : s.tree.Supported) (op : MapOp) (hl : QueryLegal A s op) :
    ∃ s', mapStep A s op = .ok s' ∧ Stores n s' ∧ s'.tree.Supported := by
  obtain ⟨live, hs⟩ := h.sound
  have hlegal : MapLegal s op := by
    cases op with
    | insert key value => exact hl.1
    | remove key => exact hl
  obtain ⟨s', hstep, hstores⟩ := mapStep_stores A h op hlegal
  refine ⟨s', hstep, hstores, ?_⟩
  cases op with
  | insert key value =>
    obtain ⟨-, hv, hfail⟩ := hl
    obtain ⟨t', -, heq, -, -, hlt⟩ | ⟨q, d, t', -, hq, heq, -, hins⟩ :=
      hs.insert_cases A key value
    · rw [heq] at hfail
      exact absurd hfail hlt.ne'
    · simp only [mapStep, heq] at hstep
      cases hstep
      exact hins.supported hv (digits_eq_concat hq).2.2 hsup
  | remove key =>
    obtain ⟨q, d, -, hq, -, -, hrem⟩ := treeRemove_removed hs key
    cases hstep
    exact hrem.keeps_supported hsup

theorem QueryReachable.supported {A : Allocator} {log2Max log2Align : BitVec 8}
    (hlt : log2Align.toNat < log2Max.toNat) (hle : log2Max.toNat ≤ log2Align.toNat + 64)
    {s : MapState} (h : QueryReachable A log2Max log2Align s) :
    Stores (computeNumLevels log2Max log2Align) s ∧ s.tree.Supported := by
  refine Reachable.invariant_of_returns (I := fun s ↦ Stores (computeNumLevels log2Max log2Align) s ∧
    s.tree.Supported) ?_ (fun s op hs hl ↦ mapStep_supported A hs.1 hs.2 op hl) h
  intro s hinit
  refine ⟨MapReachable.stores hlt hle (.init hinit), fun {r e} hbit ↦ ?_⟩
  obtain ⟨⟨m, ht⟩, -⟩ := hinit
  rw [ht] at hbit
  exact absurd hbit ((treeInit_sound A m hlt hle).2 r e).2

namespace Stores

variable {n : ℕ} {s : MapState}

theorem present_iff (h : Stores n s) (path : List (BitVec 8)) :
    s.tree.Present path ↔ ∃ key, s.tree.InRange key ∧ digits key s.tree.numLevels = path ∧
      s.map key ≠ 0#64 := by
  obtain ⟨live, hs⟩ := h.sound
  constructor
  · rintro ⟨q, d, rfl, hq, hne⟩
    have hlen : (q ++ [d]).length = s.tree.numLevels := by simpa using hq
    obtain ⟨key, hkey, hd⟩ := exists_digits hs.levels_le hlen
    have hrange : s.tree.InRange key := inRange_iff.mpr hkey
    refine ⟨key, hrange, hd, ?_⟩
    rwa [← h.stored key hrange, ← content_eq_stored hd.symm]
  · rintro ⟨key, hkey, rfl, hne⟩
    obtain ⟨last, hn⟩ := Nat.exists_eq_succ_of_ne_zero hs.levels_pos.ne'
    have hpath : digits (key >>> 8) last ++ [digit key 0] = digits key s.tree.numLevels := by
      rw [hn]
      exact (digits_snoc key last).symm
    refine ⟨_, _, hpath, by rw [length_digits, hn], ?_⟩
    rwa [content_eq_stored hpath, h.stored key hkey]

theorem ofDigits_eq {t : WideRadixTree} {key : BitVec 64} (hkey : t.InRange key) :
    ofDigits (digits key t.numLevels) = key.toNat := by
  rw [ofDigits_digits, Nat.mod_eq_of_lt (inRange_iff.mp hkey)]

theorem prefix_digits_iff {t : WideRadixTree} (hpos : 0 < t.numLevels) {key : BitVec 64}
    {e : BitVec 8} : [e] <+: digits key t.numLevels ↔ digit key (t.numLevels - 1) = e := by
  obtain ⟨last, hn⟩ := Nat.exists_eq_succ_of_ne_zero hpos.ne'
  rw [hn, digits, List.cons_prefix_cons]
  simp [eq_comm]

end Stores

def AnswersGEQ (s : MapState) (query : BitVec 64) (r : Exec (BitVec 64)) : Prop :=
  (∃ key, s.tree.InRange key ∧ s.map key ≠ 0#64 ∧ query ≤ key ∧
    (∀ key', s.tree.InRange key' → s.map key' ≠ 0#64 → query ≤ key' → key ≤ key') ∧
    r = .ok (s.map key)) ∨
  ((∀ key, s.tree.InRange key → query ≤ key → s.map key = 0#64) ∧ r = .ok 0#64)

/-- The first presence bit of the root from `startBit` on is the top byte of some key
that is present. -/
def RootBitHeld (s : MapState) (startBit : ℕ) : Prop :=
  ∀ b, FirstIn s.tree.root.bits startBit 255 b →
    ∃ key, s.tree.InRange key ∧ s.map key ≠ 0#64 ∧ digit key (s.tree.numLevels - 1) = b

def QueryClear (s : MapState) (query : BitVec 64) : Prop :=
  let top := digit query (s.tree.numLevels - 1)
  if s.tree.numLevels = 1 then
    (∀ key, s.tree.InRange key → query ≤ key → s.map key = 0#64) ∨ RootBitHeld s top.toNat
  else
    (∃ key, s.tree.InRange key ∧ s.map key ≠ 0#64 ∧ query ≤ key ∧
      digit key (s.tree.numLevels - 1) = top) ∨ RootBitHeld s (top.toNat + 1)

namespace Stores

variable {n : ℕ} {s : MapState}

theorem forall_present (h : Stores n s) {P : List (BitVec 8) → Prop} :
    (∀ r, s.tree.Present r → P r) ↔ ∀ key, s.tree.InRange key → s.map key ≠ 0#64 →
      P (digits key s.tree.numLevels) := by
  constructor
  · intro hall key hkey hne
    exact hall _ ((h.present_iff _).mpr ⟨key, hkey, rfl, hne⟩)
  · intro hall r hr
    obtain ⟨key, hkey, rfl, hne⟩ := (h.present_iff r).mp hr
    exact hall key hkey hne

theorem none_iff (h : Stores n s) {query : BitVec 64} (hq : s.tree.InRange query) :
    (∀ r, s.tree.Present r → ofDigits r < ofDigits (digits query s.tree.numLevels)) ↔
      ∀ key, s.tree.InRange key → query ≤ key → s.map key = 0#64 := by
  rw [h.forall_present]
  constructor
  · intro hall key hkey hle
    by_contra hne
    have hlt := hall key hkey hne
    rw [ofDigits_eq hkey, ofDigits_eq hq] at hlt
    rw [BitVec.le_def] at hle
    omega
  · intro hall key hkey hne
    rw [ofDigits_eq hkey, ofDigits_eq hq]
    by_contra hlt
    refine hne (hall key hkey ?_)
    rw [BitVec.le_def]
    omega

theorem answers_iff (h : Stores n s) {query : BitVec 64} (hq : s.tree.InRange query)
    (r : Exec (BitVec 64)) :
    s.tree.Answers (digits query s.tree.numLevels) r ↔ AnswersGEQ s query r := by
  rw [Answers, AnswersGEQ, h.none_iff hq, and_comm (a := r = .ok 0#64)]
  refine or_congr_left ?_
  constructor
  · rintro ⟨q, d, rfl, hpres, hge, hleast⟩
    obtain ⟨key, hkey, hd, hne⟩ := (h.present_iff _).mp hpres
    have hleast := h.forall_present.mp hleast
    rw [← hd, ofDigits_eq hq, ofDigits_eq hkey] at hge
    refine ⟨key, hkey, hne, hge, fun key' hkey' hne' hle ↦ ?_, ?_⟩
    · have hmin := hleast key' hkey' hne'
      rw [← hd, ofDigits_eq hq, ofDigits_eq hkey, ofDigits_eq hkey'] at hmin
      exact hmin hle
    · rw [content_eq_stored hd.symm, h.stored key hkey]
  · rintro ⟨key, hkey, hne, hge, hleast, rfl⟩
    obtain ⟨q, d, hd, hlen, hne'⟩ := (h.present_iff _).mpr ⟨key, hkey, rfl, hne⟩
    refine ⟨q, d, ?_, ⟨q, d, rfl, hlen, hne'⟩, ?_, h.forall_present.mpr fun key' hkey' hne' ↦ ?_⟩
    · rw [content_eq_stored hd, h.stored key hkey]
    · rwa [hd, ofDigits_eq hq, ofDigits_eq hkey]
    · rw [hd, ofDigits_eq hq, ofDigits_eq hkey, ofDigits_eq hkey']
      exact hleast key' hkey' hne'

theorem firstSupported_iff (h : Stores n s) (startBit : ℕ) :
    s.tree.FirstSupported startBit ↔ RootBitHeld s startBit := by
  obtain ⟨live, hs⟩ := h.sound
  refine forall_congr' fun b ↦ imp_congr_right fun _ ↦ ?_
  constructor
  · rintro ⟨r, hr, hpre⟩
    obtain ⟨key, hkey, rfl, hne⟩ := (h.present_iff r).mp hr
    exact ⟨key, hkey, hne, (prefix_digits_iff hs.levels_pos).mp hpre⟩
  · rintro ⟨key, hkey, hne, hb⟩
    exact ⟨_, (h.present_iff _).mpr ⟨key, hkey, rfl, hne⟩, (prefix_digits_iff hs.levels_pos).mpr hb⟩

theorem exists_top_iff (h : Stores n s) {query : BitVec 64} (hq : s.tree.InRange query)
    {b : BitVec 8} :
    (∃ r, s.tree.Present r ∧ ofDigits (digits query s.tree.numLevels) ≤ ofDigits r ∧ [b] <+: r) ↔
      ∃ key, s.tree.InRange key ∧ s.map key ≠ 0#64 ∧ query ≤ key ∧
        digit key (s.tree.numLevels - 1) = b := by
  obtain ⟨live, hs⟩ := h.sound
  constructor
  · rintro ⟨r, hr, hle, hpre⟩
    obtain ⟨key, hkey, rfl, hne⟩ := (h.present_iff r).mp hr
    rw [ofDigits_eq hq, ofDigits_eq hkey] at hle
    exact ⟨key, hkey, hne, hle, (prefix_digits_iff hs.levels_pos).mp hpre⟩
  · rintro ⟨key, hkey, hne, hle, hb⟩
    refine ⟨_, (h.present_iff _).mpr ⟨key, hkey, rfl, hne⟩, ?_,
      (prefix_digits_iff hs.levels_pos).mpr hb⟩
    rwa [ofDigits_eq hq, ofDigits_eq hkey]

end Stores

/-- In every run, a query is answered rightly exactly when no stale bit of the root,
left behind by a removal, lies in its way. -/
theorem treeFindGEQ_answers_iff (A : Allocator) {log2Max log2Align : BitVec 8}
    (hlt : log2Align.toNat < log2Max.toNat) (hle : log2Max.toNat ≤ log2Align.toNat + 64)
    {s : MapState} (h : QueryReachable A log2Max log2Align s) {query : BitVec 64}
    (hq : s.tree.InRange query) :
    AnswersGEQ s query (treeFindGEQ s.tree query) ↔ QueryClear s query := by
  obtain ⟨hstores, hsup⟩ := QueryReachable.supported hlt hle h
  obtain ⟨live, hs⟩ := hstores.sound
  have hf := (Stores.prefix_digits_iff hs.levels_pos).mpr (rfl : digit query _ = _)
  rw [← hstores.answers_iff hq, WideRadixTree.answers_iff hs hsup rfl hf, QueryClear,
    hstores.none_iff hq, hstores.firstSupported_iff, hstores.firstSupported_iff,
    hstores.exists_top_iff hq]

def clean : MapState := ⟨treeInit bumpAllocator Memory.empty 16 0, fun _ ↦ 0#64⟩

def filled : MapState :=
  ⟨(treeInsertOrReturnExisting bumpAllocator clean.tree 256 1).2.2,
    Function.update clean.map 256 1⟩

def emptied : MapState :=
  ⟨(treeRemove filled.tree 256).2, Function.update filled.map 256 0#64⟩

theorem filled_reachable : QueryReachable bumpAllocator 16 0 filled := by
  have h₀ : QueryReachable bumpAllocator 16 0 clean := .init ⟨⟨Memory.empty, rfl⟩, rfl⟩
  have hinsert : QueryLegal bumpAllocator clean (.insert 256 1) :=
    ⟨by decide +kernel, by decide, by decide +kernel⟩
  have hr : (treeInsertOrReturnExisting bumpAllocator clean.tree 256 1).1 = 0 := by
    decide +kernel
  refine .step h₀ hinsert ?_
  rw [mapStep]
  simp only [hr, true_and]
  rfl

theorem emptied_reachable : QueryReachable bumpAllocator 16 0 emptied :=
  .step (l := .remove 256) filled_reachable
    (show WideRadixTree.InRange filled.tree 256 by decide +kernel) rfl

/-- After a key is inserted and removed again, a smaller query reads past the end of
the array of children. -/
theorem treeFindGEQ_stale :
    ∃ s query, QueryReachable bumpAllocator 16 0 s ∧ s.tree.InRange query ∧
      treeFindGEQ s.tree query = .error .indexOutOfRange ∧
      ¬ AnswersGEQ s query (treeFindGEQ s.tree query) := by
  have hrun : treeFindGEQ emptied.tree 0 = .error .indexOutOfRange := by decide +kernel
  refine ⟨emptied, 0, emptied_reachable, by decide +kernel, hrun, ?_⟩
  rw [hrun]
  rintro (⟨key, -, -, -, -, heq⟩ | ⟨-, heq⟩) <;> cases heq

theorem treeFindGEQ_answers_iff_filled :
    AnswersGEQ filled 0 (treeFindGEQ filled.tree 0) ↔ QueryClear filled 0 :=
  treeFindGEQ_answers_iff bumpAllocator (by decide) (by decide) filled_reachable
    (by decide +kernel)

end RadixBench.RadixNew
