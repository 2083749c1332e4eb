import RadixBench.RadixNew.FailureQueries

namespace RadixBench.RadixNew

open Foundation Memory Pool WideRadixTree

/-- `objectPoolAlloc` returns `NULL` at `level`, in the insertion of `key`. -/
def FailsAtLevel (A : Allocator) (t : WideRadixTree) (key : BitVec 64) (level : ℕ) : Prop :=
  ∃ last, t.numLevels = last + 1 ∧ FailsAt A key last t .root level

structure Unobservable (t t' : WideRadixTree) : Prop where
  find : ∀ query, t.InRange query → treeFind t' query = treeFind t query
  findGEQ : ∀ query, t.InRange query → ∃ v, treeFindGEQ t query = .ok v ∧
    treeFindGEQ t' query = .ok v

/-- The least key with the leading `level` bytes of `key`, in a tree of `n` levels. -/
def leastSharing (n : ℕ) (key : BitVec 64) (level : ℕ) : ℕ :=
  key.toNat % 256 ^ n / 256 ^ (n - level) * 256 ^ (n - level)

/-- The keys with the leading `level` bytes of `key` start from 0, or one of them is present,
or the key right before them is. -/
def LeavesNoTrace (s : MapState) (key : BitVec 64) (level : ℕ) : Prop :=
  let n := s.tree.numLevels
  let least := leastSharing n key level
  least = 0 ∨ ∃ k, s.tree.InRange k ∧ s.map k ≠ 0#64 ∧ least ≤ k.toNat + 1 ∧
    k.toNat < least + 256 ^ (n - level)

theorem pow_256_pos (n : ℕ) : 0 < 256 ^ n := Nat.pow_pos (by norm_num)

section

variable {n level : ℕ} {s : MapState} {key : BitVec 64}

theorem ofDigits_take_digits (n level : ℕ) (key : BitVec 64) :
    ofDigits ((digits key n).take level) * 256 ^ (n - level) = leastSharing n key level := by
  rw [ofDigits_take, ofDigits_digits, length_digits, leastSharing]

theorem sharing_iff {t : WideRadixTree} (hlevel : level < t.numLevels) {k : BitVec 64}
    (hk : t.InRange k) : (digits key t.numLevels).take level <+: digits k t.numLevels ↔
      leastSharing t.numLevels key level ≤ k.toNat ∧
        k.toNat < leastSharing t.numLevels key level + 256 ^ (t.numLevels - level) := by
  have hlen : ((digits key t.numLevels).take level).length = level := by
    rw [List.length_take, length_digits]
    omega
  rw [prefix_iff_div (by rw [hlen, length_digits]; omega), hlen, length_digits,
    Stores.ofDigits_eq hk, ← ofDigits_take_digits, Nat.div_eq_iff (pow_256_pos _)]
  have hpos := pow_256_pos (t.numLevels - level)
  omega

theorem exists_key_before {t : WideRadixTree} (hpos : leastSharing t.numLevels key level ≠ 0) :
    ∃ k, t.InRange k ∧ k.toNat + 1 = leastSharing t.numLevels key level := by
  have hle : leastSharing t.numLevels key level ≤ key.toNat % 256 ^ t.numLevels :=
    Nat.div_mul_le_self _ _
  have hmod := Nat.mod_lt key.toNat (pow_256_pos t.numLevels)
  have hkey := Nat.mod_le key.toNat (256 ^ t.numLevels)
  have hmax := key.isLt
  have hk : (BitVec.ofNat 64 (leastSharing t.numLevels key level - 1)).toNat =
      leastSharing t.numLevels key level - 1 := by
    rw [BitVec.toNat_ofNat, Nat.mod_eq_of_lt (by omega)]
  exact ⟨_, inRange_iff.mpr (by rw [hk]; omega), by omega⟩

theorem Stores.harmless_iff (h : Stores n s) (hlevel : level < s.tree.numLevels) :
    s.tree.Harmless ((digits key s.tree.numLevels).take level) ↔ LeavesNoTrace s key level := by
  obtain ⟨live, hs⟩ := h.sound
  have hlen : ((digits key s.tree.numLevels).take level).length = level := by
    rw [List.length_take, length_digits]
    omega
  have hbefore : ∀ {u : List (BitVec 8)}, u.length = s.tree.numLevels →
      (Before u ((digits key s.tree.numLevels).take level) ↔
        ofDigits u < leastSharing s.tree.numLevels key level) := by
    intro u hu
    rw [before_iff_lt_mul (by omega), hlen, hu, ofDigits_take_digits]
  constructor
  · rintro (⟨r, hr, hpre⟩ | hbetween)
    · obtain ⟨k, hk, rfl, hne⟩ := (h.present_iff r).mp hr
      obtain ⟨hle, hlt⟩ := (sharing_iff hlevel hk).mp hpre
      exact .inr ⟨k, hk, hne, by omega, hlt⟩
    · refine or_iff_not_imp_left.mpr fun hpos ↦ ?_
      obtain ⟨q, hq, hqleast⟩ := exists_key_before (t := s.tree) hpos
      have hqlen := length_digits q s.tree.numLevels
      obtain ⟨r, hr, hge, hlt⟩ := hbetween _ hqlen
        ((hbefore hqlen).mpr (by rw [Stores.ofDigits_eq hq]; omega))
      obtain ⟨k, hk, rfl, hne⟩ := (h.present_iff r).mp hr
      rw [before_iff_lt (hr.length.trans hqlen.symm), Stores.ofDigits_eq hk,
        Stores.ofDigits_eq hq] at hge
      rw [hbefore hr.length, Stores.ofDigits_eq hk] at hlt
      have hspan := pow_256_pos (s.tree.numLevels - level)
      exact ⟨k, hk, hne, by omega, by omega⟩
  · rintro (hzero | ⟨k, hk, hne, hle, hlt⟩)
    · refine .inr fun goal hgoal hlt ↦ ?_
      rw [hbefore hgoal, hzero] at hlt
      exact absurd hlt (Nat.not_lt_zero _)
    · have hpres := (h.present_iff _).mpr ⟨k, hk, rfl, hne⟩
      by_cases hge : leastSharing s.tree.numLevels key level ≤ k.toNat
      · exact .inl ⟨_, hpres, (sharing_iff hlevel hk).mpr ⟨hge, hlt⟩⟩
      · refine .inr fun goal hgoal hlt ↦ ⟨_, hpres, ?_, ?_⟩
        · rw [hbefore hgoal] at hlt
          rw [before_iff_lt (hpres.length.trans hgoal.symm), Stores.ofDigits_eq hk]
          omega
        · rw [hbefore hpres.length, Stores.ofDigits_eq hk]
          omega

end

/-- A failed insertion is not noticed by any query exactly when it leaves no trace. -/
theorem treeInsert_unobservable_iff (A : Allocator) {log2Max log2Align : BitVec 8}
    (hlt : log2Align.toNat < log2Max.toNat) (hle : log2Max.toNat ≤ log2Align.toNat + 64)
    {s : MapState} (h : InsertReachable A log2Max log2Align s) (key value : BitVec 64) {level : ℕ}
    (hfail : FailsAtLevel A s.tree key level) : ∃ t',
      treeInsertOrReturnExisting A s.tree key value = (-1, 0#64, t') ∧
        (Unobservable s.tree t' ↔ LeavesNoTrace s key level) := by
  obtain ⟨hstores, hmark⟩ := InsertReachable.marked hlt hle h
  obtain ⟨live, hs⟩ := hstores.sound
  obtain ⟨last, hn, hfail⟩ := hfail
  obtain ⟨-, hlevel, t', live', hrun, hs', hext⟩ := insertFrom_failed value hfail hs
    (at_nil hs.levels_pos) (by rw [List.length_nil, hn]; omega) fun q e hq ↦
      absurd (List.prefix_nil.mp hq) (by simp)
  rw [List.nil_append, ← hn] at hext
  have hshort : ((digits key s.tree.numLevels).take level).length < s.tree.numLevels := by
    rw [List.length_take, length_digits]
    omega
  refine ⟨t', by rw [treeInsertOrReturnExisting, hn]; exact hrun, ?_⟩
  rw [← hstores.harmless_iff hlevel]
  constructor
  · intro hun
    by_contra hharm
    simp only [Harmless, not_or, not_exists, not_and, not_forall] at hharm
    obtain ⟨hnew, goal, hgoal, hbefore, hgap⟩ := hharm
    obtain ⟨query, hquery, rfl⟩ := exists_digits hs.levels_le hgoal
    obtain ⟨v, -, hv⟩ := hun.findGEQ query (inRange_iff.mpr hquery)
    rw [treeFindGEQ_dead hs hs' hmark hext hshort hnew hbefore hgap] at hv
    cases hv
  · intro hharm
    refine ⟨fun query _ ↦ ?_, fun query hquery ↦ ?_⟩
    · rw [hs'.treeFind_eq, hs.treeFind_eq, hext.stored_eq hs.levels_pos]
    · rw [treeFindGEQ_extended hs hs' hext hshort hharm]
      obtain ⟨k, -, -, -, -, hv⟩ | ⟨-, hv⟩ := h.findGEQ hlt hle hquery
      · exact ⟨_, hv, hv⟩
      · exact ⟨_, hv, hv⟩

def afterInsert (A : Allocator) (s : MapState) (key value : BitVec 64) : MapState :=
  let (r, _, tree) := treeInsertOrReturnExisting A s.tree key value
  ⟨tree, if r = 0 ∧ s.map key = 0#64 then Function.update s.map key value else s.map⟩

def Served (A : Allocator) : MapState → List (BitVec 64) → Prop
  | _, [] => True
  | s, key :: keys => s.tree.InRange key ∧
      (afterInsert A s key 1).tree.memory.failures = s.tree.memory.failures ∧
      Served A (afterInsert A s key 1) keys

instance decidableServed (A : Allocator) :
    (keys : List (BitVec 64)) → (s : MapState) → Decidable (Served A s keys)
  | [], _ => instDecidableTrue
  | key :: keys, s =>
    have := decidableServed A keys (afterInsert A s key 1)
    inferInstanceAs (Decidable (_ ∧ _ ∧ _))

theorem Served.reachable {A : Allocator} {log2Max log2Align : BitVec 8} {s : MapState}
    (h : InsertReachable A log2Max log2Align s) {keys : List (BitVec 64)}
    (hkeys : Served A s keys) :
    InsertReachable A log2Max log2Align (keys.foldl (fun s key ↦ afterInsert A s key 1) s) := by
  induction keys generalizing s with
  | nil => exact h
  | cons key keys ih =>
    obtain ⟨hrange, hfail, hkeys⟩ := hkeys
    have hlegal : InsertLegal A s (.insert key 1) := ⟨hrange, by decide, hfail⟩
    exact ih (.step h hlegal rfl) hkeys

/-- Sixteen keys, the least one with the top byte 2; together they take the 100 blocks of the
non-leaf pool. -/
def crowd : List (BitVec 64) :=
  (List.range 16).map fun i ↦ BitVec.ofNat 64 ((64 * (i % 4) + i / 4 + 2) * 2 ^ 56)

/-- The two pools are allocated, with six calls, and cannot grow. -/
def fixedPools : Allocator := bumpAllocator.failFrom 6

def crowded : MapState :=
  crowd.foldl (fun s key ↦ afterInsert fixedPools s key 1)
    ⟨treeInit fixedPools Memory.empty 64 0, fun _ ↦ 0#64⟩

theorem crowded_reachable : InsertReachable fixedPools 64 0 crowded :=
  Served.reachable (.init ⟨⟨Memory.empty, rfl⟩, rfl⟩) (by decide +kernel)

def crowdedFailed : WideRadixTree :=
  (treeInsertOrReturnExisting fixedPools crowded.tree 0x0100000000000000 1).2.2

theorem crowded_failed :
    treeInsertOrReturnExisting fixedPools crowded.tree 0x0100000000000000 1 =
      (-1, 0#64, crowdedFailed) := by
  have hcode : (treeInsertOrReturnExisting fixedPools crowded.tree 0x0100000000000000 1).1 = -1 ∧
      (treeInsertOrReturnExisting fixedPools crowded.tree 0x0100000000000000 1).2.1 = 0#64 := by
    decide +kernel
  exact Prod.ext hcode.1 (Prod.ext hcode.2 (by rw [crowdedFailed]))

theorem crowded_failsAtLevel :
    ∃ level, FailsAtLevel fixedPools crowded.tree 0x0100000000000000 level := by
  have hn : crowded.tree.numLevels = 8 := by decide +kernel
  have hrun := crowded_failed
  rw [treeInsertOrReturnExisting, hn] at hrun
  obtain ⟨level, hfail⟩ := exists_failsAt hrun
  exact ⟨level, 7, hn, hfail⟩

theorem treeInsert_unobservable_iff_crowded : ∃ level t',
    treeInsertOrReturnExisting fixedPools crowded.tree 0x0100000000000000 1 = (-1, 0#64, t') ∧
      (Unobservable crowded.tree t' ↔ LeavesNoTrace crowded 0x0100000000000000 level) := by
  obtain ⟨level, hfail⟩ := crowded_failsAtLevel
  exact ⟨level, treeInsert_unobservable_iff fixedPools (by decide) (by decide) crowded_reachable
    _ 1 hfail⟩

/-- After an insertion has failed, a query that had an answer reads past the end of the array
of children. -/
theorem treeInsert_breaks_findGEQ : ∃ A s key value level t' query v,
    InsertReachable A 64 0 s ∧ s.tree.memory.failures = 0 ∧ FailsAtLevel A s.tree key level ∧
    treeInsertOrReturnExisting A s.tree key value = (-1, 0#64, t') ∧ s.tree.InRange query ∧
    treeFindGEQ s.tree query = .ok v ∧ treeFindGEQ t' query = .error .indexOutOfRange := by
  obtain ⟨level, hfail⟩ := crowded_failsAtLevel
  have hrun : treeFindGEQ crowded.tree 0 = .ok 1#64 := by decide +kernel
  have hdead : treeFindGEQ crowdedFailed 0 = .error .indexOutOfRange := by decide +kernel
  exact ⟨fixedPools, crowded, 0x0100000000000000, 1, level, crowdedFailed, 0, 1#64,
    crowded_reachable, by decide +kernel, hfail, crowded_failed, by decide +kernel, hrun, hdead⟩

end RadixBench.RadixNew
