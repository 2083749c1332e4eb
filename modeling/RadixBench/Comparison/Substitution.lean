import RadixBench.Comparison.Lookups
import RadixBench.WideRadix.Safety

namespace RadixBench.Comparison

open Foundation RadixNew

variable {key : BitVec 64}

inductive MapCall
  | put (key value : BitVec 64)
  | take (key : BitVec 64)
  | get (key : BitVec 64)

inductive MapAnswer
  | done
  | found (found : Bool)
  | value (value : Option (BitVec 64))

theorem length_keyBytes (key : BitVec 64) : (keyBytes key).length = 8 := by
  rw [keyBytes_eq, length_digits]

theorem keyBytes_injective : Function.Injective keyBytes := fun key key' h ↦ by
  rw [keyBytes_eq, keyBytes_eq] at h
  exact digits_injective (n := 8) key.isLt key'.isLt h

section Upsert

open WideRadix

def wideCall (A : Allocator) (s : BareState) : MapCall → Exec (BareState × MapAnswer)
  | .put key value => do
    let (_, memory) ← wideRadixInsert A s.memory s.tree key value
    return ({ s with memory := memory }, .done)
  | .take key => do
    let (found, memory) ← wideRadixDelete s.memory s.tree key
    return ({ s with memory := memory }, .found found)
  | .get key => do
    let value ← lookupValue s.memory s.tree key
    return (s, .value value)

/-- An insertion reports that it has the memory it needs. -/
def WideServes (A : Allocator) (s : BareState) : MapCall → Prop
  | .put key value => ∀ r m', wideRadixInsert A s.memory s.tree key value = .ok (r, m') → r = true
  | _ => True

instance (A : Allocator) (s : BareState) : DecidablePred (WideServes A s)
  | .put key value =>
    decidable_of_iff (∀ r ∈ (wideRadixInsert A s.memory s.tree key value).toOption, r.1 = true) (by
      rw [WideServes]
      cases wideRadixInsert A s.memory s.tree key value with
      | error e => simp [Except.toOption]
      | ok r =>
        obtain ⟨served, m'⟩ := r
        simp [Except.toOption])
  | .take _ => instDecidableTrue
  | .get _ => instDecidableTrue

/-- As `benchmark_libart` calls it, with pointers to values. -/
def libartCall (arch : Art.Arch) (t : Art.ArtTree (BitVec 64)) :
    MapCall → Exec (Art.ArtTree (BitVec 64) × MapAnswer)
  | .put key value => do
    let (t, _) ← Art.artInsert arch 9 t (keyBytes key) (some value)
    return (t, .done)
  | .take key => do
    let (t, old) ← Art.artDelete t (keyBytes key)
    return (t, .found old.isSome)
  | .get key => do
    let value ← Art.artSearch t (keyBytes key)
    return (t, .value value)

def SameValues (s : BareState) (t : Art.ArtTree (BitVec 64)) : Prop :=
  ∃ root map, s.tree.root = some root ∧ WideRadix.Sound s.memory root ∧
    Art.FixedSound 8 ⟨t, map⟩ ∧
    ∀ key, map (keyBytes key) = (stored s.memory root (digits key 8)).map some

theorem wideCall_agrees {A : Allocator} {arch : Art.Arch} {s : BareState}
    {t : Art.ArtTree (BitVec 64)} {call : MapCall} (h : SameValues s t) (hl : WideServes A s call) :
    ∃ s' t' o, wideCall A s call = .ok (s', o) ∧ libartCall arch t call = .ok (t', o) ∧
      SameValues s' t' := by
  obtain ⟨root, map, hroot, hs, ht, hmap⟩ := h
  cases call with
  | put key value =>
    have hrun : wideRadixInsert A s.memory s.tree key value =
        insertFrom A key value 7 s.memory root := by
      rw [wideRadixInsert, hroot, require_some, ok_bind]
    obtain ⟨t', hrun', ht'⟩ := ht.insertWith (length_keyBytes key) (by decide : 8 < 9) true arch
      (some value)
    obtain ⟨m', heq, -⟩ | ⟨m', heq, hs', hins⟩ := insertFrom_cases A key value 7 hs at_nil rfl
    · exact absurd (hl _ _ (hrun.trans heq)) Bool.false_ne_true
    · refine ⟨{ s with memory := m' }, t', .done, ?_, ?_, root, _, hroot, hs', ht', fun key' ↦ ?_⟩
      · rw [wideCall, hrun, heq]
        rfl
      · rw [libartCall, Art.artInsert, hrun']
        rfl
      · have hpath : [] ++ digits key (7 + 1) = digits key 8 := rfl
        rw [hins.stored _ (length_digits _ _), hpath, Art.insertMap, Function.update_apply,
          if_pos rfl]
        dsimp only
        rw [hmap]
        simp only [keyBytes_injective.eq_iff, WideRadix.digits_eq_iff]
        split_ifs <;> rfl
  | take key =>
    have hrun : wideRadixDelete s.memory s.tree key = deleteFrom key 7 s.memory root := by
      rw [wideRadixDelete, hroot, require_some, ok_bind]
    obtain ⟨t', hrun', ht'⟩ := ht.artDelete (length_keyBytes key)
    obtain ⟨m', heq, hs', hdel, -⟩ := deleteFrom_deleted key 7 hs at_nil rfl
    have hpath : [] ++ digits key (7 + 1) = digits key 8 := rfl
    rw [hpath] at heq hdel
    refine ⟨{ s with memory := m' }, t', .found (stored s.memory root (digits key 8)).isSome, ?_, ?_,
      root, _, hroot, hs', ht', fun key' ↦ ?_⟩
    · rw [wideCall, hrun, heq]
      rfl
    · rw [libartCall, hrun', ok_bind]
      dsimp only
      rw [hmap]
      cases stored s.memory root (digits key 8) <;> rfl
    · rw [hdel.stored _ (length_digits _ _), Function.update_apply]
      dsimp only
      rw [hmap]
      simp only [keyBytes_injective.eq_iff, WideRadix.digits_eq_iff]
      split_ifs <;> rfl
  | get key =>
    refine ⟨s, t, .value (stored s.memory root (digits key 8)), ?_, ?_, root, map, hroot, hs, ht,
      hmap⟩
    · rw [wideCall, lookupValue, wideRadixLookup, hroot, require_some, ok_bind,
        lookupFrom_walk key 7 hs at_nil rfl]
      rfl
    · rw [libartCall, ht.artSearch (length_keyBytes key), ok_bind]
      dsimp only
      rw [hmap]
      cases stored s.memory root (digits key 8) <;> rfl

/-- `wide_radix` and `libart` can stand in for each other: as long as the insertions of the first
one report success, no sequence of calls shows which of them answers, and all calls return. -/
theorem wideRadix_libart_agree (A : Allocator) (m : Memory WideRadix.WideRadixNode)
    (keyBits : BitVec 32) (arch : Art.Arch)
    (hroot : (wideRadixInit A m keyBits).1.root ≠ none) (calls : List MapCall)
    (hcalls : Lawful (wideCall A) (WideServes A)
      ⟨(wideRadixInit A m keyBits).1, (wideRadixInit A m keyBits).2⟩ calls) :
    ∃ os : List MapAnswer, os.length = calls.length ∧
      answers (wideCall A) ⟨(wideRadixInit A m keyBits).1, (wideRadixInit A m keyBits).2⟩ calls =
        os.map .ok ∧
      answers (libartCall arch) Art.artTreeInit calls = os.map .ok := by
  obtain ⟨root, hs⟩ := wideRadixInit_stores A
    (s := ⟨(wideRadixInit A m keyBits).1, (wideRadixInit A m keyBits).2, fun _ ↦ none, []⟩)
    ⟨m, keyBits, rfl, hroot, rfl, rfl⟩
  have hsame : SameValues ⟨(wideRadixInit A m keyBits).1, (wideRadixInit A m keyBits).2⟩
      Art.artTreeInit :=
    ⟨root, fun _ ↦ none, hs.root_eq, hs.sound, ⟨Art.sound_init, fun _ hk ↦ absurd rfl hk⟩,
      fun key ↦ (congrArg (Option.map some) (hs.stored key)).symm⟩
  exact answers_return (fun _ _ _ ↦ wideCall_agrees) hsame hcalls

theorem wideRadix_libart_agree_bump : ∃ os : List MapAnswer, os.length = 5 ∧
    answers (wideCall bumpAllocator) ⟨(wideRadixInit bumpAllocator Memory.empty 64).1,
      (wideRadixInit bumpAllocator Memory.empty 64).2⟩
        [.put 5 7, .put 6 8, .put 5 9, .take 6, .get 5] = os.map .ok ∧
    answers (libartCall .x86) Art.artTreeInit [.put 5 7, .put 6 8, .put 5 9, .take 6, .get 5] =
      os.map .ok :=
  wideRadix_libart_agree bumpAllocator Memory.empty 64 .x86 (by decide +kernel)
    [.put 5 7, .put 6 8, .put 5 9, .take 6, .get 5] (by decide +kernel)

end Upsert

section InsertOrReturn

open WideRadixTree

/-- `0` stands for no value. -/
def nonzero (value : BitVec 64) : Option (BitVec 64) := if value = 0#64 then none else some value

def radixNewCall (A : Allocator) (t : WideRadixTree) : MapCall → Exec (WideRadixTree × MapAnswer)
  | .put key value =>
    let (_, existing, t) := treeInsertOrReturnExisting A t key value
    .ok (t, .value (nonzero existing))
  | .take key =>
    let (value, t) := treeRemove t key
    .ok (t, .value (nonzero value))
  | .get key => .ok (t, .value (nonzero (treeFind t key)))

/-- Keys that fit into the levels of the tree, values other than 0, and memory for each insertion
that reports it. -/
def RadixNewServes (A : Allocator) (t : WideRadixTree) : MapCall → Prop
  | .put key value =>
    t.InRange key ∧ value ≠ 0#64 ∧ (treeInsertOrReturnExisting A t key value).1 = 0
  | .take key => t.InRange key
  | .get key => t.InRange key

instance (A : Allocator) (t : WideRadixTree) : DecidablePred (RadixNewServes A t)
  | .put _ _ => inferInstanceAs (Decidable (_ ∧ _ ∧ _))
  | .take key => inferInstanceAs (Decidable (t.InRange key))
  | .get key => inferInstanceAs (Decidable (t.InRange key))

def libartNewCall (arch : Art.Arch) (t : Art.ArtTree (BitVec 64)) :
    MapCall → Exec (Art.ArtTree (BitVec 64) × MapAnswer)
  | .put key value => do
    let (t, old) ← Art.artInsertNoReplace arch 9 t (keyBytes key) (some value)
    return (t, .value old)
  | .take key => do
    let (t, old) ← Art.artDelete t (keyBytes key)
    return (t, .value old)
  | .get key => do
    let value ← Art.artSearch t (keyBytes key)
    return (t, .value value)

def SameNonzero (t : WideRadixTree) (t' : Art.ArtTree (BitVec 64)) : Prop :=
  ∃ live map, t.Sound live ∧ Art.FixedSound 8 ⟨t', map⟩ ∧
    ∀ key, t.InRange key → map (keyBytes key) = (nonzero (t.stored key)).map some

theorem join_map_some (o : Option (BitVec 64)) : (o.map some).join = o := by cases o <;> rfl

theorem radixNewCall_agrees {A : Allocator} {arch : Art.Arch} {t : WideRadixTree}
    {t' : Art.ArtTree (BitVec 64)} {call : MapCall} (h : SameNonzero t t')
    (hl : RadixNewServes A t call) :
    ∃ t₁ t₁' o, radixNewCall A t call = .ok (t₁, o) ∧ libartNewCall arch t' call = .ok (t₁', o) ∧
      SameNonzero t₁ t₁' := by
  obtain ⟨live, map, hs, ht, hmap⟩ := h
  cases call with
  | put key value =>
    obtain ⟨hkey, hvalue, hserved⟩ := hl
    obtain ⟨t₁', hrun', ht'⟩ := ht.insertWith (length_keyBytes key) (by decide : 8 < 9) false arch
      (some value)
    obtain ⟨t₁, live', heq, -⟩ | ⟨q, d, t₁, live', hq, heq, hs', hins⟩ := hs.insert_cases A key value
    · rw [heq] at hserved
      cases hserved
    · have hrange : ∀ key', t₁.InRange key' → t.InRange key' := fun key' hkey' ↦ by
        rwa [InRange, ← hins.numLevels]
      refine ⟨t₁, t₁', .value (nonzero (t.stored key)), ?_, ?_, live', _, hs', ht',
        fun key' hkey' ↦ ?_⟩
      · rw [radixNewCall, heq]
      · rw [libartNewCall, Art.artInsertNoReplace, hrun', ok_bind]
        dsimp only
        rw [hmap key hkey, join_map_some]
        rfl
      · rw [hins.stored_eq hkey (hrange key' hkey') hq, Art.insertMap, Function.update_apply]
        dsimp only
        rw [hmap key hkey, hmap key' (hrange key' hkey')]
        simp only [keyBytes_injective.eq_iff]
        by_cases hk : key' = key
        · by_cases hz : t.stored key = 0#64
          · simp [hk, hz, nonzero, hvalue]
          · simp [hk, hz, nonzero]
        · simp [hk]
  | take key =>
    obtain ⟨t₁', hrun', ht'⟩ := ht.artDelete (length_keyBytes key)
    obtain ⟨q, d, live', hq, hv, hs', hrem⟩ := treeRemove_removed hs key
    have hrange : ∀ key', (treeRemove t key).2.InRange key' → t.InRange key' := fun key' hkey' ↦ by
      rwa [InRange, ← hrem.numLevels]
    refine ⟨_, t₁', .value (nonzero (t.stored key)), ?_, ?_, live', _, hs', ht',
      fun key' hkey' ↦ ?_⟩
    · rw [radixNewCall, ← content_eq_stored hq, ← hv]
    · rw [libartNewCall, hrun', ok_bind]
      dsimp only
      rw [hmap key hl, join_map_some]
      rfl
    · rw [hrem.stored_eq hl (hrange key' hkey') hq, Function.update_apply]
      dsimp only
      rw [hmap key' (hrange key' hkey')]
      simp only [keyBytes_injective.eq_iff]
      split_ifs <;> rfl
  | get key =>
    refine ⟨t, t', .value (nonzero (t.stored key)), ?_, ?_, live, map, hs, ht, hmap⟩
    · rw [radixNewCall, hs.treeFind_eq]
    · rw [libartNewCall, ht.artSearch (length_keyBytes key), ok_bind]
      dsimp only
      rw [hmap key hl, join_map_some]
      rfl

/-- `radix_new` and `libart` can stand in for each other, when a key that is there keeps its value:
no sequence of calls with fitting keys and values shows which of them answers. -/
theorem radixNew_libart_agree (A : Allocator) (m : Memory Block) {log2Max log2Align : BitVec 8}
    (hlt : log2Align.toNat < log2Max.toNat) (hle : log2Max.toNat ≤ log2Align.toNat + 64)
    (arch : Art.Arch) (calls : List MapCall)
    (hcalls : Lawful (radixNewCall A) (RadixNewServes A) (treeInit A m log2Max log2Align) calls) :
    ∃ os : List MapAnswer, os.length = calls.length ∧
      answers (radixNewCall A) (treeInit A m log2Max log2Align) calls = os.map .ok ∧
      answers (libartNewCall arch) Art.artTreeInit calls = os.map .ok := by
  obtain ⟨hs, hzero⟩ := treeInit_sound A m hlt hle
  have hsame : SameNonzero (treeInit A m log2Max log2Align) Art.artTreeInit := by
    refine ⟨_, fun _ ↦ none, hs, ⟨Art.sound_init, fun _ hk ↦ absurd rfl hk⟩, fun key _ ↦ ?_⟩
    have hstored : (treeInit A m log2Max log2Align).stored key = 0#64 := (hzero _ _).1
    rw [hstored]
    rfl
  exact answers_return (fun _ _ _ ↦ radixNewCall_agrees) hsame hcalls

theorem radixNew_libart_agree_bump : ∃ os : List MapAnswer, os.length = 5 ∧
    answers (radixNewCall bumpAllocator) (treeInit bumpAllocator Memory.empty 16 0)
      [.put 300 7, .put 5 8, .put 300 9, .take 5, .get 300] = os.map .ok ∧
    answers (libartNewCall .x86) Art.artTreeInit
      [.put 300 7, .put 5 8, .put 300 9, .take 5, .get 300] = os.map .ok :=
  radixNew_libart_agree bumpAllocator Memory.empty (by decide : (0#8).toNat < (16#8).toNat)
    (by decide) .x86 [.put 300 7, .put 5 8, .put 300 9, .take 5, .get 300] (by decide +kernel)

end InsertOrReturn

end RadixBench.Comparison
