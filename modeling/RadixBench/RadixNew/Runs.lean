import RadixBench.RadixNew.Lookup

namespace RadixBench.RadixNew

open Foundation Memory Pool

namespace WideRadixTree

variable {t t' : WideRadixTree} {live : Bool → List ℕ}

def InRange (t : WideRadixTree) (key : BitVec 64) : Prop := key.toNat < 2 ^ (8 * t.numLevels)

instance (t : WideRadixTree) (key : BitVec 64) : Decidable (t.InRange key) :=
  inferInstanceAs (Decidable (_ < _))

theorem inRange_iff {key : BitVec 64} : t.InRange key ↔ key.toNat < 256 ^ t.numLevels := by
  rw [InRange, pow_mul]
  rfl

theorem samePath_iff {key key' : BitVec 64} {q : List (BitVec 8)} {d : BitVec 8}
    (hq : q ++ [d] = digits key t.numLevels) :
    (digits key' t.numLevels).dropLast = q ∧ digit key' 0 = d ↔
      digits key' t.numLevels = digits key t.numLevels := by
  obtain ⟨-, -, hlen⟩ := digits_eq_concat hq
  rw [← hq, ← hlen, digits_snoc, List.dropLast_concat]
  exact List.append_singleton_inj.symm

theorem digits_eq_iff {key key' : BitVec 64} (h : t.InRange key) (h' : t.InRange key') :
    digits key' t.numLevels = digits key t.numLevels ↔ key' = key :=
  ⟨digits_injective (inRange_iff.mp h') (inRange_iff.mp h), fun heq ↦ by rw [heq]⟩

theorem length_path (h : 0 < t.numLevels) (key : BitVec 64) :
    (digits key t.numLevels).dropLast.length + 1 = t.numLevels := by
  rw [List.length_dropLast, length_digits]
  omega

theorem SameContent.stored_eq (h : t.SameContent t') (hpos : 0 < t.numLevels) (key : BitVec 64) :
    t'.stored key = t.stored key := by
  rw [stored, h.numLevels]
  exact h.content _ (length_path hpos key)

theorem Inserted.stored_path {q : List (BitVec 8)} {d : BitVec 8} {v : BitVec 64}
    (h : Inserted t t' q d v) {key : BitVec 64} (hq : q ++ [d] = digits key t.numLevels)
    (key' : BitVec 64) : t'.stored key' =
      if digits key' t.numLevels = digits key t.numLevels ∧ t.stored key = 0#64 then v
      else t.stored key' := by
  obtain ⟨-, -, hlen⟩ := digits_eq_concat hq
  rw [stored, h.numLevels, h.content _ (length_path (by omega) key'), content_eq_stored hq]
  simp only [samePath_iff hq]
  rfl

theorem Inserted.stored_eq {q : List (BitVec 8)} {d : BitVec 8} {v : BitVec 64}
    (h : Inserted t t' q d v) {key key' : BitVec 64} (hkey : t.InRange key)
    (hkey' : t.InRange key') (hq : q ++ [d] = digits key t.numLevels) :
    t'.stored key' = if key' = key ∧ t.stored key = 0#64 then v else t.stored key' := by
  rw [h.stored_path hq]
  simp only [digits_eq_iff hkey hkey']

theorem Removed.stored_path {q : List (BitVec 8)} {d : BitVec 8} (h : Removed t t' q d)
    {key : BitVec 64} (hq : q ++ [d] = digits key t.numLevels) (key' : BitVec 64) :
    t'.stored key' =
      if digits key' t.numLevels = digits key t.numLevels then 0#64 else t.stored key' := by
  obtain ⟨-, -, hlen⟩ := digits_eq_concat hq
  rw [stored, h.numLevels, h.content _ (length_path (by omega) key')]
  simp only [samePath_iff hq]
  rfl

theorem Removed.stored_eq {q : List (BitVec 8)} {d : BitVec 8} (h : Removed t t' q d)
    {key key' : BitVec 64} (hkey : t.InRange key) (hkey' : t.InRange key')
    (hq : q ++ [d] = digits key t.numLevels) :
    t'.stored key' = if key' = key then 0#64 else t.stored key' := by
  rw [h.stored_path hq]
  simp only [digits_eq_iff hkey hkey']

theorem Sound.insert_cases (A : Allocator) (h : t.Sound live) (key v : BitVec 64) :
    (∃ t' live', treeInsertOrReturnExisting A t key v = (-1, 0#64, t') ∧ t'.Sound live' ∧
      t.SameContent t' ∧ t.memory.failures < t'.memory.failures) ∨
    (∃ q d t' live', q ++ [d] = digits key t.numLevels ∧
      treeInsertOrReturnExisting A t key v = (0, t.stored key, t') ∧ t'.Sound live' ∧
      Inserted t t' q d v) := by
  obtain ⟨last, hn⟩ := Nat.exists_eq_succ_of_ne_zero h.levels_pos.ne'
  have hdone := insertFrom_cases A key v last h (at_nil h.levels_pos)
    (by rw [List.length_nil, hn]; omega) fun q e hq ↦ by
      have hlen := hq.length_le
      rw [List.length_append, List.length_singleton, List.length_nil] at hlen
      omega
  have heq : treeInsertOrReturnExisting A t key v = t.insertFrom A key v last .root := by
    rw [treeInsertOrReturnExisting, hn]
  rw [heq]
  obtain hfail | ⟨q, d, t', live', hq, hok, hs, hins⟩ := hdone
  · exact .inl hfail
  · have hpath : q ++ [d] = digits key t.numLevels := by rw [hq, hn]; rfl
    refine .inr ⟨q, d, t', live', hpath, ?_, hs, hins⟩
    rw [hok, content_eq_stored hpath]

end WideRadixTree

inductive MapOp
  | insert (key value : BitVec 64)
  | remove (key : BitVec 64)

def MapOp.key : MapOp → BitVec 64
  | .insert key _ => key
  | .remove key => key

/-- A tree together with the map that it is meant to hold, `0` meaning absent. -/
structure MapState where
  tree : WideRadixTree
  map : BitVec 64 → BitVec 64

/-- One call on the tree, and what the code it returned means for the map. -/
def mapStep (A : Allocator) (s : MapState) : MapOp → Exec MapState
  | .insert key value =>
    let (r, _, tree) := treeInsertOrReturnExisting A s.tree key value
    .ok ⟨tree, if r = 0 ∧ s.map key = 0#64 then Function.update s.map key value else s.map⟩
  | .remove key => .ok ⟨(treeRemove s.tree key).2, Function.update s.map key 0#64⟩

def MapLegal (s : MapState) (op : MapOp) : Prop := s.tree.InRange op.key

def MapInitial (A : Allocator) (log2Max log2Align : BitVec 8) (s : MapState) : Prop :=
  (∃ m, s.tree = treeInit A m log2Max log2Align) ∧ s.map = fun _ ↦ 0#64

abbrev MapReachable (A : Allocator) (log2Max log2Align : BitVec 8) :=
  Reachable (MapInitial A log2Max log2Align) MapLegal (mapStep A)

structure Stores (n : ℕ) (s : MapState) : Prop where
  levels : s.tree.numLevels = n
  sound : ∃ live, s.tree.Sound live
  stored : ∀ key, s.tree.InRange key → s.tree.stored key = s.map key

theorem mapStep_stores (A : Allocator) {n : ℕ} {s : MapState} (h : Stores n s) (op : MapOp)
    (hl : MapLegal s op) : ∃ s', mapStep A s op = .ok s' ∧ Stores n s' := by
  obtain ⟨live, hs⟩ := h.sound
  have hrange : ∀ {t' : WideRadixTree} {key}, t'.numLevels = s.tree.numLevels → t'.InRange key →
      s.tree.InRange key := by
    intro t' key hn hkey
    rwa [WideRadixTree.InRange, ← hn]
  cases op with
  | insert key value =>
    replace hl : s.tree.InRange key := hl
    have hmap := h.stored key hl
    obtain ⟨t', live', heq, hs', hsame, -⟩ | ⟨q, d, t', live', hq, heq, hs', hins⟩ :=
      hs.insert_cases A key value
    · refine ⟨⟨t', s.map⟩, by simp [mapStep, heq], hsame.numLevels.trans h.levels,
        ⟨live', hs'⟩, fun key' hkey' ↦ ?_⟩
      rw [hsame.stored_eq hs.levels_pos, h.stored _ (hrange hsame.numLevels hkey')]
    · refine ⟨⟨t', if s.map key = 0#64 then Function.update s.map key value else s.map⟩,
        by simp [mapStep, heq], hins.numLevels.trans h.levels, ⟨live', hs'⟩, fun key' hkey' ↦ ?_⟩
      have hkey' := hrange hins.numLevels hkey'
      rw [hins.stored_eq hl hkey' hq, hmap, h.stored _ hkey']
      dsimp only
      by_cases hz : s.map key = 0#64
      · simp only [hz, and_true, if_true, Function.update_apply]
      · simp only [hz, and_false, if_false]
  | remove key =>
    replace hl : s.tree.InRange key := hl
    obtain ⟨q, d, live', hq, -, hs', hrem⟩ := WideRadixTree.treeRemove_removed hs key
    refine ⟨_, rfl, hrem.numLevels.trans h.levels, ⟨live', hs'⟩, fun key' hkey' ↦ ?_⟩
    have hkey' := hrange hrem.numLevels hkey'
    rw [hrem.stored_eq hl hkey' hq, h.stored _ hkey']
    exact (Function.update_apply ..).symm

theorem MapReachable.stores {A : Allocator} {log2Max log2Align : BitVec 8}
    (hlt : log2Align.toNat < log2Max.toNat) (hle : log2Max.toNat ≤ log2Align.toNat + 64)
    {s : MapState} (h : MapReachable A log2Max log2Align s) :
    Stores (computeNumLevels log2Max log2Align) s := by
  refine Reachable.invariant_of_returns ?_ (fun s op hs hl ↦ mapStep_stores A hs op hl) h
  rintro s ⟨⟨m, ht⟩, hmap⟩
  obtain ⟨hs, hzero⟩ := treeInit_sound A m hlt hle
  refine ⟨by rw [ht]; rfl, ⟨_, ht ▸ hs⟩, fun key _ ↦ ?_⟩
  rw [hmap, ht]
  exact (hzero _ _).1

/-- Over every run, with any pattern of allocation failures, the tree is a map. An insertion gives
up exactly when an allocation of its own has failed. -/
theorem wideRadixTree_refines_map (A : Allocator) {log2Max log2Align : BitVec 8}
    (hlt : log2Align.toNat < log2Max.toNat) (hle : log2Max.toNat ≤ log2Align.toNat + 64)
    {s : MapState} (h : MapReachable A log2Max log2Align s) :
    (0 < s.tree.numLevels ∧ s.tree.numLevels ≤ 8) ∧
      ∀ key, s.tree.InRange key → treeFind s.tree key = s.map key ∧
        (treeRemove s.tree key).1 = s.map key ∧
        ∀ value, ∃ r existing t', treeInsertOrReturnExisting A s.tree key value = (r, existing, t') ∧
          (r = -1 ∧ s.tree.memory.failures < t'.memory.failures ∨
            r = 0 ∧ existing = s.map key ∧ t'.memory.failures = s.tree.memory.failures) := by
  have hstores := MapReachable.stores hlt hle h
  obtain ⟨live, hs⟩ := hstores.sound
  refine ⟨⟨hs.levels_pos, hs.levels_le⟩, fun key hkey ↦ ⟨?_, ?_, fun value ↦ ?_⟩⟩
  · rw [hs.treeFind_eq, hstores.stored key hkey]
  · obtain ⟨q, d, -, hq, hv, -, -⟩ := WideRadixTree.treeRemove_removed hs key
    rw [hv, WideRadixTree.content_eq_stored hq, hstores.stored key hkey]
  · obtain ⟨t', -, heq, -, -, hlt⟩ | ⟨q, d, t', -, -, heq, -, hins⟩ := hs.insert_cases A key value
    · exact ⟨-1, 0#64, t', heq, .inl ⟨rfl, hlt⟩⟩
    · exact ⟨0, _, t', heq, .inr ⟨rfl, hstores.stored key hkey, hins.failures⟩⟩

def afterOp (A : Allocator) (s : MapState) (op : MapOp) : MapState :=
  (mapStep A s op).toOption.getD s

theorem MapReachable.afterOp {A : Allocator} {log2Max log2Align : BitVec 8} {s : MapState}
    (h : MapReachable A log2Max log2Align s) (op : MapOp) (hl : MapLegal s op) :
    MapReachable A log2Max log2Align (afterOp A s op) := by
  refine .step h hl ?_
  cases op with
  | insert key value => rfl
  | remove key => rfl

def shortRun : MapState :=
  [.insert 300 7, .insert 5 9, .remove 300].foldl (afterOp bumpAllocator)
    ⟨treeInit bumpAllocator Memory.empty 16 0, fun _ ↦ 0#64⟩

theorem shortRun_reachable : MapReachable bumpAllocator 16 0 shortRun := by
  have hinit : MapReachable bumpAllocator 16 0
      ⟨treeInit bumpAllocator Memory.empty 16 0, fun _ ↦ 0#64⟩ := .init ⟨⟨Memory.empty, rfl⟩, rfl⟩
  have hrange : ∀ {s : MapState} {op : MapOp}, MapReachable bumpAllocator 16 0 s →
      op.key.toNat < 2 ^ 16 → MapLegal s op := by
    intro s op h hkey
    rw [MapLegal, WideRadixTree.InRange, (MapReachable.stores (by decide) (by decide) h).levels]
    exact hkey
  have hfirst := hinit.afterOp (.insert 300 7) (hrange hinit (by decide))
  have hsecond := hfirst.afterOp (.insert 5 9) (hrange hfirst (by decide))
  exact hsecond.afterOp (.remove 300) (hrange hsecond (by decide))

theorem wideRadixTree_refines_map_shortRun :
    treeFind shortRun.tree 5 = 9 ∧ treeFind shortRun.tree 300 = 0 ∧
      (treeRemove shortRun.tree 5).1 = 9 ∧
      ∃ t', treeInsertOrReturnExisting bumpAllocator shortRun.tree 5 11 = (0, 9, t') := by
  have hmap : shortRun.map 5 = 9 ∧ shortRun.map 300 = 0 := by decide +kernel
  have hrange : shortRun.tree.InRange 5 ∧ shortRun.tree.InRange 300 := by decide +kernel
  have hserved : (treeInsertOrReturnExisting bumpAllocator shortRun.tree 5 11).1 = 0 := by
    decide +kernel
  obtain ⟨hfind, hremove, hinsert⟩ := (wideRadixTree_refines_map bumpAllocator (by decide)
    (by decide) shortRun_reachable).2 5 hrange.1
  have habsent := ((wideRadixTree_refines_map bumpAllocator (by decide) (by decide)
    shortRun_reachable).2 300 hrange.2).1
  rw [hmap.1] at hfind hremove
  rw [hmap.2] at habsent
  refine ⟨hfind, habsent, hremove, ?_⟩
  obtain ⟨r, existing, t', hrun, hfail | ⟨rfl, rfl, -⟩⟩ := hinsert 11
  · rw [hrun, hfail.1] at hserved
    cases hserved
  · exact ⟨t', by rw [hrun, hmap.1]⟩

end RadixBench.RadixNew
