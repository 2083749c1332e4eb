import RadixBench.Radix.Query
import RadixBench.RadixNew.InsertRuns

namespace RadixBench.Comparison

open Foundation Radix RadixNew

variable {N : Type} [DecidableEq N]

/-- The loop of `benchmark_range_queries` that fills the trees, for `radix_tree`. -/
def fillRadix (t : CUradixTree N) (items : List (N × BitVec 64)) : Exec (CUradixTree N) :=
  items.foldlM (fun t item ↦ radixTreeInsert t item.1 item.2) t

def fillRadixNew (A : Allocator) (t : WideRadixTree) (keys : List (BitVec 64)) : WideRadixTree :=
  keys.foldl (fun t key ↦ (treeInsertOrReturnExisting A t key key).2.2) t

theorem fillRadix_reachable {s : RadixState N} (h : RadixReachable s)
    (items : List (N × BitVec 64)) (hnodes : (s.live ++ items.map Prod.fst).Nodup)
    (hkeys : ∀ item ∈ items, item.2.toNat < 2 ^ s.tree.keyBits.toNat) :
    ∃ s', fillRadix s.tree items = .ok s'.tree ∧ RadixReachable s' ∧
      s'.tree.keyBits = s.tree.keyBits ∧ s'.live = s.live ++ items.map Prod.fst ∧
      (∀ n ∈ s.live, s'.key n = s.key n) ∧ ∀ item ∈ items, s'.key item.1 = item.2 := by
  induction items generalizing s with
  | nil => exact ⟨s, rfl, h, rfl, by simp, fun _ _ ↦ rfl, by simp⟩
  | cons item items ih =>
    obtain ⟨node, key⟩ := item
    rw [List.map_cons, List.append_cons] at hnodes
    have hnode : node ∉ s.live := fun hmem ↦
      (List.nodup_append.mp (List.nodup_append.mp hnodes).1).2.2 node hmem node
        (List.mem_singleton_self node) rfl
    have hkey : key.toNat < 2 ^ s.tree.keyBits.toNat := hkeys _ List.mem_cons_self
    obtain ⟨T, hs⟩ := h.sound
    obtain ⟨t, T', hrun, -, hbits, -⟩ := radixTreeInsert_sound hs hnode hkey
    have hstep : RadixReachable (s.insert t node key) :=
      h.step (l := .insert node key) ⟨hnode, hkey⟩ (by rw [radixStep, hrun]; rfl)
    obtain ⟨s', hfill, hreach, hbits', hlive, hold, hnew⟩ := ih hstep hnodes fun item hitem ↦ by
      rw [show (s.insert t node key).tree.keyBits = s.tree.keyBits from hbits]
      exact hkeys item (List.mem_cons_of_mem _ hitem)
    refine ⟨s', ?_, hreach, hbits'.trans hbits, ?_, fun n hn ↦ ?_, fun item hitem ↦ ?_⟩
    · rw [fillRadix, List.foldlM_cons, hrun]
      exact hfill
    · rw [hlive, List.map_cons, List.append_cons]
      rfl
    · rw [hold n (mem_insert_live.mpr (.inl hn)), insert_key_of_ne t key (ne_of_live hnode hn)]
    · rcases List.mem_cons.mp hitem with rfl | hitem
      · rw [hold node (mem_insert_live.mpr (.inr rfl)), insert_key_self]
      · exact hnew item hitem

theorem inRange_iff_lt {t : WideRadixTree} (h : t.numLevels = computeNumLevels 64 8)
    (key : BitVec 64) : t.InRange key ↔ key.toNat < 2 ^ 56 := by
  have hbits : 8 * computeNumLevels 64 8 = 56 := by decide
  rw [WideRadixTree.InRange, h, hbits]

theorem failures_le_fillRadixNew (A : Allocator) {t : WideRadixTree} {live : Bool → List ℕ}
    (h : t.Sound live) (keys : List (BitVec 64)) :
    t.memory.failures ≤ (fillRadixNew A t keys).memory.failures := by
  induction keys generalizing t live with
  | nil => exact le_rfl
  | cons key keys ih =>
    rw [fillRadixNew, List.foldl_cons]
    obtain ⟨t', live', heq, hs', -, hlt⟩ | ⟨q, d, t', live', -, heq, hs', hins⟩ :=
      h.insert_cases A key key
    · rw [heq]
      exact hlt.le.trans (ih hs')
    · rw [heq]
      exact hins.failures.ge.trans (ih hs')

theorem fillRadixNew_reachable (A : Allocator) {s : MapState} (h : InsertReachable A 64 8 s)
    (done : List (BitVec 64)) (hmap : ∀ k, s.map k = if k ∈ done then k else 0#64)
    (keys : List (BitVec 64)) (hkeys : ∀ k ∈ keys, k ≠ 0#64 ∧ k.toNat < 2 ^ 56)
    (hserved : (fillRadixNew A s.tree keys).memory.failures = s.tree.memory.failures) :
    ∃ s', s'.tree = fillRadixNew A s.tree keys ∧ InsertReachable A 64 8 s' ∧
      ∀ k, s'.map k = if k ∈ done ++ keys then k else 0#64 := by
  induction keys generalizing s done with
  | nil => exact ⟨s, rfl, h, by simpa using hmap⟩
  | cons key keys ih =>
    obtain ⟨hstores, -⟩ := InsertReachable.marked (by decide) (by decide) h
    obtain ⟨live, hs⟩ := hstores.sound
    obtain ⟨hne, hlt⟩ := hkeys key List.mem_cons_self
    have hrange : s.tree.InRange key := (inRange_iff_lt hstores.levels key).mpr hlt
    rw [fillRadixNew, List.foldl_cons] at hserved ⊢
    obtain ⟨t', live', heq, hs', -, hfl⟩ | ⟨q, d, t', live', -, heq, hs', hins⟩ :=
      hs.insert_cases A key key
    · have hle := failures_le_fillRadixNew A hs' keys
      rw [heq] at hserved
      exact absurd hserved (hfl.trans_le hle).ne'
    · have hlegal : RadixNew.InsertLegal A s (.insert key key) :=
        ⟨hrange, hne, by rw [heq]; exact hins.failures⟩
      have hstep := h.step hlegal (by rw [mapStep, heq])
      have hmap₁ : ∀ k, (if (0 : ℤ) = 0 ∧ s.map key = 0#64 then Function.update s.map key key
          else s.map) k = if k ∈ done ++ [key] then k else 0#64 := by
        intro k
        simp only [true_and, List.mem_append, List.mem_singleton]
        by_cases hdone : key ∈ done
        · have hold : s.map key ≠ 0#64 := by rwa [hmap, if_pos hdone]
          have hmem : k ∈ done ↔ k ∈ done ∨ k = key := (or_iff_left_of_imp fun hk ↦ hk ▸ hdone).symm
          rw [if_neg hold, hmap]
          exact if_congr hmem rfl rfl
        · have hold : s.map key = 0#64 := by rw [hmap, if_neg hdone]
          rw [if_pos hold, Function.update_apply]
          by_cases hk : k = key
          · simp [hk]
          · simp [hk, hmap]
      rw [heq] at hserved ⊢
      obtain ⟨s', htree, hreach, hmap'⟩ := ih hstep (done ++ [key]) hmap₁
        (fun k hk ↦ hkeys k (List.mem_cons_of_mem _ hk)) (hserved.trans hins.failures.symm)
      exact ⟨s', htree, hreach, by simpa using hmap'⟩

def LeastListed (keys : List (BitVec 64)) (query : BitVec 64) : Option (BitVec 64) → Prop
  | some k => k ∈ keys ∧ query ≤ k ∧ ∀ k' ∈ keys, query ≤ k' → k ≤ k'
  | none => ∀ k ∈ keys, ¬ query ≤ k

theorem LeastListed.unique {keys : List (BitVec 64)} {query : BitVec 64} {a b : Option (BitVec 64)}
    (ha : LeastListed keys query a) (hb : LeastListed keys query b) : a = b := by
  cases a with
  | none =>
    cases b with
    | none => rfl
    | some k => exact absurd hb.2.1 (ha k hb.1)
  | some k =>
    cases b with
    | none => exact absurd ha.2.1 (hb k ha.1)
    | some k' =>
      have hle : k ≤ k' := ha.2.2 k' hb.1 hb.2.1
      have hge : k' ≤ k := hb.2.2 k ha.1 ha.2.1
      exact congrArg some (BitVec.le_antisymm hle hge)

theorem fillRadix_findGEQ (nodes : N → CUradixNode N) (items : List (N × BitVec 64))
    (hnodes : (items.map Prod.fst).Nodup) (query : BitVec 64) :
    ∃ t₀ t r, radixTreeInit nodes 64 = .ok t₀ ∧ fillRadix t₀ items = .ok t ∧
      radixTreeFindGEQ t query = .ok r ∧
      LeastListed (items.map Prod.snd) query (r.map fun n ↦ (t.node n).key) := by
  have hinit : radixTreeInit nodes 64 = .ok ⟨none, 64, nodes⟩ := rfl
  have h₀ : RadixReachable (⟨⟨none, 64, nodes⟩, [], fun _ ↦ 0#64⟩ : RadixState N) :=
    .init ⟨nodes, 64, le_rfl, hinit, rfl⟩
  have hbound : ∀ k : BitVec 64, k.toNat < 2 ^ (64#32).toNat := fun k ↦ k.isLt
  obtain ⟨s, hfill, hs, hbits, hlive, -, hkey⟩ :=
    fillRadix_reachable h₀ items hnodes fun item _ ↦ hbound item.2
  have hlisted : ∀ k, k ∈ items.map Prod.snd ↔ ∃ n ∈ s.live, s.key n = k := by
    intro k
    rw [hlive, List.nil_append]
    simp only [List.mem_map, exists_exists_and_eq_and]
    exact exists_congr fun item ↦ and_congr_right fun hitem ↦ by rw [hkey item hitem]
  obtain ⟨T, hsound⟩ := hs.sound
  obtain ⟨r, hrun, hr⟩ := hsound.findGEQ query (by rw [hbits]; exact hbound query)
  refine ⟨_, s.tree, r, hinit, hfill, hrun, ?_⟩
  cases r with
  | none =>
    intro k hk hle
    obtain ⟨n, hn, rfl⟩ := (hlisted k).mp hk
    exact absurd (hr n hn) (BitVec.not_lt.mpr hle)
  | some n =>
    obtain ⟨hn, hge, hleast⟩ := hr
    rw [Option.map_some, hsound.key_eq n hn]
    refine ⟨(hlisted _).mpr ⟨n, hn, rfl⟩, hge, fun k hk hle ↦ ?_⟩
    obtain ⟨m, hm, rfl⟩ := (hlisted k).mp hk
    exact hleast m hm hle

theorem fillRadixNew_findGEQ (A : Allocator) (m : Memory Block) (keys : List (BitVec 64))
    (hkeys : ∀ k ∈ keys, k ≠ 0#64 ∧ k.toNat < 2 ^ 56)
    (hserved : (fillRadixNew A (treeInit A m 64 8) keys).memory.failures =
      (treeInit A m 64 8).memory.failures) (query : BitVec 64) (hquery : query.toNat < 2 ^ 56) :
    ∃ a, treeFindGEQ (fillRadixNew A (treeInit A m 64 8) keys) query = .ok (a.getD 0#64) ∧
      LeastListed keys query a := by
  have h₀ : InsertReachable A 64 8 ⟨treeInit A m 64 8, fun _ ↦ 0#64⟩ := .init ⟨⟨m, rfl⟩, rfl⟩
  obtain ⟨s, htree, hs, hmap⟩ := fillRadixNew_reachable A h₀ [] (by simp) keys hkeys hserved
  have hrange := inRange_iff_lt (InsertReachable.marked (by decide) (by decide) hs).1.levels
  have hvalue : ∀ k ∈ keys, s.map k = k := by
    intro k hk
    rw [hmap, List.nil_append, if_pos hk]
  have hpresent : ∀ k, s.map k ≠ 0#64 ↔ k ∈ keys := by
    intro k
    rw [hmap, List.nil_append]
    split_ifs with hk
    · exact iff_of_true (hkeys k hk).1 hk
    · exact iff_of_false (fun hne ↦ hne rfl) hk
  have hlisted : ∀ k ∈ keys, s.tree.InRange k ∧ s.map k ≠ 0#64 := fun k hk ↦
    ⟨(hrange k).mpr (hkeys k hk).2, (hpresent k).mpr hk⟩
  rw [← htree]
  rcases InsertReachable.findGEQ (by decide) (by decide) hs ((hrange query).mpr hquery) with
    ⟨k, -, hk, hge, hleast, hrun⟩ | ⟨hnone, hrun⟩
  · have hk' := (hpresent k).mp hk
    rw [hvalue k hk'] at hrun
    exact ⟨some k, hrun, hk', hge, fun k' hmem hle ↦
      hleast k' (hlisted k' hmem).1 (hlisted k' hmem).2 hle⟩
  · exact ⟨none, hrun, fun k hmem hle ↦ (hlisted k hmem).2 (hnone k (hlisted k hmem).1 hle)⟩

/-- Both trees give the least listed key from the query on, or nothing if there is none. -/
theorem rangeQueries_agree (A : Allocator) (m : Memory Block) (nodes : N → CUradixNode N)
    (items : List (N × BitVec 64)) (hnodes : (items.map Prod.fst).Nodup)
    (hkeys : ∀ k ∈ items.map Prod.snd, k ≠ 0#64 ∧ k.toNat < 2 ^ 56)
    (hserved : (fillRadixNew A (treeInit A m 64 8) (items.map Prod.snd)).memory.failures =
      (treeInit A m 64 8).memory.failures) (query : BitVec 64) (hquery : query.toNat < 2 ^ 56) :
    ∃ t₀ t r v, radixTreeInit nodes 64 = .ok t₀ ∧ fillRadix t₀ items = .ok t ∧
      radixTreeFindGEQ t query = .ok r ∧
      treeFindGEQ (fillRadixNew A (treeInit A m 64 8) (items.map Prod.snd)) query = .ok v ∧
      (r ≠ none ↔ v ≠ 0#64) ∧ ∀ n, r = some n → (t.node n).key = v ∧
        v ∈ items.map Prod.snd ∧ query ≤ v ∧ ∀ k ∈ items.map Prod.snd, query ≤ k → v ≤ k := by
  obtain ⟨t₀, t, r, hinit, hfill, hrun, hr⟩ := fillRadix_findGEQ nodes items hnodes query
  obtain ⟨a, hrunNew, ha⟩ := fillRadixNew_findGEQ A m _ hkeys hserved query hquery
  obtain rfl := ha.unique hr
  refine ⟨t₀, t, r, _, hinit, hfill, hrun, hrunNew, ?_⟩
  cases r with
  | none => exact ⟨iff_of_false (fun hne ↦ hne rfl) fun hne ↦ hne rfl, fun n hn ↦ nomatch hn⟩
  | some n =>
    have hne : (t.node n).key ≠ 0#64 := (hkeys _ hr.1).1
    refine ⟨iff_of_true (Option.some_ne_none n) hne, fun n' hn ↦ ?_⟩
    obtain rfl := Option.some.inj hn
    exact ⟨rfl, hr⟩

def repeated : List (ℕ × BitVec 64) := [(0, 5), (1, 300), (2, 5)]

def blankNodes : ℕ → CUradixNode ℕ := fun _ ↦ ⟨none, none, fun _ ↦ none, none, none, 0⟩

theorem rangeQueries_agree_repeated : ∃ t₀ t r v, radixTreeInit blankNodes 64 = .ok t₀ ∧
    fillRadix t₀ repeated = .ok t ∧ radixTreeFindGEQ t 6 = .ok r ∧
      treeFindGEQ (fillRadixNew bumpAllocator (treeInit bumpAllocator Memory.empty 64 8)
        (repeated.map Prod.snd)) 6 = .ok v ∧ (r ≠ none ↔ v ≠ 0#64) ∧
      ∀ n, r = some n → (t.node n).key = v ∧ v ∈ repeated.map Prod.snd ∧ 6 ≤ v ∧
        ∀ k ∈ repeated.map Prod.snd, 6 ≤ k → v ≤ k := by
  have hserved : (fillRadixNew bumpAllocator (treeInit bumpAllocator Memory.empty 64 8)
      (repeated.map Prod.snd)).memory.failures =
        (treeInit bumpAllocator Memory.empty 64 8).memory.failures := by decide +kernel
  exact rangeQueries_agree bumpAllocator Memory.empty blankNodes repeated (by decide)
    (by simp [repeated]) hserved 6 (by simp)

end RadixBench.Comparison
