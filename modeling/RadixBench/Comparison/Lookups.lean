import RadixBench.Comparison.RangeQueries
import RadixBench.WideRadix.Runs
import RadixBench.Avl.Query
import RadixBench.Art.Runs
import Mathlib.Data.Finset.Basic

namespace RadixBench.Comparison

open Foundation Radix RadixNew

variable {N : Type} [DecidableEq N] {keys searchKeys : List (BitVec 64)}

def countFound (found : BitVec 64 → Exec Bool) (searchKeys : List (BitVec 64)) : Exec ℕ :=
  searchKeys.foldlM (fun foundCount key ↦ do
    return if ← found key then foundCount + 1 else foundCount) 0

theorem countFound_eq {found : BitVec 64 → Exec Bool}
    (h : ∀ k ∈ searchKeys, found k = .ok (decide (k ∈ keys))) :
    countFound found searchKeys = .ok (searchKeys.countP (· ∈ keys)) := by
  have hcount : ∀ start, searchKeys.foldlM (fun foundCount key ↦ do
      return if ← found key then foundCount + 1 else foundCount) start =
        Except.ok (start + searchKeys.countP (· ∈ keys)) := by
    induction searchKeys with
    | nil => exact fun start ↦ rfl
    | cons key searchKeys ih =>
      intro start
      rw [List.foldlM_cons, h key List.mem_cons_self, ok_bind, List.countP_cons]
      refine (ih (fun k hk ↦ h k (List.mem_cons_of_mem key hk)) _).trans (congrArg _ ?_)
      split_ifs <;> omega
  rw [countFound, hcount, Nat.zero_add]

section StandardLibrary

def benchmarkStdSet (keys searchKeys : List (BitVec 64)) : Exec ℕ :=
  let tree := keys.foldl (fun tree key ↦ insert key tree) (∅ : Finset (BitVec 64))
  countFound (fun key ↦ .ok (key ∈ tree)) searchKeys

def benchmarkStdMultiset (keys searchKeys : List (BitVec 64)) : Exec ℕ :=
  let multiSet := keys.foldl (fun multiSet key ↦ key ::ₘ multiSet) 0
  countFound (fun key ↦ .ok (key ∈ multiSet)) searchKeys

theorem benchmarkStdSet_eq :
    benchmarkStdSet keys searchKeys = .ok (searchKeys.countP (· ∈ keys)) := by
  have hmem : ∀ (tree : Finset (BitVec 64)) k,
      k ∈ keys.foldl (fun tree key ↦ insert key tree) tree ↔ k ∈ tree ∨ k ∈ keys := by
    induction keys with
    | nil => simp
    | cons key keys ih =>
      intro tree k
      rw [List.foldl_cons, ih, Finset.mem_insert, List.mem_cons, or_comm (a := k = key), or_assoc]
  refine countFound_eq fun k _ ↦ congrArg _ (decide_eq_decide.mpr ?_)
  rw [hmem, or_iff_right (Finset.notMem_empty k)]

theorem benchmarkStdMultiset_eq :
    benchmarkStdMultiset keys searchKeys = .ok (searchKeys.countP (· ∈ keys)) := by
  have hmem : ∀ (multiSet : Multiset (BitVec 64)) k,
      k ∈ keys.foldl (fun multiSet key ↦ key ::ₘ multiSet) multiSet ↔ k ∈ multiSet ∨ k ∈ keys := by
    induction keys with
    | nil => simp
    | cons key keys ih =>
      intro multiSet k
      rw [List.foldl_cons, ih, Multiset.mem_cons, List.mem_cons, or_comm (a := k = key), or_assoc]
  refine countFound_eq fun k _ ↦ congrArg _ (decide_eq_decide.mpr ?_)
  rw [hmem, or_iff_right (Multiset.notMem_zero k)]

end StandardLibrary

section RadixTree

/-- `nodes` is what the memory of the vector holds. -/
def benchmarkRadixTree (nodes : N → CUradixNode N) (items : List (N × BitVec 64))
    (searchKeys : List (BitVec 64)) : Exec ℕ := do
  let tree ← radixTreeInit nodes 64
  let tree ← fillRadix tree items
  countFound (fun key ↦ do
    let found ← radixTreeFindGEQ tree key
    return found.any fun n ↦ (tree.node n).key = key) searchKeys

theorem LeastListed.any_iff {query : BitVec 64} {r : Option (BitVec 64)}
    (h : LeastListed keys query r) : r = some query ↔ query ∈ keys := by
  cases r with
  | none => exact iff_of_false (Option.some_ne_none query).symm fun hk ↦ h query hk (BitVec.le_refl query)
  | some k =>
    rw [Option.some_inj]
    refine ⟨fun hk ↦ hk ▸ h.1, fun hk ↦ BitVec.le_antisymm (h.2.2 query hk (BitVec.le_refl query)) h.2.1⟩

theorem benchmarkRadixTree_eq (nodes : N → CUradixNode N) (items : List (N × BitVec 64))
    (hnodes : (items.map Prod.fst).Nodup) (searchKeys : List (BitVec 64)) :
    benchmarkRadixTree nodes items searchKeys =
      .ok (searchKeys.countP (· ∈ items.map Prod.snd)) := by
  obtain ⟨t₀, t, -, hinit, hfill, -⟩ := fillRadix_findGEQ nodes items hnodes 0
  rw [benchmarkRadixTree, hinit, ok_bind, hfill, ok_bind]
  refine countFound_eq fun k _ ↦ ?_
  obtain ⟨t₀', t', r, hinit', hfill', hrun, hr⟩ := fillRadix_findGEQ nodes items hnodes k
  obtain rfl := Except.ok.inj (hinit.symm.trans hinit')
  obtain rfl := Except.ok.inj (hfill.symm.trans hfill')
  rw [hrun, ok_bind]
  refine congrArg Except.ok (Bool.eq_iff_iff.mpr ?_)
  rw [decide_eq_true_iff, ← hr.any_iff]
  cases r <;> simp

end RadixTree

section WideRadix

open WideRadix

def fillWideRadix (A : Allocator) (m : Memory WideRadix.WideRadixNode)
    (tree : WideRadix.WideRadixTree) (keys : List (BitVec 64)) :
    Exec (Memory WideRadix.WideRadixNode) :=
  keys.foldlM (fun m key ↦ do
    let (_, m) ← wideRadixInsert A m tree key key
    return m) m

def benchmarkWideRadix (A : Allocator) (m : Memory WideRadix.WideRadixNode)
    (keys searchKeys : List (BitVec 64)) : Exec ℕ := do
  let (tree, m) := wideRadixInit A m 64
  let m ← fillWideRadix A m tree keys
  countFound (fun key ↦ do
    let found ← wideRadixLookup m tree key
    return found.isSome) searchKeys

theorem fillWideRadix_returns (A : Allocator) {m : Memory WideRadix.WideRadixNode}
    {tree : WideRadix.WideRadixTree} {root : ℕ} (hroot : tree.root = some root)
    (h : WideRadix.Sound m root) (keys : List (BitVec 64)) :
    ∃ m', fillWideRadix A m tree keys = .ok m' ∧ WideRadix.Sound m' root ∧
      m.failures ≤ m'.failures ∧ (m'.failures = m.failures → ∀ k,
        (stored m' root (digits k 8)).isSome ↔
          (stored m root (digits k 8)).isSome ∨ k ∈ keys) := by
  induction keys generalizing m with
  | nil => exact ⟨m, rfl, h, le_rfl, fun _ k ↦ by simp⟩
  | cons key keys ih =>
    have hrun : wideRadixInsert A m tree key key = insertFrom A key key 7 m root := by
      rw [wideRadixInsert, hroot, require_some, ok_bind]
    rw [fillWideRadix, List.foldlM_cons, hrun]
    obtain ⟨m₁, heq, hs, -, hlt⟩ | ⟨m₁, heq, hs, hins⟩ :=
      insertFrom_cases A key key 7 h at_nil rfl
    · obtain ⟨m', hfill, hs', hle, -⟩ := ih hs
      rw [heq]
      exact ⟨m', hfill, hs', hlt.le.trans hle, fun hf ↦ absurd hf (hlt.trans_le hle).ne'⟩
    · obtain ⟨m', hfill, hs', hle, hall⟩ := ih hs
      rw [heq]
      refine ⟨m', hfill, hs', hins.failures ▸ hle, fun hf k ↦ ?_⟩
      have hpath : [] ++ digits key (7 + 1) = digits key 8 := rfl
      rw [hall (hf.trans hins.failures.symm), hins.stored _ (length_digits _ _), hpath,
        List.mem_cons]
      split_ifs with hk
      · simp [WideRadix.digits_eq_iff.mp hk]
      · simp [mt WideRadix.digits_eq_iff.mpr hk]

def WideServed (A : Allocator) (m : Memory WideRadix.WideRadixNode) (keys : List (BitVec 64)) :
    Prop :=
  (wideRadixInit A m 64).1.root ≠ none ∧
    ∀ m', fillWideRadix A (wideRadixInit A m 64).2 (wideRadixInit A m 64).1 keys = .ok m' →
      m'.failures = (wideRadixInit A m 64).2.failures

theorem benchmarkWideRadix_eq {A : Allocator} {m : Memory WideRadix.WideRadixNode}
    (h : WideServed A m keys) (searchKeys : List (BitVec 64)) :
    benchmarkWideRadix A m keys searchKeys = .ok (searchKeys.countP (· ∈ keys)) := by
  obtain ⟨hinit, hserved⟩ := h
  obtain ⟨root, hs⟩ := wideRadixInit_stores A
    (s := ⟨(wideRadixInit A m 64).1, (wideRadixInit A m 64).2, fun _ ↦ none, []⟩)
    ⟨m, 64, rfl, hinit, rfl, rfl⟩
  obtain ⟨m', hfill, hs', -, hall⟩ := fillWideRadix_returns A hs.root_eq hs.sound keys
  have hstored := hall (hserved m' hfill)
  rw [benchmarkWideRadix]
  dsimp only
  rw [hfill, ok_bind]
  refine countFound_eq fun k _ ↦ ?_
  have hlookup : wideRadixLookup m' (wideRadixInit A m 64).1 k =
      .ok (walk (next m') root (digits k 8)) := by
    rw [wideRadixLookup, hs.root_eq, require_some, ok_bind, lookupFrom_walk k 7 hs' at_nil rfl,
      List.nil_append]
  rw [hlookup, ok_bind]
  refine congrArg Except.ok (Bool.eq_iff_iff.mpr ?_)
  rw [decide_eq_true_iff]
  have hk := hstored k
  rw [hs.stored, stored, Option.isSome_map] at hk
  rw [hk]
  simp

end WideRadix

section RadixNew

def benchmarkRadixNew (A : Allocator) (m : Memory Block) (keys searchKeys : List (BitVec 64)) :
    Exec ℕ :=
  let tree := fillRadixNew A (treeInit A m 64 8) keys
  countFound (fun key ↦ .ok (treeFind tree key ≠ 0#64)) searchKeys

theorem benchmarkRadixNew_eq (A : Allocator) (m : Memory Block)
    (hkeys : ∀ k ∈ keys, k ≠ 0#64 ∧ k.toNat < 2 ^ 56)
    (hserved : (fillRadixNew A (treeInit A m 64 8) keys).memory.failures =
      (treeInit A m 64 8).memory.failures) (hsearch : ∀ k ∈ searchKeys, k.toNat < 2 ^ 56) :
    benchmarkRadixNew A m keys searchKeys = .ok (searchKeys.countP (· ∈ keys)) := by
  have h₀ : InsertReachable A 64 8 ⟨treeInit A m 64 8, fun _ ↦ 0#64⟩ := .init ⟨⟨m, rfl⟩, rfl⟩
  obtain ⟨s, htree, hs, hmap⟩ := fillRadixNew_reachable A h₀ [] (by simp) keys hkeys hserved
  obtain ⟨hstores, -⟩ := InsertReachable.marked (by decide) (by decide) hs
  obtain ⟨live, hsound⟩ := hstores.sound
  rw [benchmarkRadixNew, ← htree]
  refine countFound_eq fun k hk ↦ congrArg Except.ok (decide_eq_decide.mpr ?_)
  have hrange := (inRange_iff_lt hstores.levels k).mpr (hsearch k hk)
  rw [hsound.treeFind_eq, hstores.stored k hrange, hmap, List.nil_append]
  split_ifs with hmem
  · exact iff_of_true (hkeys k hmem).1 hmem
  · exact iff_of_false (fun hne ↦ hne rfl) hmem

end RadixNew

section Libart

/-- `key_bytes[7 - i] = (key >> (i * 8)) & 0xFF`. -/
def keyBytes (key : BitVec 64) : List (BitVec 8) :=
  (List.range 8).map fun i ↦ ((key >>> ((7 - i) * 8)) &&& 0xFF#64).setWidth 8

/-- The value of every key is `(void *)1`. -/
def benchmarkLibart (arch : Art.Arch) (keys searchKeys : List (BitVec 64)) : Exec ℕ := do
  let tree ← Art.fillArt arch 9 Art.artTreeInit (keys.map keyBytes) (some 1#64)
  countFound (fun key ↦ do
    let value ← Art.artSearch tree (keyBytes key)
    return value.isSome) searchKeys

theorem keyBytes_eq (key : BitVec 64) : keyBytes key = digits key 8 := rfl

theorem benchmarkLibart_eq (arch : Art.Arch) (keys searchKeys : List (BitVec 64)) :
    benchmarkLibart arch keys searchKeys = .ok (searchKeys.countP (· ∈ keys)) := by
  have hlen : ∀ k, (keyBytes k).length = 8 := fun k ↦ by rw [keyBytes_eq, length_digits]
  have hinjective : Function.Injective keyBytes := fun k k' h ↦ by
    rw [keyBytes_eq, keyBytes_eq] at h
    exact digits_injective (n := 8) k.isLt k'.isLt h
  have h₀ : Art.FixedReachable arch 8 (⟨Art.artTreeInit, fun _ ↦ none⟩ : Art.ArtState (BitVec 64)) :=
    .init rfl
  obtain ⟨s, hfill, hs, hmap⟩ := Art.fillArt_reachable h₀ (by decide : 8 < 9) (keys.map keyBytes)
    (fun k hk ↦ by
      obtain ⟨key, -, rfl⟩ := List.mem_map.mp hk
      exact hlen key) (some 1#64)
  rw [benchmarkLibart, hfill, ok_bind]
  refine countFound_eq fun k _ ↦ ?_
  rw [hs.sound.artSearch (hlen k), hmap, ok_bind]
  refine congrArg Except.ok (Bool.eq_iff_iff.mpr ?_)
  rw [decide_eq_true_iff, ← List.mem_map_of_injective hinjective]
  split_ifs with hk
  · exact iff_of_true rfl hk
  · exact iff_of_false Bool.false_ne_true hk

end Libart

section AvlTree

open Avl

def compareFunc (a b : BitVec 64) : ℤ := if a < b then -1 else if a > b then 1 else 0

/-- The nodes are those that `malloc` gives. Key and value point to the key. -/
def fillAvl (fuel : ℕ) (t : CUavlTree N (BitVec 64) (BitVec 64)) (items : List (N × BitVec 64)) :
    Exec (CUavlTree N (BitVec 64) (BitVec 64)) :=
  items.foldlM (fun t item ↦ do
    let (_, t) ← cuAvlTreeNodeInsert t fuel item.1 item.2 item.2
    return t) t

def benchmarkAvlTree (nodes : N → CUavlTreeNode N (BitVec 64) (BitVec 64))
    (items : List (N × BitVec 64)) (searchKeys : List (BitVec 64)) : Exec ℕ := do
  let tree ← fillAvl items.length (cuAvlTreeInitialize nodes compareFunc) items
  countFound (fun key ↦ do
    let found ← cuAvlTreeNodeFind tree items.length key
    return found.isSome) searchKeys

theorem totalOrder_compareFunc : TotalOrder compareFunc := by
  refine ⟨fun a b ↦ ?_, fun a b c hab hbc ↦ ?_⟩
  · simp only [compareFunc, BitVec.lt_def, gt_iff_lt]
    split_ifs <;> omega
  · simp only [compareFunc, BitVec.lt_def, gt_iff_lt] at *
    split_ifs at * <;> omega

theorem compareFunc_eq_zero {a b : BitVec 64} : compareFunc a b = 0 ↔ a = b := by
  rw [compareFunc]
  split_ifs with hlt hgt
  · exact iff_of_false (by decide) (BitVec.ne_of_lt hlt)
  · exact iff_of_false (by decide) (BitVec.ne_of_lt hgt).symm
  · exact iff_of_true rfl (BitVec.le_antisymm (BitVec.not_lt.mp hgt) (BitVec.not_lt.mp hlt))

def HasKey (s : AvlState N (BitVec 64) (BitVec 64)) (k : BitVec 64) : Prop :=
  ∃ n ∈ s.live, (s.tree.node n).key = k

theorem insert_hasKey {s : AvlState N (BitVec 64) (BitVec 64)} {T : BinaryTree N}
    (h : Avl.Sound s T) (hcompare : s.tree.compare = compareFunc) {node : N} (hnode : node ∉ s.live)
    (key : BitVec 64) {fuel : ℕ} (hfuel : s.live.length ≤ fuel) :
    ∃ status s' T', cuAvlTreeNodeInsert s.tree fuel node key key = .ok (status, s'.tree) ∧
      Avl.Sound s' T' ∧ s'.tree.compare = compareFunc ∧
      (∀ n, n ∈ s'.live → n ∈ s.live ∨ n = node) ∧ s'.live.length ≤ s.live.length + 1 ∧
      ∀ k, HasKey s' k ↔ HasKey s k ∨ k = key := by
  obtain ⟨existing, t', T', hrun, hs'⟩ := h.insert hnode key key hfuel
  have hold : ∀ n ∈ s.live, ((s.tree.setNode node (newNode key key)).node n).key =
      (s.tree.node n).key := fun n hn ↦
    congrArg CUavlTreeNode.key (s.tree.node_setNode_of_ne _ (ne_of_mem_of_not_mem hn hnode))
  refine ⟨_, _, T', cuAvlTreeNodeInsert_eq hrun, hs', ?_⟩
  obtain ⟨x, hx, hzero, heq⟩ | ⟨t₁, T₁, l₁, l₂, heq, -, -, -, -, -, hdata, -⟩ :=
    h.inserts hnode key key hfuel
  · obtain ⟨rfl, rfl⟩ := Prod.mk.inj (Except.ok.inj (hrun.symm.trans heq))
    rw [hcompare, compareFunc_eq_zero] at hzero
    refine ⟨hcompare, fun n hn ↦ .inl hn, Nat.le_succ _, fun k ↦ ?_⟩
    have hsame : HasKey (s.insert (s.tree.setNode node (newNode key key)) node true) k ↔
        HasKey s k := exists_congr fun n ↦ and_congr_right fun hn ↦ by rw [← hold n hn]; rfl
    refine hsame.trans (or_iff_left_of_imp ?_).symm
    rintro rfl
    exact ⟨x, (h.mem_iff x).mp hx, hzero.symm⟩
  · obtain ⟨rfl, rfl⟩ := Prod.mk.inj (Except.ok.inj (hrun.symm.trans heq))
    refine ⟨hdata.compare.trans hcompare, fun n hn ↦ ?_, ?_, fun k ↦ ?_⟩
    · exact (List.mem_append.mp hn).imp_right List.mem_singleton.mp
    · exact List.length_append.le
    · have hself : ((s.tree.setNode node (newNode key key)).node node).key = key := by
        rw [s.tree.node_setNode_self]
        rfl
      constructor
      · rintro ⟨n, hn, hk⟩
        have hk' : (t'.node n).key = k := hk
        rw [hdata.key] at hk'
        rcases List.mem_append.mp hn with hn | hn
        · exact .inl ⟨n, hn, (hold n hn).symm.trans hk'⟩
        · rw [List.mem_singleton.mp hn, hself] at hk'
          exact .inr hk'.symm
      · rintro (⟨n, hn, hk⟩ | rfl)
        · exact ⟨n, List.mem_append_left _ hn, (hdata.key n).trans ((hold n hn).trans hk)⟩
        · exact ⟨node, List.mem_append_right _ List.mem_cons_self, (hdata.key node).trans hself⟩

theorem fillAvl_hasKey {s : AvlState N (BitVec 64) (BitVec 64)} {T : BinaryTree N}
    (h : Avl.Sound s T) (hcompare : s.tree.compare = compareFunc) (items : List (N × BitVec 64))
    (hnodes : (items.map Prod.fst).Nodup) (hfresh : ∀ item ∈ items, item.1 ∉ s.live) (fuel : ℕ)
    (hfuel : s.live.length + items.length ≤ fuel) :
    ∃ s' T', fillAvl fuel s.tree items = .ok s'.tree ∧ Avl.Sound s' T' ∧
      s'.tree.compare = compareFunc ∧ s'.live.length ≤ fuel ∧
      ∀ k, HasKey s' k ↔ HasKey s k ∨ k ∈ items.map Prod.snd := by
  induction items generalizing s T with
  | nil => exact ⟨s, T, rfl, h, hcompare, hfuel, fun k ↦ by simp⟩
  | cons item items ih =>
    obtain ⟨node, key⟩ := item
    obtain ⟨hne, hnodes⟩ := List.nodup_cons.mp hnodes
    rw [List.length_cons] at hfuel
    obtain ⟨status, s₁, T₁, hrun, hs₁, hcompare₁, hlive, hlen, hkeys⟩ :=
      insert_hasKey h hcompare (hfresh _ List.mem_cons_self) key (by omega : s.live.length ≤ fuel)
    have hfresh₁ : ∀ item ∈ items, item.1 ∉ s₁.live := fun item hitem hmem ↦ by
      rcases hlive _ hmem with hmem | heq
      · exact hfresh item (List.mem_cons_of_mem _ hitem) hmem
      · exact hne (heq ▸ List.mem_map_of_mem hitem)
    obtain ⟨s', T', hfill, hs', hcompare', hlen', hkeys'⟩ :=
      ih hs₁ hcompare₁ hnodes hfresh₁ (by omega)
    refine ⟨s', T', ?_, hs', hcompare', hlen', fun k ↦ ?_⟩
    · rw [fillAvl, List.foldlM_cons, hrun]
      exact hfill
    · rw [hkeys', hkeys, List.map_cons, List.mem_cons, or_assoc]

theorem benchmarkAvlTree_eq (nodes : N → CUavlTreeNode N (BitVec 64) (BitVec 64))
    (items : List (N × BitVec 64)) (hnodes : (items.map Prod.fst).Nodup)
    (searchKeys : List (BitVec 64)) : benchmarkAvlTree nodes items searchKeys =
      .ok (searchKeys.countP (· ∈ items.map Prod.snd)) := by
  have h₀ : Avl.Sound ⟨cuAvlTreeInitialize nodes compareFunc, []⟩ .nil :=
    AvlInitial.sound ⟨nodes, compareFunc, totalOrder_compareFunc, rfl⟩
  obtain ⟨s, T, hfill, hs, hcompare, hlen, hkeys⟩ := fillAvl_hasKey h₀ rfl items hnodes
    (fun _ _ ↦ List.not_mem_nil) items.length (by simp)
  rw [benchmarkAvlTree, hfill, ok_bind]
  refine countFound_eq fun k _ ↦ ?_
  have hheight : T.height ≤ items.length :=
    (height_le_length T).trans (hs.perm.length_eq.trans_le hlen)
  rw [(queries_eq hs.order hs.avl k hheight).2.2, ok_bind]
  refine congrArg Except.ok (Bool.eq_iff_iff.mpr ?_)
  have hk : HasKey s k ↔ k ∈ items.map Prod.snd := by
    rw [hkeys]
    exact or_iff_right fun h ↦ List.not_mem_nil h.choose_spec.1
  rw [decide_eq_true_iff, ← hk, List.find?_isSome, hcompare]
  simp only [decide_eq_true_iff, compareFunc_eq_zero]
  exact exists_congr fun n ↦ and_congr (hs.mem_iff n) eq_comm

end AvlTree

/-- All containers find as many keys as `std::set`. For `radix_new_tree` this needs keys other than
0 that fit into its seven levels, and neither of the trees that allocate may be refused memory. -/
theorem lookups_agree (arch : Art.Arch) (A : Allocator) (m : Memory WideRadix.WideRadixNode)
    (mNew : Memory Block) (nodes : N → CUradixNode N)
    (avlNodes : N → Avl.CUavlTreeNode N (BitVec 64) (BitVec 64)) (items : List (N × BitVec 64))
    (hnodes : (items.map Prod.fst).Nodup) (searchKeys : List (BitVec 64)) :
    ∃ foundCount, benchmarkStdSet (items.map Prod.snd) searchKeys = .ok foundCount ∧
      benchmarkStdMultiset (items.map Prod.snd) searchKeys = .ok foundCount ∧
      benchmarkRadixTree nodes items searchKeys = .ok foundCount ∧
      benchmarkAvlTree avlNodes items searchKeys = .ok foundCount ∧
      benchmarkLibart arch (items.map Prod.snd) searchKeys = .ok foundCount ∧
      (WideServed A m (items.map Prod.snd) →
        benchmarkWideRadix A m (items.map Prod.snd) searchKeys = .ok foundCount) ∧
      ((∀ k ∈ items.map Prod.snd, k ≠ 0#64 ∧ k.toNat < 2 ^ 56) →
        (∀ k ∈ searchKeys, k.toNat < 2 ^ 56) →
        (fillRadixNew A (treeInit A mNew 64 8) (items.map Prod.snd)).memory.failures =
          (treeInit A mNew 64 8).memory.failures →
        benchmarkRadixNew A mNew (items.map Prod.snd) searchKeys = .ok foundCount) :=
  ⟨searchKeys.countP (· ∈ items.map Prod.snd), benchmarkStdSet_eq, benchmarkStdMultiset_eq,
    benchmarkRadixTree_eq nodes items hnodes searchKeys,
    benchmarkAvlTree_eq avlNodes items hnodes searchKeys, benchmarkLibart_eq arch _ searchKeys,
    fun hserved ↦ benchmarkWideRadix_eq hserved searchKeys,
    fun hkeys hsearch hserved ↦ benchmarkRadixNew_eq A mNew hkeys hserved hsearch⟩

theorem lookups_agree_repeated : ∃ foundCount,
    benchmarkStdSet (repeated.map Prod.snd) [5, 6] = .ok foundCount ∧
      benchmarkStdMultiset (repeated.map Prod.snd) [5, 6] = .ok foundCount ∧
      benchmarkRadixTree blankNodes repeated [5, 6] = .ok foundCount ∧
      benchmarkAvlTree (fun _ ↦ Avl.newNode 0 0) repeated [5, 6] = .ok foundCount ∧
      benchmarkLibart .x86 (repeated.map Prod.snd) [5, 6] = .ok foundCount ∧
      benchmarkWideRadix bumpAllocator Memory.empty (repeated.map Prod.snd) [5, 6] =
        .ok foundCount ∧
      benchmarkRadixNew bumpAllocator Memory.empty (repeated.map Prod.snd) [5, 6] =
        .ok foundCount := by
  have hserved : (fillRadixNew bumpAllocator (treeInit bumpAllocator Memory.empty 64 8)
      (repeated.map Prod.snd)).memory.failures =
        (treeInit bumpAllocator Memory.empty 64 8).memory.failures := by decide +kernel
  have hfilled : (fillWideRadix bumpAllocator
      (WideRadix.wideRadixInit bumpAllocator Memory.empty 64).2
      (WideRadix.wideRadixInit bumpAllocator Memory.empty 64).1 (repeated.map Prod.snd)).toOption.map
        Memory.failures =
          some (WideRadix.wideRadixInit bumpAllocator Memory.empty 64).2.failures := by
    decide +kernel
  have hwide : WideServed bumpAllocator Memory.empty (repeated.map Prod.snd) := by
    refine ⟨by decide +kernel, fun m' hrun ↦ ?_⟩
    rw [hrun] at hfilled
    exact Option.some.inj hfilled
  obtain ⟨foundCount, hset, hmultiset, hradix, havl, hlibart, hwideRadix, hnew⟩ :=
    lookups_agree .x86 bumpAllocator Memory.empty Memory.empty blankNodes
      (fun _ ↦ Avl.newNode 0 0) repeated (by decide) [5, 6]
  exact ⟨foundCount, hset, hmultiset, hradix, havl, hlibart, hwideRadix hwide,
    hnew (by simp [repeated]) (by simp) hserved⟩

end RadixBench.Comparison
