import RadixBench.Comparison.Lookups
import RadixBench.Radix.Query

namespace RadixBench.Comparison

open Foundation Radix Avl

variable {N : Type} [DecidableEq N]

inductive SetCall (N : Type)
  | insert (node : N) (key : BitVec 64)
  | remove (node : N)
  | lowerBound (query : BitVec 64)

def radixCall (s : RadixState N) : SetCall N → Exec (RadixState N × Option N)
  | .insert node key => do
    let s ← radixStep s (.insert node key)
    return (s, none)
  | .remove node => do
    let s ← radixStep s (.remove node (s.tree.keyBits.toNat + 1))
    return (s, none)
  | .lowerBound query => do
    let found ← radixTreeFindGEQ s.tree query
    return (s, found)

def avlCall (s : AvlState N (BitVec 64) (BitVec 64)) :
    SetCall N → Exec (AvlState N (BitVec 64) (BitVec 64) × Option N)
  | .insert node key => do
    let s ← avlStep s (.insert node key key s.live.length)
    return (s, none)
  | .remove node => do
    let s ← avlStep s (.remove node s.live.length)
    return (s, none)
  | .lowerBound query => do
    let found ← cuAvlTreeNodeFindGEQ s.tree s.live.length query
    return (s, found)

/-- New nodes with new keys are inserted and nodes that are there are removed. All keys have at
most `keyBits` bits. -/
def SetLegal (s : RadixState N) : SetCall N → Prop
  | .insert node key =>
    node ∉ s.live ∧ key.toNat < 2 ^ s.tree.keyBits.toNat ∧ ∀ n ∈ s.live, s.key n ≠ key
  | .remove node => node ∈ s.live
  | .lowerBound query => query.toNat < 2 ^ s.tree.keyBits.toNat

instance (s : RadixState N) : DecidablePred (SetLegal s)
  | .insert _ _ => inferInstanceAs (Decidable (_ ∧ _ ∧ _))
  | .remove node => inferInstanceAs (Decidable (node ∈ s.live))
  | .lowerBound _ => inferInstanceAs (Decidable (_ < _))

structure SameSet (s : RadixState N) (t : AvlState N (BitVec 64) (BitVec 64)) : Prop where
  radix : ∃ T, Radix.Sound s T
  avl : ∃ T, Avl.Sound t T
  compare : t.tree.compare = compareFunc
  mem_iff : ∀ n, n ∈ t.live ↔ n ∈ s.live
  key_eq : ∀ n ∈ s.live, (t.tree.node n).key = s.key n
  distinct : ∀ n ∈ s.live, ∀ m ∈ s.live, s.key n = s.key m → n = m

variable {s : RadixState N} {t : AvlState N (BitVec 64) (BitVec 64)} {node : N} {key : BitVec 64}

theorem compareFunc_nonpos {a b : BitVec 64} : compareFunc a b ≤ 0 ↔ a ≤ b := by
  rw [compareFunc]
  split_ifs with hlt hgt
  · exact iff_of_true (by decide) (BitVec.le_of_lt hlt)
  · exact iff_of_false (by decide) (BitVec.not_le.mpr hgt)
  · exact iff_of_true le_rfl (BitVec.not_lt.mp hgt)

theorem avl_insert_new {T : BinaryTree N} (h : Avl.Sound t T) (hnode : node ∉ t.live)
    (key : BitVec 64)
    (hkey : ∀ n ∈ t.live, t.tree.compare key (t.tree.node n).key ≠ 0) :
    ∃ t' T', cuAvlTreeNodeInsert t.tree t.live.length node key key = .ok (.success, t') ∧
      Avl.Sound ⟨t', t.live ++ [node]⟩ T' ∧ t'.compare = t.tree.compare ∧
      (t'.node node).key = key ∧ ∀ n, n ≠ node → (t'.node n).key = (t.tree.node n).key := by
  obtain ⟨existing, t', T', hrun, hs'⟩ := h.insert hnode key key le_rfl
  obtain ⟨x, hx, hzero, -⟩ | ⟨t₁, T₁, l₁, l₂, heq, -, -, -, -, -, hdata, -⟩ :=
    h.inserts hnode key key le_rfl
  · exact absurd hzero (hkey x ((h.mem_iff x).mp hx))
  · obtain ⟨rfl, rfl⟩ := Prod.mk.inj (Except.ok.inj (hrun.symm.trans heq))
    refine ⟨t', T', cuAvlTreeNodeInsert_eq hrun, hs', hdata.compare, ?_, fun n hn ↦ ?_⟩
    · rw [hdata.key, t.tree.node_setNode_self]
      rfl
    · rw [hdata.key, t.tree.node_setNode_of_ne _ hn]

theorem SameSet.insert (h : SameSet s t) (hl : SetLegal s (.insert node key)) :
    ∃ s' t', radixCall s (.insert node key) = .ok (s', none) ∧
      avlCall t (.insert node key) = .ok (t', none) ∧ SameSet s' t' := by
  obtain ⟨hnode, hbound, hnew⟩ := hl
  obtain ⟨T, hs⟩ := h.radix
  obtain ⟨U, ht⟩ := h.avl
  obtain ⟨r, T', hrun, hs', -⟩ := radixTreeInsert_sound hs hnode hbound
  obtain ⟨a, U', hrun', ht', hcompare, hself, hother⟩ := avl_insert_new ht
    ((h.mem_iff node).not.mpr hnode) key fun n hn ↦ by
      have hlive := (h.mem_iff n).mp hn
      rw [h.compare, h.key_eq n hlive]
      exact fun hzero ↦ hnew n hlive (compareFunc_eq_zero.mp hzero).symm
  have hkey : ∀ n ∈ s.live, (s.insert r node key).key n = s.key n := fun n hn ↦
    Function.update_of_ne (ne_of_mem_of_not_mem hn hnode) _ _
  have hkeyNode : (s.insert r node key).key node = key := Function.update_self _ _ _
  refine ⟨s.insert r node key, ⟨a, t.live ++ [node]⟩, ?_, ?_, ⟨T', hs'⟩, ⟨U', ht'⟩,
    hcompare.trans h.compare, fun n ↦ ?_, fun n hn ↦ ?_, fun n hn m hm heq ↦ ?_⟩
  · rw [radixCall, radixStep, hrun]
    rfl
  · rw [avlCall, avlStep, hrun']
    rfl
  · show n ∈ t.live ++ [node] ↔ n ∈ s.live ++ [node]
    rw [List.mem_append, List.mem_append, h.mem_iff]
  · rcases List.mem_append.mp hn with hn | hn
    · rw [hkey n hn, ← h.key_eq n hn]
      exact hother n (ne_of_mem_of_not_mem hn hnode)
    · rw [List.mem_singleton.mp hn, hkeyNode]
      exact hself
  · rcases List.mem_append.mp hn with hn | hn
    · rcases List.mem_append.mp hm with hm | hm
      · rw [hkey n hn, hkey m hm] at heq
        exact h.distinct n hn m hm heq
      · rw [hkey n hn, List.mem_singleton.mp hm, hkeyNode] at heq
        exact absurd heq (hnew n hn)
    · rcases List.mem_append.mp hm with hm | hm
      · rw [hkey m hm, List.mem_singleton.mp hn, hkeyNode] at heq
        exact absurd heq.symm (hnew m hm)
      · rw [List.mem_singleton.mp hn, List.mem_singleton.mp hm]

theorem SameSet.remove (h : SameSet s t) (hnode : node ∈ s.live) :
    ∃ s' t', radixCall s (.remove node) = .ok (s', none) ∧
      avlCall t (.remove node) = .ok (t', none) ∧ SameSet s' t' := by
  obtain ⟨T, hs⟩ := h.radix
  obtain ⟨U, ht⟩ := h.avl
  have hnode' := (h.mem_iff node).mpr hnode
  obtain ⟨r, T', hrun, hs', -⟩ := radixTreeRemove_sound hs hnode (Nat.lt_succ_self _)
  obtain ⟨a, U', hrun', ht'⟩ := ht.remove hnode' le_rfl
  obtain ⟨a', -, hrun₁, -, -, hdata, -⟩ := ht.removes hnode' le_rfl
  obtain rfl := Except.ok.inj (hrun'.symm.trans hrun₁)
  have hnodup : t.live.Nodup := ht.perm.nodup_iff.mp (ht.avl.nodup ht.order)
  have hmem : ∀ n, n ∈ s.live.erase node → n ∈ s.live := fun n ↦ List.mem_of_mem_erase
  refine ⟨s.remove r node, t.remove a node, ?_, ?_, ⟨T', hs'⟩, ⟨U', ht'⟩,
    hdata.compare.trans h.compare, fun n ↦ ?_, fun n hn ↦ ?_, fun n hn m hm heq ↦ ?_⟩
  · rw [radixCall, radixStep, hrun]
    rfl
  · rw [avlCall, avlStep, hrun']
    rfl
  · show n ∈ t.live.erase node ↔ n ∈ s.live.erase node
    rw [hnodup.mem_erase_iff, hs.nodup.mem_erase_iff, h.mem_iff]
  · exact (hdata.key n).trans (h.key_eq n (hmem n hn))
  · exact h.distinct n (hmem n hn) m (hmem m hm) heq

theorem SameSet.lowerBound (h : SameSet s t) {query : BitVec 64}
    (hquery : query.toNat < 2 ^ s.tree.keyBits.toNat) :
    ∃ r, radixTreeFindGEQ s.tree query = .ok r ∧
      cuAvlTreeNodeFindGEQ t.tree t.live.length query = .ok r := by
  obtain ⟨T, hs⟩ := h.radix
  obtain ⟨U, ht⟩ := h.avl
  obtain ⟨r, hrun, hr⟩ := hs.findGEQ query hquery
  obtain ⟨hrun', -⟩ := queries_eq ht.order ht.avl query
    ((height_le_length U).trans ht.perm.length_eq.le)
  have hleast := (nearestKeys ht.order ht.avl.sorted query).least
  have hmem : ∀ n, n ∈ inorder U ↔ n ∈ s.live := fun n ↦ (ht.mem_iff n).trans (h.mem_iff n)
  have hquery : ∀ n ∈ s.live, t.tree.compare query (t.tree.node n).key ≤ 0 ↔ query ≤ s.key n := by
    intro n hn
    rw [h.compare, h.key_eq n hn, compareFunc_nonpos]
  refine ⟨r, hrun, hrun'.trans (congrArg _ ?_)⟩
  generalize (inorder U).find? _ = r' at hleast
  cases r' with
  | none =>
    cases r with
    | none => rfl
    | some n =>
      obtain ⟨hn, hge, -⟩ := hr
      exact absurd ((hquery n hn).mpr hge) (hleast.none rfl n ((hmem n).mpr hn))
  | some m =>
    obtain ⟨hm, hge, hle⟩ := hleast.some m rfl
    replace hm := (hmem m).mp hm
    cases r with
    | none => exact absurd (hr m hm) (BitVec.not_lt.mpr ((hquery m hm).mp hge))
    | some n =>
      obtain ⟨hn, hge', hle'⟩ := hr
      have hmn := hle n ((hmem n).mpr hn) ((hquery n hn).mpr hge')
      rw [h.compare, h.key_eq m hm, h.key_eq n hn, compareFunc_nonpos] at hmn
      have hnm := hle' m hm ((hquery m hm).mp hge)
      exact congrArg some (h.distinct m hm n hn (BitVec.le_antisymm hmn hnm))

theorem setCall_agrees {call : SetCall N} (h : SameSet s t) (hl : SetLegal s call) :
    ∃ s' t' o, radixCall s call = .ok (s', o) ∧ avlCall t call = .ok (t', o) ∧ SameSet s' t' := by
  cases call with
  | insert node key =>
    obtain ⟨s', t', hrun, hrun', h'⟩ := h.insert hl
    exact ⟨s', t', none, hrun, hrun', h'⟩
  | remove node =>
    obtain ⟨s', t', hrun, hrun', h'⟩ := h.remove hl
    exact ⟨s', t', none, hrun, hrun', h'⟩
  | lowerBound query =>
    obtain ⟨r, hrun, hrun'⟩ := h.lowerBound hl
    refine ⟨s, t, r, ?_, ?_, h⟩
    · rw [radixCall, hrun]
      rfl
    · rw [avlCall, hrun']
      rfl

/-- The binary radix tree and the AVL tree can stand in for each other as ordered sets: over every
run that inserts new keys and removes nodes, every query for a lower bound finds the same node. -/
theorem radix_avl_agree {keyBits : BitVec 32} {nodes : N → CUradixNode N} {r : CUradixTree N}
    (hinit : radixTreeInit nodes keyBits = .ok r) (hbits : keyBits.toNat ≤ 64)
    (nodes' : N → CUavlTreeNode N (BitVec 64) (BitVec 64)) (calls : List (SetCall N))
    (key : N → BitVec 64) (hcalls : Lawful radixCall SetLegal ⟨r, [], key⟩ calls) :
    ∃ os : List (Option N), os.length = calls.length ∧
      answers radixCall ⟨r, [], key⟩ calls = os.map .ok ∧
      answers avlCall ⟨cuAvlTreeInitialize nodes' compareFunc, []⟩ calls = os.map .ok := by
  have hradix : RadixInitial (⟨r, [], key⟩ : RadixState N) := ⟨nodes, keyBits, hbits, hinit, rfl⟩
  have havl : AvlInitial (⟨cuAvlTreeInitialize nodes' compareFunc, []⟩ :
      AvlState N (BitVec 64) (BitVec 64)) := ⟨nodes', compareFunc, totalOrder_compareFunc, rfl⟩
  have hsame : SameSet ⟨r, [], key⟩ ⟨cuAvlTreeInitialize nodes' compareFunc, []⟩ :=
    ⟨⟨.nil, hradix.sound⟩, ⟨.nil, havl.sound⟩, rfl, fun _ ↦ Iff.rfl, nofun, nofun⟩
  exact answers_return (fun _ _ _ ↦ setCall_agrees) hsame hcalls

theorem radix_avl_agree_five : ∃ os : List (Option ℕ), os.length = 5 ∧
    answers radixCall ⟨⟨none, 56, blankNodes⟩, [], fun _ ↦ 0⟩
      [.insert 0 5, .insert 1 9, .lowerBound 6, .remove 1, .lowerBound 6] = os.map .ok ∧
    answers avlCall ⟨cuAvlTreeInitialize (fun _ ↦ newNode 0 0) compareFunc, []⟩
      [.insert 0 5, .insert 1 9, .lowerBound 6, .remove 1, .lowerBound 6] = os.map .ok := by
  have hinit : radixTreeInit blankNodes 56 = .ok ⟨none, 56, blankNodes⟩ := rfl
  exact radix_avl_agree hinit (by decide) (fun _ ↦ newNode 0 0)
    [.insert 0 5, .insert 1 9, .lowerBound 6, .remove 1, .lowerBound 6] (fun _ ↦ 0)
    (by decide +kernel)

end RadixBench.Comparison
