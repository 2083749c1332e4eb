import RadixBench.Radix.Swapping
import RadixBench.Radix.Rings

namespace RadixBench.Radix

open Foundation CUradixTree

variable {N : Type} [DecidableEq N]

/-- A tree together with the nodes that are in it, in the order of their insertion, and the
keys that they were inserted with. -/
structure RadixState (N : Type) where
  tree : CUradixTree N
  live : List N
  key : N → BitVec 64

def RadixState.insert (s : RadixState N) (tree : CUradixTree N) (node : N) (key : BitVec 64) :
    RadixState N := ⟨tree, s.live ++ [node], Function.update s.key node key⟩

def RadixState.remove (s : RadixState N) (tree : CUradixTree N) (node : N) : RadixState N :=
  ⟨tree, s.live.erase node, s.key⟩

inductive RadixOp (N : Type)
  | insert (node : N) (key : BitVec 64)
  | remove (node : N) (fuel : ℕ)

def radixStep (s : RadixState N) : RadixOp N → Exec (RadixState N)
  | .insert node key => do
    let tree ← radixTreeInsert s.tree node key
    .ok (s.insert tree node key)
  | .remove node fuel => do
    let tree ← radixTreeRemove fuel s.tree node
    .ok (s.remove tree node)

/-- Nodes that are not in the tree are inserted with keys that have at most `keyBits` bits,
and nodes in the tree are removed, for any bound on the depth of the recursion above `keyBits`. -/
def RadixLegal (s : RadixState N) : RadixOp N → Prop
  | .insert node key => node ∉ s.live ∧ key.toNat < 2 ^ s.tree.keyBits.toNat
  | .remove node fuel => node ∈ s.live ∧ s.tree.keyBits.toNat < fuel

instance (s : RadixState N) (op : RadixOp N) : Decidable (RadixLegal s op) :=
  match op with
  | .insert node key =>
    inferInstanceAs (Decidable (node ∉ s.live ∧ key.toNat < 2 ^ s.tree.keyBits.toNat))
  | .remove node fuel =>
    inferInstanceAs (Decidable (node ∈ s.live ∧ s.tree.keyBits.toNat < fuel))

def RadixInitial (s : RadixState N) : Prop :=
  ∃ nodes keyBits, keyBits.toNat ≤ 64 ∧ radixTreeInit nodes keyBits = .ok s.tree ∧ s.live = []

abbrev RadixReachable (s : RadixState N) :=
  Reachable RadixInitial RadixLegal radixStep s

/-- The nodes with the key `k` that are in the tree, the oldest first. -/
def dups (s : RadixState N) (k : BitVec 64) : List N := s.live.filter fun n ↦ s.key n = k

structure Sound (s : RadixState N) (T : BinaryTree N) : Prop where
  bits_pos : 0 < s.tree.keyBits.toNat
  bits_le : s.tree.keyBits.toNat ≤ 64
  laid : Laid (links s.tree) .root T
  trie : Trie (keyOf s.tree) s.tree.keyBits.toNat 0 T
  nodup : s.live.Nodup
  key_eq : ∀ n ∈ s.live, (s.tree.node n).key = s.key n
  bound : ∀ n ∈ s.live, (s.key n).toNat < 2 ^ s.tree.keyBits.toNat
  mem_iff : ∀ n, n ∈ inorder T ↔ (dups s (s.key n)).head? = some n
  ring : ∀ k, Ring (nextOf s.tree) (prevOf s.tree) (dups s k)
  detached : ∀ n ∈ s.live, n ∉ inorder T → Detached s.tree n

omit [DecidableEq N] in
theorem mem_dups {s : RadixState N} {k : BitVec 64} {n : N} :
    n ∈ dups s k ↔ n ∈ s.live ∧ s.key n = k := by
  rw [dups, List.mem_filter, decide_eq_true_iff]

section

variable {s : RadixState N} {T : BinaryTree N}

omit [DecidableEq N] in
theorem Sound.live_of_mem (h : Sound s T) {n : N} (hn : n ∈ inorder T) : n ∈ s.live :=
  (mem_dups.mp (List.mem_of_head? ((h.mem_iff n).mp hn))).1

omit [DecidableEq N] in
theorem Sound.dups_nodup (h : Sound s T) (k : BitVec 64) : (dups s k).Nodup := h.nodup.filter _

omit [DecidableEq N] in
theorem Sound.keyOf_eq (h : Sound s T) {n : N} (hn : n ∈ s.live) :
    keyOf s.tree n = (s.key n).toNat := congrArg BitVec.toNat (h.key_eq n hn)

omit [DecidableEq N] in
theorem Sound.head_mem (h : Sound s T) {k : BitVec 64} {n : N} {r : List N}
    (hk : dups s k = n :: r) : n ∈ inorder T := by
  have hn : s.key n = k := (mem_dups.mp (hk ▸ List.mem_cons_self)).2
  rw [h.mem_iff, hn, hk, List.head?_cons]

omit [DecidableEq N] in
theorem Sound.tail_not_mem (h : Sound s T) {k : BitVec 64} {n m : N} {r : List N}
    (hk : dups s k = n :: r) (hm : m ∈ r) : m ∉ inorder T := by
  intro hmem
  have hkey : s.key m = k := (mem_dups.mp (hk ▸ List.mem_cons_of_mem n hm)).2
  have hnodup := h.dups_nodup k
  rw [h.mem_iff, hkey, hk, List.head?_cons, Option.some_inj] at hmem
  rw [hk, List.nodup_cons] at hnodup
  exact hnodup.1 (hmem ▸ hm)

theorem Sound.setNode (h : Sound s T) {n : N} (hn : n ∉ s.live) (x : CUradixNode N) :
    Sound { s with tree := s.tree.setNode n x } T := by
  have hnode : ∀ m ∈ s.live, (s.tree.setNode n x).node m = s.tree.node m := by
    intro m hm
    refine node_setNode_of_ne _ _ _ _ ?_
    rintro rfl
    exact hn hm
  have hT : ∀ m ∈ inorder T, (s.tree.setNode n x).node m = s.tree.node m := fun m hm ↦
    hnode m (h.live_of_mem hm)
  have hdups : ∀ {k m}, m ∈ dups s k → (s.tree.setNode n x).node m = s.tree.node m := fun hm ↦
    hnode _ (mem_dups.mp hm).1
  refine { h with laid := h.laid.frame rfl (fun m hm i ↦ ?_) (fun m hm a hma ↦ ?_),
                  trie := h.trie.congr fun m hm ↦ ?_, key_eq := fun m hm ↦ ?_,
                  ring := fun k ↦ (h.ring k).frame (fun m hm ↦ ?_) (fun m hm ↦ ?_),
                  detached := fun m hm hmT ↦ ?_ }
  · exact congrFun (congrArg CUradixNode.child (hT m hm)) i
  · exact ⟨(congrArg CUradixNode.parentToSelfPtr (hT m hm)).trans hma.1,
      (congrArg CUradixNode.parent (hT m hm)).trans hma.2⟩
  · rw [keyOf, hT m hm, keyOf]
  · rw [hnode m hm, h.key_eq m hm]
  · rw [nextOf, hdups hm, nextOf]
  · rw [prevOf, hdups hm, prevOf]
  · have hd := h.detached m hm hmT
    have heq := hnode m hm
    exact ⟨heq ▸ hd.child, heq ▸ hd.ptr, heq ▸ hd.parent⟩

omit [DecidableEq N] in
theorem ne_of_live {node m : N} (hnode : node ∉ s.live) (hm : m ∈ s.live) : m ≠ node := by
  rintro rfl
  exact hnode hm

@[simp] theorem insert_key_self (tree : CUradixTree N) (node : N) (key : BitVec 64) :
    (s.insert tree node key).key node = key := Function.update_self ..

theorem insert_key_of_ne (tree : CUradixTree N) {node m : N} (key : BitVec 64) (h : m ≠ node) :
    (s.insert tree node key).key m = s.key m := Function.update_of_ne h ..

theorem mem_insert_live {tree : CUradixTree N} {node m : N} {key : BitVec 64} :
    m ∈ (s.insert tree node key).live ↔ m ∈ s.live ∨ m = node := by
  rw [RadixState.insert, List.mem_append, List.mem_singleton]

theorem dups_insert {node : N} (hnode : node ∉ s.live) (tree : CUradixTree N)
    (key k : BitVec 64) : dups (s.insert tree node key) k =
      if k = key then dups s k ++ [node] else dups s k := by
  have hold : s.live.filter (fun n ↦ (s.insert tree node key).key n = k) = dups s k := by
    refine List.filter_congr fun n hn ↦ ?_
    rw [insert_key_of_ne tree key (ne_of_live hnode hn)]
  have hsplit : dups (s.insert tree node key) k =
      s.live.filter (fun n ↦ (s.insert tree node key).key n = k) ++
        [node].filter (fun n ↦ (s.insert tree node key).key n = k) := List.filter_append ..
  rw [hsplit, hold]
  split_ifs with hk
  · simp [hk]
  · simp [Ne.symm hk]

theorem dups_remove (hnodup : s.live.Nodup) (tree : CUradixTree N) (node : N) (k : BitVec 64) :
    dups (s.remove tree node) k = (dups s k).erase node := by
  have hnd : (dups s k).Nodup := hnodup.filter _
  have herase : dups (s.remove tree node) k =
      (s.live.erase node).filter fun n ↦ s.key n = k := rfl
  rw [herase, hnd.erase_eq_filter, hnodup.erase_eq_filter, dups, List.filter_filter,
    List.filter_filter]
  simp only [Bool.and_comm]

theorem Sound.insert_keys (h : Sound s T) {tree : CUradixTree N} {node : N} {key : BitVec 64}
    (hnode : node ∉ s.live) (hbits : tree.keyBits = s.tree.keyBits)
    (hkeys : ∀ n, (tree.node n).key = (s.tree.node n).key) (hkey : (s.tree.node node).key = key)
    (hbound : key.toNat < 2 ^ s.tree.keyBits.toNat) {m : N}
    (hm : m ∈ (s.insert tree node key).live) :
    (tree.node m).key = (s.insert tree node key).key m ∧
      ((s.insert tree node key).key m).toNat < 2 ^ tree.keyBits.toNat := by
  rw [hbits, hkeys]
  rcases mem_insert_live.mp hm with hm | rfl
  · rw [insert_key_of_ne tree key (ne_of_live hnode hm)]
    exact ⟨h.key_eq m hm, h.bound m hm⟩
  · rw [insert_key_self]
    exact ⟨hkey, hbound⟩

theorem Sound.insert_nodup (h : Sound s T) {node : N} (hnode : node ∉ s.live)
    (tree : CUradixTree N) (key : BitVec 64) : (s.insert tree node key).live.Nodup :=
  h.nodup.append (List.nodup_singleton node) fun _ hm hm' ↦
    ne_of_live hnode hm (List.mem_singleton.mp hm')

end

omit [DecidableEq N] in
theorem RadixInitial.sound {s : RadixState N} (h : RadixInitial s) : Sound s .nil := by
  obtain ⟨nodes, keyBits, hle, hinit, hlive⟩ := h
  have hpos : 0#32 < keyBits := by
    by_contra hnot
    rw [radixTreeInit, check, if_neg hnot] at hinit
    cases hinit
  rw [radixTreeInit, check_of hpos, ok_bind] at hinit
  have htree : s.tree = ⟨none, keyBits, nodes⟩ := (Except.ok.inj hinit).symm
  have hdups : ∀ k, dups s k = [] := fun k ↦ by rw [dups, hlive, List.filter_nil]
  refine ⟨?_, ?_, ?_, trivial, ?_, ?_, ?_, fun n ↦ ?_, fun k ↦ ?_, ?_⟩
  · rw [htree]
    simpa [BitVec.lt_def] using hpos
  · rw [htree]
    exact hle
  · rw [htree]
    rfl
  · rw [hlive]
    exact List.nodup_nil
  · simp [hlive]
  · simp [hlive]
  · simp [hdups]
  · rw [hdups]
    exact List.isChain_nil
  · simp [hlive]

end RadixBench.Radix
