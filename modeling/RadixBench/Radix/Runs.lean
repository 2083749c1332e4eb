import RadixBench.Radix.Operations

namespace RadixBench.Radix

open Foundation CUradixTree

variable {N : Type} [DecidableEq N]

def slotAt (t : CUradixTree N) (p : List Bool) : Option (Slot N) :=
  walk (descend t.load) .root p

def nodeAt (t : CUradixTree N) (p : List Bool) : Option N := (slotAt t p).bind t.load

/-- The nodes of a tree in memory, each with the path to it. -/
structure WellFormed (t : CUradixTree N) : Prop where
  depth_le : ∀ p n, nodeAt t p = some n → p.length ≤ t.keyBits.toNat
  branch : ∀ p n, nodeAt t p = some n → ∀ i (hi : i < p.length),
    (t.node n).key.getLsbD (t.keyBits.toNat - 1 - i) = p[i]
  lt_child : ∀ p n i m, nodeAt t p = some n → (t.node n).child i = some m →
    (t.node n).key < (t.node m).key
  key_injective : ∀ p q n m, nodeAt t p = some n → nodeAt t q = some m →
    (t.node n).key = (t.node m).key → p = q
  root_parent : ∀ n, nodeAt t [] = some n → (t.node n).parent = none
  parent : ∀ p i n, nodeAt t (p ++ [i]) = some n → (t.node n).parent = nodeAt t p
  parentToSelfPtr : ∀ p n, nodeAt t p = some n → (t.node n).parentToSelfPtr = slotAt t p

omit [DecidableEq N] in
theorem nodeAt_eq_some {t : CUradixTree N} {p : List Bool} {n : N} :
    nodeAt t p = some n ↔ ∃ s, slotAt t p = some s ∧ t.load s = some n :=
  Option.bind_eq_some_iff

section

variable {s : RadixState N} {T : BinaryTree N}

omit [DecidableEq N] in
theorem Sound.wellFormed (h : Sound s T) : WellFormed s.tree := by
  have hat : ∀ {p n}, nodeAt s.tree p = some n → ∃ a, slotAt s.tree p = some a ∧
      s.tree.load a = some n := nodeAt_eq_some.mp
  have hheld : ∀ {p n a}, slotAt s.tree p = some a → s.tree.load a = some n →
      (s.tree.node n).parentToSelfPtr = some a ∧ (s.tree.node n).parent = a.owner := by
    intro p n a ha hn
    obtain ⟨c, l, r, -, -, hself, -⟩ := h.laid.walk ha hn
    exact hself
  refine ⟨fun p n hp ↦ ?_, fun p n hp ↦ ?_, fun p n i m hp hm ↦ ?_, fun p q n m hp hq heq ↦ ?_,
    fun n hp ↦ ?_, fun p i n hp ↦ ?_, fun p n hp ↦ ?_⟩
  · obtain ⟨a, ha, hn⟩ := hat hp
    exact (h.trie.walk h.laid ha hn).1
  · obtain ⟨a, ha, hn⟩ := hat hp
    exact (h.trie.walk h.laid ha hn).2
  · obtain ⟨a, ha, hn⟩ := hat hp
    obtain ⟨c, l, r, rfl, hlaid⟩ := h.laid.walk ha hn
    obtain ⟨d, w, -, htrie, -⟩ := h.trie.plug (by simp)
    have hchild : (links s.tree).load (.child n i) = some m := hm
    refine htrie.walk_lt (p := [i]) hlaid hn (List.cons_ne_nil i []) ?_ hchild
    rw [walk, descend, hlaid.load_eq]
    rfl
  · obtain ⟨a, ha, hn⟩ := hat hp
    obtain ⟨b, hb, hm⟩ := hat hq
    exact h.trie.path_injective h.laid ha hn hb hm (congrArg BitVec.toNat heq)
  · obtain ⟨a, ha, hn⟩ := hat hp
    cases ha
    exact (hheld (p := []) rfl hn).2
  · obtain ⟨a, ha, hn⟩ := hat hp
    rw [(hheld ha hn).2]
    rw [slotAt, walk_snoc] at ha
    obtain ⟨b, hb, ha⟩ := Option.bind_eq_some_iff.mp ha
    obtain ⟨m, hm, rfl⟩ := Option.map_eq_some_iff.mp ha
    exact (nodeAt_eq_some.mpr ⟨b, hb, hm⟩).symm
  · obtain ⟨a, ha, hn⟩ := hat hp
    rw [(hheld ha hn).1, ha]

theorem radixStep_sound (h : Sound s T) (op : RadixOp N) (hl : RadixLegal s op) :
    ∃ s', radixStep s op = .ok s' ∧ ∃ T', Sound s' T' := by
  cases op with
  | insert node key =>
    obtain ⟨t', T', hrun, hs', -⟩ := radixTreeInsert_sound h hl.1 hl.2
    exact ⟨_, by rw [radixStep, hrun]; rfl, T', hs'⟩
  | remove node fuel =>
    obtain ⟨t', T', hrun, hs', -⟩ := radixTreeRemove_sound h hl.1 hl.2
    exact ⟨_, by rw [radixStep, hrun]; rfl, T', hs'⟩

theorem RadixReachable.sound (h : RadixReachable s) : ∃ T, Sound s T :=
  Reachable.invariant_of_returns (I := fun s ↦ ∃ T, Sound s T)
    (fun _ hinit ↦ ⟨.nil, hinit.sound⟩) (fun _ op ⟨_, hs⟩ hl ↦ radixStep_sound hs op hl) h

/-- In every run no call fails, and the nodes of the tree are where their keys put them. -/
theorem radixTree_wellFormed (h : RadixReachable s) :
    WellFormed s.tree ∧ ∀ op, RadixLegal s op → ∃ s', radixStep s op = .ok s' := by
  obtain ⟨T, hs⟩ := h.sound
  refine ⟨hs.wellFormed, fun op hl ↦ ?_⟩
  obtain ⟨s', hstep, -⟩ := radixStep_sound hs op hl
  exact ⟨s', hstep⟩

/-- The nodes that were inserted with a key and are still there are on one ring, in the order
of their insertion. The oldest is the one in the tree. -/
theorem radixTree_rings (h : RadixReachable s) (k : BitVec 64) :
    (dups s k).Nodup ∧ (∀ n ∈ dups s k, (s.tree.node n).key = k) ∧
      (dups s k = [] → ∀ p n, nodeAt s.tree p = some n → (s.tree.node n).key ≠ k) ∧
      ∀ head r, dups s k = head :: r →
        Ring (nextOf s.tree) (prevOf s.tree) (head :: r) ∧
        (∃ p, nodeAt s.tree p = some head) ∧
        (∀ p n, nodeAt s.tree p = some n → (s.tree.node n).key = k → n = head) ∧
        ∀ m ∈ r, Detached s.tree m := by
  obtain ⟨T, hs⟩ := h.sound
  have hmem : ∀ {p n}, nodeAt s.tree p = some n → n ∈ inorder T := by
    intro p n hp
    obtain ⟨a, ha, hn⟩ := nodeAt_eq_some.mp hp
    exact hs.laid.mem_of_walk ha hn
  have hhead : ∀ {p n}, nodeAt s.tree p = some n → (s.tree.node n).key = k →
      (dups s k).head? = some n := by
    intro p n hp hk
    have hkey := hs.key_eq n (hs.live_of_mem (hmem hp))
    rw [← hk, hkey]
    exact (hs.mem_iff n).mp (hmem hp)
  refine ⟨hs.dups_nodup k, fun n hn ↦ ?_, fun hnil p n hp hk ↦ ?_, fun head r hdups ↦ ?_⟩
  · obtain ⟨hlive, hkey⟩ := mem_dups.mp hn
    exact (hs.key_eq n hlive).trans hkey
  · have hnone := hhead hp hk
    rw [hnil] at hnone
    cases hnone
  · have hring := hs.ring k
    rw [hdups] at hring
    refine ⟨hring, hs.laid.exists_path (hs.head_mem hdups), fun p n hp hk ↦ ?_, fun m hm ↦ ?_⟩
    · have hsome := hhead hp hk
      rw [hdups] at hsome
      exact (Option.some.inj hsome).symm
    · have hlive : m ∈ s.live :=
        (mem_dups.mp (hdups ▸ List.mem_cons_of_mem head hm : m ∈ dups s k)).1
      exact hs.detached m hlive (hs.tail_not_mem hdups hm)

/-- The tree is found empty exactly when every node was removed again. -/
theorem radixTreeEmpty_iff (h : RadixReachable s) : radixTreeEmpty s.tree = true ↔ s.live = [] := by
  obtain ⟨T, hs⟩ := h.sound
  have hroot : s.tree.root = rootOf T := hs.laid.load_eq
  rw [radixTreeEmpty, hroot]
  cases T with
  | nil =>
    refine iff_of_true rfl (List.eq_nil_iff_forall_not_mem.mpr fun n hn ↦ ?_)
    obtain ⟨head, r, hdups⟩ := List.exists_cons_of_ne_nil
      (List.ne_nil_of_mem (mem_dups.mpr ⟨hn, rfl⟩))
    exact List.not_mem_nil (hs.head_mem hdups)
  | node n l r =>
    have hn : n ∈ s.live := hs.live_of_mem (by simp)
    exact iff_of_false Bool.false_ne_true (List.ne_nil_of_mem hn)

end

def after (s : RadixState N) (op : RadixOp N) : RadixState N :=
  (radixStep s op).toOption.getD s

theorem RadixReachable.after {s : RadixState N} (h : RadixReachable s) (op : RadixOp N)
    (hl : RadixLegal s op) : RadixReachable (after s op) := by
  obtain ⟨T, hs⟩ := h.sound
  obtain ⟨s', hstep, -⟩ := radixStep_sound hs op hl
  have heq : Radix.after s op = s' := by
    rw [Radix.after, hstep]
    rfl
  exact heq ▸ .step h hl hstep

def empty : RadixState ℕ :=
  ⟨⟨none, 3, fun _ ↦ ⟨none, none, fun _ ↦ none, none, none, 0⟩⟩, [], fun _ ↦ 0⟩

theorem empty_reachable : RadixReachable empty := .init ⟨_, 3, by decide, rfl, rfl⟩

def pair : RadixState ℕ := after (after (after empty (.insert 0 5)) (.insert 1 5)) (.insert 2 3)

theorem pair_reachable : RadixReachable pair :=
  ((empty_reachable.after (.insert 0 5) (by decide +kernel)).after (.insert 1 5)
    (by decide +kernel)).after (.insert 2 3) (by decide +kernel)

theorem radixTree_wellFormed_pair : WellFormed pair.tree :=
  (radixTree_wellFormed pair_reachable).1

theorem radixTree_rings_pair : Ring (nextOf pair.tree) (prevOf pair.tree) [0, 1] :=
  ((radixTree_rings pair_reachable 5).2.2.2 0 [1] (by decide +kernel)).1

end RadixBench.Radix
