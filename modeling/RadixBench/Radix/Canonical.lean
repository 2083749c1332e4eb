import RadixBench.Radix.Runs

namespace RadixBench.Radix

open Foundation CUradixTree

variable {N N' : Type} {s : RadixState N} {s' : RadixState N'} {T : BinaryTree N}
  {T' : BinaryTree N'}

theorem Sound.nodeAt_eq (h : Sound s T) (p : List Bool) : nodeAt s.tree p = nodeOn T p :=
  h.laid.nodeOn p

def Keys (s : RadixState N) (k : BitVec 64) : Prop := ∃ n ∈ s.live, s.key n = k

theorem Sound.keys_iff (h : Sound s T) (a : ℕ) :
    (∃ x ∈ inorder T, keyOf s.tree x = a) ↔ ∃ k, Keys s k ∧ k.toNat = a := by
  constructor
  · intro ⟨x, hx, heq⟩
    have hlive := h.live_of_mem hx
    exact ⟨s.key x, ⟨x, hlive, rfl⟩, (h.keyOf_eq hlive).symm.trans heq⟩
  · intro ⟨k, ⟨n, hn, hk⟩, heq⟩
    obtain ⟨head, r, hdups⟩ := List.exists_cons_of_ne_nil
      (List.ne_nil_of_mem (mem_dups.mpr ⟨hn, hk⟩))
    obtain ⟨hlive, hkey⟩ := mem_dups.mp (hdups ▸ List.mem_cons_self : head ∈ dups s k)
    refine ⟨head, h.head_mem hdups, ?_⟩
    rw [h.keyOf_eq hlive, hkey, heq]

theorem Sound.map_eq (h : Sound s T) (h' : Sound s' T') (hbits : s.tree.keyBits = s'.tree.keyBits)
    (hkeys : ∀ k, Keys s k ↔ Keys s' k) : T.map (keyOf s.tree) = T'.map (keyOf s'.tree) := by
  refine h.trie.map_eq (hbits ▸ h'.trie) fun a ↦ ?_
  rw [h.keys_iff, h'.keys_iff]
  simp only [hkeys]

theorem Sound.keyAt_eq (h : Sound s T) (h' : Sound s' T')
    (hbits : s.tree.keyBits = s'.tree.keyBits) (hkeys : ∀ k, Keys s k ↔ Keys s' k)
    (p : List Bool) : (nodeAt s.tree p).map (fun n ↦ (s.tree.node n).key) =
      (nodeAt s'.tree p).map fun n ↦ (s'.tree.node n).key := by
  have hmap := congrArg (fun t ↦ nodeOn t p) (h.map_eq h' hbits hkeys)
  simp only [nodeOn_map] at hmap
  rw [h.nodeAt_eq, h'.nodeAt_eq]
  refine Option.map_injective (fun _ _ ↦ BitVec.eq_of_toNat_eq) ?_
  rw [Option.map_map, Option.map_map]
  exact hmap

theorem Sound.sameLinks {s' : RadixState N} {T' : BinaryTree N} (h : Sound s T) (h' : Sound s' T')
    (hbits : s'.tree.keyBits = s.tree.keyBits) (hlive : s'.live = s.live)
    (hkey : ∀ n ∈ s.live, s'.key n = s.key n) :
    s'.tree.root = s.tree.root ∧ ∀ n ∈ s.live, SameLinks s.tree s'.tree n := by
  have hdups : ∀ k, dups s' k = dups s k := by
    intro k
    rw [dups, hlive, dups]
    refine List.filter_congr fun n hn ↦ ?_
    rw [hkey n hn]
  have hmem : ∀ n, n ∈ inorder T' ↔ n ∈ inorder T := by
    intro n
    by_cases hn : n ∈ s.live
    · rw [h'.mem_iff, h.mem_iff, hdups, hkey n hn]
    · exact iff_of_false (fun hT ↦ hn (hlive ▸ h'.live_of_mem hT)) fun hT ↦ hn (h.live_of_mem hT)
  have htrie : Trie (keyOf s.tree) s.tree.keyBits.toNat 0 T' := by
    refine (hbits ▸ h'.trie).congr fun n hn ↦ ?_
    have hn' := h.live_of_mem ((hmem n).mp hn)
    rw [h.keyOf_eq hn', h'.keyOf_eq (h'.live_of_mem hn), hkey n hn']
  have htree : T = T' := by
    refine map_inj (h.trie.map_eq htrie fun a ↦ ?_) fun x hx y hy ↦
      h.trie.key_injective hx ((hmem y).mp hy)
    simp only [hmem]
  subst htree
  refine ⟨h'.laid.load_eq.trans h.laid.load_eq.symm, fun n hn ↦ ?_⟩
  by_cases hT : n ∈ inorder T
  · obtain ⟨hchild, a, ⟨hptr, hparent⟩, hptr', hparent'⟩ := h.laid.agree h'.laid hT
    exact ⟨funext hchild, hptr'.trans hptr.symm, hparent'.trans hparent.symm⟩
  · have hd := h.detached n hn hT
    have hd' := h'.detached n (hlive ▸ hn) hT
    exact ⟨funext fun i ↦ (hd'.child i).trans (hd.child i).symm, hd'.ptr.trans hd.ptr.symm,
      hd'.parent.trans hd.parent.symm⟩

/-- The keys in the tree determine the key at every position, whatever the runs were. An insertion
that is undone leaves no trace in the links of the other nodes. -/
theorem radixTree_canonical [DecidableEq N] [DecidableEq N'] (h : RadixReachable s) :
    (∀ s' : RadixState N', RadixReachable s' → s.tree.keyBits = s'.tree.keyBits →
      (∀ k, (∃ n ∈ s.live, s.key n = k) ↔ ∃ n ∈ s'.live, s'.key n = k) →
      ∀ p, (nodeAt s.tree p).map (fun n ↦ (s.tree.node n).key) =
        (nodeAt s'.tree p).map fun n ↦ (s'.tree.node n).key) ∧
    ∀ node key fuel, node ∉ s.live → key.toNat < 2 ^ s.tree.keyBits.toNat →
      s.tree.keyBits.toNat < fuel → ∃ t₁ t₂, radixTreeInsert s.tree node key = .ok t₁ ∧
        radixTreeRemove fuel t₁ node = .ok t₂ ∧ t₂.root = s.tree.root ∧
        ∀ n, n ≠ node → (t₂.node n).child = (s.tree.node n).child ∧
          (t₂.node n).parent = (s.tree.node n).parent ∧
          (t₂.node n).parentToSelfPtr = (s.tree.node n).parentToSelfPtr := by
  obtain ⟨T, hs⟩ := h.sound
  refine ⟨fun s' h' hbits hkeys p ↦ ?_, fun node key fuel hnode hkey hfuel ↦ ?_⟩
  · obtain ⟨T', hs'⟩ := h'.sound
    exact hs.keyAt_eq hs' hbits hkeys p
  · obtain ⟨t₁, T₁, hinsert, hs₁, hbits₁, hsame₁⟩ := radixTreeInsert_sound hs hnode hkey
    have hlive₁ : node ∈ (s.insert t₁ node key).live := mem_insert_live.mpr (.inr rfl)
    obtain ⟨t₂, T₂, hremove, hs₂, hbits₂, hsame₂⟩ :=
      radixTreeRemove_sound hs₁ hlive₁ (hbits₁ ▸ hfuel : t₁.keyBits.toNat < fuel)
    have hlive : ((s.insert t₁ node key).remove t₂ node).live = s.live := by
      change (s.live ++ [node]).erase node = s.live
      rw [List.erase_append_right _ hnode]
      simp
    obtain ⟨hroot, hlinks⟩ := hs.sameLinks hs₂ (hbits₂.trans hbits₁) hlive fun n hn ↦
      insert_key_of_ne t₁ key (ne_of_live hnode hn)
    refine ⟨t₁, t₂, hinsert, hremove, hroot, fun n hn ↦ ?_⟩
    have hsame : SameLinks s.tree t₂ n := by
      by_cases hlive' : n ∈ s.live
      · exact hlinks n hlive'
      · refine (hsame₁ n hlive' hn).trans (hsame₂ n fun hmem ↦ ?_)
        exact (mem_insert_live.mp hmem).elim hlive' hn
    exact ⟨hsame.child, hsame.parent, hsame.ptr⟩

/-- `pair` without its duplicate, from a run in another order. -/
def single : RadixState ℕ :=
  after (after (after (after empty (.insert 2 3)) (.insert 7 1)) (.insert 0 5)) (.remove 7 4)

theorem single_reachable : RadixReachable single :=
  (((empty_reachable.after (.insert 2 3) (by decide +kernel)).after (.insert 7 1)
    (by decide +kernel)).after (.insert 0 5) (by decide +kernel)).after (.remove 7 4)
    (by decide +kernel)

theorem radixTree_canonical_pair :
    (nodeAt pair.tree [true]).map (fun n ↦ (pair.tree.node n).key) =
      (nodeAt single.tree [true]).map fun n ↦ (single.tree.node n).key := by
  have hpair : pair.live.map pair.key = [5, 5, 3] := by decide +kernel
  have hsingle : single.live.map single.key = [3, 5] := by decide +kernel
  refine (radixTree_canonical pair_reachable).1 single single_reachable (by decide +kernel)
    (fun k ↦ ?_) [true]
  rw [← List.mem_map, ← List.mem_map, hpair, hsingle]
  simp only [List.mem_cons, List.not_mem_nil, or_false]
  tauto

end RadixBench.Radix
