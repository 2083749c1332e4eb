import RadixBench.Radix.Runs

namespace RadixBench.Radix

open Foundation CUradixTree

variable {N : Type} [DecidableEq N] {t : CUradixTree N} {key : BitVec 64}

omit [DecidableEq N] in
theorem smallerNode_eq {n f : N} (h : ¬ (t.node n).key < (t.node f).key) :
    radixTreeGetSmallerNode t n (some f) = f := if_neg h

omit [DecidableEq N] in
theorem findGEQFrom_nil (t : CUradixTree N) (key : BitVec 64) (k : ℕ) (found gtTree : Option N) :
    findGEQFrom t key k none found gtTree = .ok (if found = none then gtTree else found) := by
  cases k <;> rfl

omit [DecidableEq N] in
theorem findGEQFrom_eq {m : N} (h : (t.node m).key = key) {k : ℕ} {found gtTree : Option N} :
    findGEQFrom t key k (some m) found gtTree = .ok (some m) := by
  cases k <;> exact if_pos h

omit [DecidableEq N] in
theorem findGEQFrom_step {k : ℕ} {m : N} {l r : BinaryTree N} {a : Slot N} {found gtTree : Option N}
    (h : Laid (links t) a (.node m l r)) (hne : (t.node m).key ≠ key) (hk : k < 64) :
    findGEQFrom t key (k + 1) (some m) found gtTree =
      findGEQFrom t key k (rootOf (bif key.toNat.testBit k then r else l))
        (if key < (t.node m).key then some (radixTreeGetSmallerNode t m found) else found)
        (if key.toNat.testBit k = false ∧ rootOf r ≠ none then rootOf r else gtTree) := by
  obtain ⟨-, -, hl, hr⟩ := h
  have hleft : (t.node m).child false = rootOf l := hl.load_eq
  have hright : (t.node m).child true = rootOf r := hr.load_eq
  rw [findGEQFrom]
  dsimp only
  rw [if_neg hne, radixTreeIsBitSet_of_lt key hk, ok_bind, hright]
  cases key.toNat.testBit k with
  | false => rw [hleft, cond_false]
  | true => rw [hright, cond_true]

omit [DecidableEq N] in
/-- A greater key on the path is smaller than everything below it. -/
theorem findGEQFrom_found {k v : ℕ} {T : BinaryTree N} {a : Slot N} {f : N}
    (h : Laid (links t) a T) (htrie : Trie (keyOf t) k v T) (hv : key.toNat / 2 ^ k = v)
    (hf : key.toNat < keyOf t f) (hlt : ∀ x ∈ inorder T, keyOf t f < keyOf t x) (hk : k ≤ 64)
    (gtTree : Option N) :
    findGEQFrom t key k (rootOf T) (some f) gtTree = .ok (some f) := by
  induction k generalizing v T a gtTree with
  | zero =>
    cases T with
    | nil => rfl
    | node m l r =>
      rw [pow_zero, Nat.div_one] at hv
      have hm : keyOf t m = v := (trie_zero.mp htrie).1
      have hfm := hlt m (by simp)
      omega
  | succ k ih =>
    cases T with
    | nil => rfl
    | node m l r =>
      obtain ⟨-, -, hl, hr⟩ := id h
      obtain ⟨-, -, -, htl, htr⟩ := trie_succ.mp htrie
      have hfm : keyOf t f < keyOf t m := hlt m (by simp)
      have hne : (t.node m).key ≠ key := fun heq ↦ by
        have hkm : keyOf t m = key.toNat := congrArg BitVec.toNat heq
        omega
      have hsmall : radixTreeGetSmallerNode t m (some f) = f := smallerNode_eq (Nat.lt_asymm hfm)
      have hgt : key < (t.node m).key := hf.trans hfm
      have hnext := div_two_pow_of_testBit hv
      rw [rootOf_node, findGEQFrom_step h hne (by omega), if_pos hgt, hsmall]
      cases hbit : key.toNat.testBit k with
      | false =>
        rw [hbit] at hnext
        exact ih hl htl hnext (fun x hx ↦ hlt x (by simp [hx])) (by omega) _
      | true =>
        rw [hbit] at hnext
        exact ih hr htr hnext (fun x hx ↦ hlt x (by simp [hx])) (by omega) _

omit [DecidableEq N] in
/-- Before that, the answer is the least key from the query on in the subtree, or else the last
right subtree that was passed by. -/
theorem findGEQFrom_none {k v : ℕ} {T : BinaryTree N} {a : Slot N} (h : Laid (links t) a T)
    (htrie : Trie (keyOf t) k v T) (hv : key.toNat / 2 ^ k = v) (hk : k ≤ 64)
    (gtTree : Option N) :
    (∃ n, findGEQFrom t key k (rootOf T) none gtTree = .ok (some n) ∧
      LeastFrom (keyOf t) key.toNat (inorder T) n) ∨
    (findGEQFrom t key k (rootOf T) none gtTree = .ok gtTree ∧
      ∀ x ∈ inorder T, keyOf t x < key.toNat) := by
  induction T generalizing k v a gtTree with
  | nil => exact .inr ⟨findGEQFrom_nil .., by simp⟩
  | node m l r ihl ihr =>
    by_cases heq : (t.node m).key = key
    · have hge : key.toNat ≤ keyOf t m := (congrArg BitVec.toNat heq).ge
      exact .inl ⟨m, findGEQFrom_eq heq, htrie.least_root hge⟩
    · have hne : keyOf t m ≠ key.toNat := fun h ↦ heq (BitVec.eq_of_toNat_eq h)
      cases k with
      | zero =>
        rw [pow_zero, Nat.div_one] at hv
        exact absurd ((trie_zero.mp htrie).1.trans hv.symm) hne
      | succ k =>
        obtain ⟨-, -, hl, hr⟩ := id h
        obtain ⟨-, hml, hmr, htl, htr⟩ := trie_succ.mp htrie
        have hnext := div_two_pow_of_testBit hv
        rw [rootOf_node, findGEQFrom_step h heq (by omega)]
        by_cases hlt : keyOf t m < key.toNat
        · have hnot : ¬ key < (t.node m).key := Nat.lt_asymm hlt
          rw [if_neg hnot]
          cases hbit : key.toNat.testBit k with
          | false =>
            rw [hbit, Bool.toNat_false] at hnext
            obtain ⟨n, hrun, hn⟩ | ⟨hrun, hnone⟩ := ihl hl htl hnext (by omega)
              (if false = false ∧ rootOf r ≠ none then rootOf r else gtTree)
            · exact .inl ⟨n, hrun, htrie.least_left hlt hn⟩
            · cases r with
              | nil =>
                refine .inr ⟨hrun, fun x hx ↦ ?_⟩
                rcases List.mem_append.mp hx with hx | hx
                · exact hnone x hx
                · exact List.mem_singleton.mp hx ▸ hlt
              | node c l' r' =>
                have hge := (htr.passed_by hnext).2 (by omega) c (by simp)
                exact .inl ⟨c, hrun, htrie.least_right hlt hnone (htr.least_root hge.le)⟩
          | true =>
            rw [hbit, Bool.toNat_true] at hnext
            have hpassed := (htl.passed_by hnext).1 (by omega)
            rw [if_neg (fun hand ↦ Bool.noConfusion hand.1)]
            obtain ⟨n, hrun, hn⟩ | ⟨hrun, hnone⟩ := ihr hr htr hnext (by omega) gtTree
            · exact .inl ⟨n, hrun, htrie.least_right hlt hpassed hn⟩
            · refine .inr ⟨hrun, fun x hx ↦ ?_⟩
              rcases List.mem_append.mp hx with hx | hx
              · exact hpassed x hx
              · rcases List.mem_cons.mp hx with rfl | hx
                · exact hlt
                · exact hnone x hx
        · -- Everything below is greater than `m`.
          have hgt : key.toNat < keyOf t m := by omega
          have hfound : key < (t.node m).key := hgt
          refine .inl ⟨m, ?_, htrie.least_root hgt.le⟩
          rw [if_pos hfound]
          cases hbit : key.toNat.testBit k with
          | false =>
            rw [hbit] at hnext
            exact findGEQFrom_found hl htl hnext hgt hml (by omega) _
          | true =>
            rw [hbit] at hnext
            exact findGEQFrom_found hr htr hnext hgt hmr (by omega) _

def AnswersGEQ (s : RadixState N) (query : BitVec 64) : Option N → Prop
  | none => ∀ n ∈ s.live, s.key n < query
  | some n => n ∈ s.live ∧ query ≤ s.key n ∧ ∀ m ∈ s.live, query ≤ s.key m → s.key n ≤ s.key m

omit [DecidableEq N] in
theorem Sound.exists_mem {s : RadixState N} {T : BinaryTree N} (h : Sound s T) {n : N}
    (hn : n ∈ s.live) : ∃ m ∈ inorder T, keyOf s.tree m = (s.key n).toNat := by
  have hmem : n ∈ dups s (s.key n) := mem_dups.mpr ⟨hn, rfl⟩
  obtain ⟨m, r, hdups⟩ := List.exists_cons_of_ne_nil (List.ne_nil_of_mem hmem)
  obtain ⟨hlive, hkey⟩ := mem_dups.mp (hdups ▸ List.mem_cons_self : m ∈ dups s (s.key n))
  exact ⟨m, h.head_mem hdups, by rw [h.keyOf_eq hlive, hkey]⟩

omit [DecidableEq N] in
theorem Sound.findGEQ {s : RadixState N} {T : BinaryTree N} (hs : Sound s T) (key : BitVec 64)
    (hkey : key.toNat < 2 ^ s.tree.keyBits.toNat) :
    ∃ r, radixTreeFindGEQ s.tree key = .ok r ∧ AnswersGEQ s key r := by
  have hroot : s.tree.root = rootOf T := hs.laid.load_eq
  rw [radixTreeFindGEQ, hroot]
  obtain ⟨n, hrun, hn⟩ | ⟨hrun, hnone⟩ :=
    findGEQFrom_none hs.laid hs.trie (Nat.div_eq_of_lt hkey) hs.bits_le none
  · have hlive := hs.live_of_mem hn.mem
    have hkeyOf := hs.keyOf_eq hlive
    have hge := hn.ge
    rw [hkeyOf] at hge
    refine ⟨some n, hrun, hlive, hge, fun m hm hqm ↦ ?_⟩
    obtain ⟨x, hx, hxm⟩ := hs.exists_mem hm
    have hle := hn.le x hx (hxm ▸ hqm)
    rwa [hkeyOf, hxm] at hle
  · refine ⟨none, hrun, fun m hm ↦ ?_⟩
    obtain ⟨x, hx, hxm⟩ := hs.exists_mem hm
    have hlt := hnone x hx
    rwa [hxm] at hlt

/-- In every state of every run the search returns the least key from the query on. -/
theorem radixTreeFindGEQ_answers {s : RadixState N} (h : RadixReachable s) (key : BitVec 64)
    (hkey : key.toNat < 2 ^ s.tree.keyBits.toNat) :
    ∃ r, radixTreeFindGEQ s.tree key = .ok r ∧ AnswersGEQ s key r := by
  obtain ⟨T, hs⟩ := h.sound
  exact hs.findGEQ key hkey

theorem radixTreeFindGEQ_answers_pair :
    ∃ r, radixTreeFindGEQ pair.tree 4 = .ok r ∧ AnswersGEQ pair 4 r :=
  radixTreeFindGEQ_answers pair_reachable 4 (by decide +kernel)

end RadixBench.Radix
