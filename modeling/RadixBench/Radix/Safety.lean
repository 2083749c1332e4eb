import RadixBench.Radix.Query

namespace RadixBench.Radix

open Foundation CUradixTree

variable {N : Type} [DecidableEq N] {s : RadixState N} {T : BinaryTree N}

/-- In every run no assertion fails in an insertion or a removal, and a query with at most
`keyBits` bits never runs out of bits. -/
theorem radixTree_safe (h : RadixReachable s) :
    (∀ node key, node ∉ s.live → key.toNat < 2 ^ s.tree.keyBits.toNat →
      ∃ t', radixTreeInsert s.tree node key = .ok t') ∧
    (∀ node fuel, node ∈ s.live → s.tree.keyBits.toNat < fuel →
      ∃ t', radixTreeRemove fuel s.tree node = .ok t') ∧
    ∀ query, query.toNat < 2 ^ s.tree.keyBits.toNat → ∃ r, radixTreeFindGEQ s.tree query = .ok r := by
  obtain ⟨T, hs⟩ := h.sound
  refine ⟨fun node key hnode hkey ↦ ?_, fun node fuel hnode hfuel ↦ ?_, fun query hquery ↦ ?_⟩
  · obtain ⟨t', T', hrun, -⟩ := radixTreeInsert_sound hs hnode hkey
    exact ⟨t', hrun⟩
  · obtain ⟨t', T', hrun, -⟩ := radixTreeRemove_sound hs hnode hfuel
    exact ⟨t', hrun⟩
  · obtain ⟨r, hrun, -⟩ := hs.findGEQ query hquery
    exact ⟨r, hrun⟩

theorem radixTree_safe_pair : (∃ t', radixTreeInsert pair.tree 7 6 = .ok t') ∧
    (∃ t', radixTreeRemove 9 pair.tree 0 = .ok t') ∧ ∃ r, radixTreeFindGEQ pair.tree 7 = .ok r :=
  have hsafe := radixTree_safe pair_reachable
  ⟨hsafe.1 7 6 (by decide +kernel) (by decide +kernel),
    hsafe.2.1 0 9 (by decide +kernel) (by decide +kernel), hsafe.2.2 7 (by decide +kernel)⟩

/-- The turns that `radixTreeFindGEQ` takes below a node where `k` bits of the query are left. -/
def queryPath (query : BitVec 64) : ℕ → List Bool
  | 0 => []
  | k + 1 => query.getLsbD k :: queryPath query k

/-- No node is reached after the last turn of a path, and there is no right child wherever the
path turns left. -/
def RunsOut (node : List Bool → Option N) (path : List Bool) : Prop :=
  node path = none ∧ ∀ p q, path = p ++ false :: q → node (p ++ [true]) = none

omit [DecidableEq N] in
theorem nodeOn_nil (p : List Bool) : nodeOn (.nil : BinaryTree N) p = none := by
  cases p <;> rfl

omit [DecidableEq N] in
theorem runsOut_nil (p : List Bool) : RunsOut (nodeOn (.nil : BinaryTree N)) p :=
  ⟨nodeOn_nil p, fun _ _ _ ↦ nodeOn_nil _⟩

omit [DecidableEq N] in
theorem runsOut_node (n : N) (l r : BinaryTree N) (b : Bool) (p : List Bool) :
    RunsOut (nodeOn (.node n l r)) (b :: p) ↔
      (b = false → rootOf r = none) ∧ RunsOut (nodeOn (bif b then r else l)) p := by
  constructor
  · rintro ⟨hend, hpassed⟩
    refine ⟨?_, hend, fun p' q hp ↦ ?_⟩
    · rintro rfl
      have hright := hpassed [] p rfl
      rwa [List.nil_append, nodeOn, cond_true, nodeOn] at hright
    · exact hpassed (b :: p') q (by rw [hp, List.cons_append])
  · rintro ⟨hright, hend, hpassed⟩
    refine ⟨hend, fun p' q hp ↦ ?_⟩
    cases p' with
    | nil =>
      obtain ⟨rfl, -⟩ := List.cons.inj hp
      rw [List.nil_append, nodeOn, cond_true, nodeOn]
      exact hright rfl
    | cons b' p' =>
      obtain ⟨rfl, rfl⟩ := List.cons.inj hp
      exact hpassed p' q rfl

omit [DecidableEq N] in
/-- A query that is greater than all keys of a subtree only remembers the right subtrees that it
passes by. -/
theorem findGEQFrom_above {t : CUradixTree N} {key : BitVec 64} {k : ℕ} {a : Slot N}
    (h : Laid (links t) a T) (habove : ∀ x ∈ inorder T, (t.node x).key < key) (hk : k ≤ 64)
    (gtTree : Option N) : findGEQFrom t key k (rootOf T) none gtTree = .ok none ↔
      gtTree = none ∧ RunsOut (nodeOn T) (queryPath key k) := by
  induction T generalizing k a gtTree with
  | nil =>
    rw [rootOf_nil, findGEQFrom_nil, if_pos rfl, Except.ok.injEq]
    exact (and_iff_left (runsOut_nil _)).symm
  | node m l r ihl ihr =>
    obtain ⟨-, -, hl, hr⟩ := id h
    have hlt : (t.node m).key < key := habove m (by simp)
    have hl' := fun k hk ↦ ihl (k := k) hl (fun x hx ↦ habove x (by simp [hx])) hk
    have hr' := fun k hk ↦ ihr (k := k) hr (fun x hx ↦ habove x (by simp [hx])) hk
    rw [rootOf_node]
    cases k with
    | zero =>
      rw [findGEQFrom.eq_def]
      dsimp only
      rw [if_neg (BitVec.ne_of_lt hlt)]
      simp [RunsOut, queryPath, nodeOn]
    | succ k =>
      rw [findGEQFrom_step h (BitVec.ne_of_lt hlt) (by omega), if_neg (BitVec.lt_asymm hlt),
        BitVec.testBit_toNat, queryPath, runsOut_node]
      cases hbit : key.getLsbD k with
      | true =>
        rw [cond_true, if_neg fun hand ↦ Bool.noConfusion hand.1, hr' k (by omega)]
        simp
      | false =>
        rw [cond_false, hl' k (by omega)]
        cases hroot : rootOf r <;> simp

/-- A query with more bits than the keys is greater than all of them. It is answered with `NULL`
exactly when it runs out of nodes before it runs out of bits and has passed by no right subtree. -/
theorem radixTreeFindGEQ_overWide (h : RadixReachable s) (query : BitVec 64)
    (hquery : 2 ^ s.tree.keyBits.toNat ≤ query.toNat) :
    radixTreeFindGEQ s.tree query = .ok none ↔
      RunsOut (nodeAt s.tree) (queryPath query s.tree.keyBits.toNat) := by
  obtain ⟨T, hs⟩ := h.sound
  have hroot : s.tree.root = rootOf T := hs.laid.load_eq
  have hnode : nodeAt s.tree = nodeOn T := funext hs.laid.nodeOn
  have habove : ∀ x ∈ inorder T, (s.tree.node x).key < query := fun x hx ↦ by
    have hlive := hs.live_of_mem hx
    rw [hs.key_eq x hlive]
    exact (hs.bound x hlive).trans_le hquery
  rw [radixTreeFindGEQ, hroot, hnode, findGEQFrom_above hs.laid habove hs.bits_le,
    and_iff_right rfl]

theorem radixTreeFindGEQ_overWide_pair : radixTreeFindGEQ pair.tree 8 = .ok none ↔
    RunsOut (nodeAt pair.tree) (queryPath 8 3) :=
  radixTreeFindGEQ_overWide pair_reachable 8 (by decide +kernel)

def narrow : RadixState ℕ :=
  ⟨⟨none, 1, fun _ ↦ ⟨none, none, fun _ ↦ none, none, none, 0⟩⟩, [], fun _ ↦ 0⟩

theorem narrow_reachable : RadixReachable narrow := .init ⟨_, 1, by decide, rfl, rfl⟩

def narrowFull : RadixState ℕ := after (after narrow (.insert 0 0)) (.insert 1 1)

theorem narrowFull_reachable : RadixReachable narrowFull :=
  (narrow_reachable.after (.insert 0 0) (by decide +kernel)).after (.insert 1 1)
    (by decide +kernel)

/-- A query for 2 is answered with a smaller key, and a query for 3 runs out of bits. -/
theorem radixTreeFindGEQ_narrow : RadixReachable narrowFull ∧ narrowFull.tree.keyBits = 1 ∧
    (∀ n ∈ narrowFull.live, narrowFull.key n < 2) ∧
    radixTreeFindGEQ narrowFull.tree 2 = .ok (some 1) ∧
    radixTreeFindGEQ narrowFull.tree 3 = .error .shiftOutOfRange :=
  ⟨narrowFull_reachable, by decide +kernel, by decide +kernel, by decide +kernel,
    by decide +kernel⟩

end RadixBench.Radix
