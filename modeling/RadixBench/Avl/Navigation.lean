import RadixBench.Avl.Runs
import RadixBench.Foundation.Sided

namespace RadixBench.Avl

open Foundation CUavlTree

variable {N K V : Type} {t : CUavlTree N K V} {T : BinaryTree N}

theorem outermost_eq (side : Bool) {s : Slot N} {n : N} (h : Laid (links t) s T)
    (hn : rootOf T = some n) {fuel : ℕ} (hfuel : T.height ≤ fuel + 1) :
    ∃ m, outermost t side fuel n = .ok m ∧ (inorderFrom side T).head? = some m := by
  induction T using sided_induction side generalizing s fuel n with
  | hnil => cases hn
  | hfill m near far ihn ihf =>
    obtain rfl := Option.some.inj ((rootOf_fill ⟨m, side, far⟩ near).symm.trans hn)
    obtain ⟨-, -, -, hnear⟩ := laid_fill.mp h
    have hload : (t.node m).child side = rootOf near := hnear.load_eq
    have hheight : max far.height near.height + 1 ≤ fuel + 1 :=
      (height_fill ⟨m, side, far⟩ near).symm.trans_le hfuel
    rw [inorderFrom_fill]
    cases near with
    | nil =>
      refine ⟨m, ?_, by simp⟩
      unfold outermost
      rw [hload]
      rfl
    | node x l r =>
      have hpos : 0 < (BinaryTree.node x l r).height := Nat.succ_pos _
      obtain ⟨fuel, rfl⟩ := Nat.exists_eq_succ_of_ne_zero (n := fuel) (by omega)
      obtain ⟨y, hrun, hhead⟩ : ∃ y, outermost t side fuel x = .ok y ∧
          (inorderFrom side (.node x l r)).head? = some y := ihn hnear rfl (by omega)
      refine ⟨y, ?_, by rw [List.head?_append, hhead, Option.some_or]⟩
      unfold outermost
      rw [hload]
      exact hrun

variable [DecidableEq N]

/-- Climbing from the subtree in a hole leads to the first node after the hole. -/
theorem climb_eq (side : Bool) {c : Context N} {u : BinaryTree N} {n : N}
    (h : Laid (links t) .root (plug c u)) (hnodup : (inorder (plug c u)).Nodup)
    (hn : rootOf u = some n) {fuel : ℕ} (hfuel : c.length < fuel) :
    climb t side fuel (some n) = .ok (afterFrom side c).head? := by
  induction c generalizing u n fuel with
  | nil =>
    obtain ⟨fuel, rfl⟩ := Nat.exists_eq_succ_of_ne_zero (Nat.ne_of_gt hfuel)
    have hparent : (t.node n).parent = none := (laid_iff.mp h).2.1 n hn
    rw [climb, hparent]
    cases fuel <;> rfl
  | cons f c ih =>
    obtain ⟨fuel, rfl⟩ := Nat.exists_eq_succ_of_ne_zero (Nat.ne_of_gt (Nat.zero_lt_of_lt hfuel))
    have hfill : Laid (links t) .root (plug c (f.fill u)) := h
    obtain ⟨-, -, hother, hu⟩ := laid_fill.mp (laid_plug.mp hfill).2
    have hparent : (t.node n).parent = some f.node := (laid_iff.mp hu).2.1 n hn
    have hchild : (t.node f.node).child f.side = some n := hu.load_eq.trans hn
    rw [climb, hparent, afterFrom]
    by_cases hside : f.side = side
    · rw [if_pos hside, ← hside]
      exact if_pos hchild
    · have hnot : (t.node f.node).child side ≠ some n := by
        have hload : (t.node f.node).child side = rootOf f.other := by
          rw [← hother.load_eq, Bool.eq_not.mpr hside, Bool.not_not]
          rfl
        have hapart := (nodup_plug.mp hnodup).2.2 n (rootOf_mem hn)
        rw [hload]
        exact fun heq ↦ hapart (mem_around_cons.mpr (.inr (.inl (rootOf_mem heq))))
      rw [if_neg hside, List.nil_append]
      dsimp only
      rw [if_neg hnot]
      exact ih h hnodup (rootOf_fill f u) (Nat.lt_of_succ_lt_succ hfuel)

theorem inOrderNeighbor_eq (side : Bool) (h : Laid (links t) .root T) (hnodup : (inorder T).Nodup)
    {l₁ l₂ : List N} {n : N} (hn : inorderFrom side T = l₁ ++ n :: l₂) {fuel : ℕ}
    (hfuel : (inorder T).length ≤ fuel) : inOrderNeighbor t side fuel n = .ok l₂.head? := by
  have hmem : n ∈ inorder T := by
    rw [← mem_inorderFrom side, hn]
    simp
  obtain ⟨c, l, r, rfl⟩ := exists_plug hmem
  obtain ⟨near, far, htree, -⟩ := exists_sided_fill side n l r
  rw [htree] at h hnodup hn hfuel
  clear htree
  have hl₂ : l₂ = inorderFrom side far ++ afterFrom side c := by
    obtain ⟨l', hsplit⟩ := inorderFrom_plug side c (Frame.fill ⟨n, side, far⟩ near)
    rw [inorderFrom_fill, List.append_assoc, List.append_assoc, List.cons_append,
      ← List.append_assoc] at hsplit
    have hnd : (l₁ ++ n :: l₂).Nodup := by
      rw [← hn]
      cases side
      · exact hnodup
      · exact List.nodup_reverse.mpr hnodup
    rw [List.nodup_middle, List.nodup_cons, List.mem_append, not_or] at hnd
    have heq := hn.symm.trans hsplit
    rw [List.append_cons_inj_of_notMem hnd.1.1 hnd.1.2] at heq
    exact heq.2.2
  have hlength : c.length < fuel ∧ far.height ≤ fuel + 1 := by
    have htotal := (inorder_plug_perm c (Frame.fill ⟨n, side, far⟩ near)).length_eq
    have hnode := (inorder_fill_perm ⟨n, side, far⟩ near).length_eq
    have hc := length_le_around c
    have hle := height_le_length far
    simp only [List.length_append, List.cons_append, List.length_cons] at htotal hnode
    omega
  obtain ⟨-, hself⟩ := laid_plug.mp h
  obtain ⟨-, hparent, hfar, -⟩ := laid_fill.mp hself
  have hload : (t.node n).child (!side) = rootOf far := hfar.load_eq
  have hparent : (t.node n).parent = (hole c).owner := hparent
  rw [inOrderNeighbor, hload, hl₂]
  cases far with
  | nil =>
    rw [inorderFrom_nil, List.nil_append, hparent]
    cases c with
    | nil => rfl
    | cons f c => exact climb_eq side h hnodup (rootOf_fill _ near) hlength.1
  | node x a b =>
    obtain ⟨y, hrun, hhead⟩ := outermost_eq side hfar rfl hlength.2
    rw [List.head?_append, hhead]
    dsimp only [rootOf]
    rw [hrun]
    rfl

section

variable {l₁ l₂ : List N} {n m : N} {fuel : ℕ}

theorem successor_eq (h : Laid (links t) .root T) (hnodup : (inorder T).Nodup)
    (hn : inorder T = l₁ ++ n :: l₂) (hfuel : (inorder T).length ≤ fuel) :
    cuAvlTreeNodeInOrderSuccessor t fuel n = .ok l₂.head? :=
  inOrderNeighbor_eq false h hnodup hn hfuel

theorem predecessor_eq (h : Laid (links t) .root T) (hnodup : (inorder T).Nodup)
    (hn : inorder T = l₁ ++ n :: l₂) (hfuel : (inorder T).length ≤ fuel) :
    cuAvlTreeNodeInOrderPredecessor t fuel n = .ok l₁.getLast? := by
  have hreverse : inorderFrom true T = l₂.reverse ++ n :: l₁.reverse := by
    rw [inorderFrom, hn]
    simp
  rw [← List.head?_reverse]
  exact inOrderNeighbor_eq true h hnodup hreverse hfuel

theorem successor_eq_some_iff (h : Laid (links t) .root T) (hnodup : (inorder T).Nodup)
    (hn : n ∈ inorder T) (hfuel : (inorder T).length ≤ fuel) :
    cuAvlTreeNodeInOrderSuccessor t fuel n = .ok (some m) ↔
      ∃ l₁ l₂, inorder T = l₁ ++ n :: m :: l₂ := by
  refine ⟨fun hrun ↦ ?_, fun ⟨l₁, l₂, hsplit⟩ ↦ successor_eq h hnodup hsplit hfuel⟩
  obtain ⟨l₁, l₂, hsplit⟩ := List.append_of_mem hn
  have hhead := Except.ok.inj ((successor_eq h hnodup hsplit hfuel).symm.trans hrun)
  obtain ⟨l, rfl⟩ := List.head?_eq_some_iff.mp hhead
  exact ⟨l₁, l, hsplit⟩

theorem predecessor_eq_some_iff (h : Laid (links t) .root T) (hnodup : (inorder T).Nodup)
    (hm : m ∈ inorder T) (hfuel : (inorder T).length ≤ fuel) :
    cuAvlTreeNodeInOrderPredecessor t fuel m = .ok (some n) ↔
      ∃ l₁ l₂, inorder T = l₁ ++ n :: m :: l₂ := by
  refine ⟨fun hrun ↦ ?_, fun ⟨l₁, l₂, hsplit⟩ ↦ ?_⟩
  · obtain ⟨l₁, l₂, hsplit⟩ := List.append_of_mem hm
    have hlast := Except.ok.inj ((predecessor_eq h hnodup hsplit hfuel).symm.trans hrun)
    obtain ⟨l, rfl⟩ := List.getLast?_eq_some_iff.mp hlast
    exact ⟨l, l₂, by simpa using hsplit⟩
  · have hsplit' : inorder T = (l₁ ++ [n]) ++ m :: l₂ := by simpa using hsplit
    rw [predecessor_eq h hnodup hsplit' hfuel, List.getLast?_concat]

/-- The nodes visited by taking successors, at most `steps` of them. -/
def successors (t : CUavlTree N K V) (fuel : ℕ) : ℕ → Option N → Exec (List N)
  | _, none => .ok []
  | 0, some _ => .error .outOfFuel
  | steps + 1, some node => do
    let next ← cuAvlTreeNodeInOrderSuccessor t fuel node
    let visited ← successors t fuel steps next
    .ok (node :: visited)

theorem successors_eq (h : Laid (links t) .root T) (hnodup : (inorder T).Nodup)
    (hfuel : (inorder T).length ≤ fuel) {l : List N} (hl : ∃ l₁, inorder T = l₁ ++ l) {steps : ℕ}
    (hsteps : l.length ≤ steps) : successors t fuel steps l.head? = .ok l := by
  induction l generalizing steps with
  | nil => cases steps <;> rfl
  | cons n l ih =>
    obtain ⟨l₁, hl₁⟩ := hl
    cases steps with
    | zero => cases hsteps
    | succ steps =>
      have htail := ih ⟨l₁ ++ [n], by rw [hl₁, List.append_assoc]; rfl⟩
        (Nat.le_of_succ_le_succ hsteps)
      rw [List.head?_cons, successors, successor_eq h hnodup hl₁ hfuel, ok_bind, htail, ok_bind]

theorem head?_of_least (ho : TotalOrder t.compare) {l : List N} (h : Ascending t l) (hn : n ∈ l)
    (hleast : ∀ m ∈ l, t.compare (t.node n).key (t.node m).key ≤ 0) : l.head? = some n := by
  cases l with
  | nil => cases hn
  | cons m l =>
    rcases List.mem_cons.mp hn with rfl | hn
    · rfl
    · have hlt := (ho.swap _ _).mp ((List.pairwise_cons.mp h).1 n hn)
      have hle := hleast m List.mem_cons_self
      omega

end

/-- The walks lead from each node to its neighbors in the order of the keys, and from the node
with the least key through all nodes in this order. -/
theorem cuAvlTree_navigation {s : AvlState N K V} (h : AvlReachable s) : ∃ T,
    AvlTree s.tree T ∧ (inorder T).Perm s.live ∧ (inorder T).Nodup ∧
    ∀ fuel, (inorder T).length ≤ fuel →
      (∀ l₁ n l₂, inorder T = l₁ ++ n :: l₂ →
        cuAvlTreeNodeInOrderSuccessor s.tree fuel n = .ok l₂.head? ∧
        cuAvlTreeNodeInOrderPredecessor s.tree fuel n = .ok l₁.getLast?) ∧
      (∀ n ∈ inorder T, ∀ m ∈ inorder T,
        cuAvlTreeNodeInOrderSuccessor s.tree fuel n = .ok (some m) ↔
          cuAvlTreeNodeInOrderPredecessor s.tree fuel m = .ok (some n)) ∧
      ∀ n ∈ inorder T, (∀ m ∈ inorder T,
          s.tree.compare (s.tree.node n).key (s.tree.node m).key ≤ 0) →
        successors s.tree fuel (inorder T).length (some n) = .ok (inorder T) := by
  obtain ⟨T, hs⟩ := h.sound
  have hlaid := hs.avl.laid
  have hnodup := hs.avl.nodup hs.order
  refine ⟨T, hs.avl, hs.perm, hnodup, fun fuel hfuel ↦ ⟨fun l₁ n l₂ hsplit ↦ ?_,
    fun n hn m hm ↦ ?_, fun n hn hleast ↦ ?_⟩⟩
  · exact ⟨successor_eq hlaid hnodup hsplit hfuel, predecessor_eq hlaid hnodup hsplit hfuel⟩
  · rw [successor_eq_some_iff hlaid hnodup hn hfuel, predecessor_eq_some_iff hlaid hnodup hm hfuel]
  · rw [← head?_of_least hs.order hs.avl.sorted hn hleast]
    exact successors_eq hlaid hnodup hfuel ⟨[], rfl⟩ le_rfl

theorem cuAvlTree_navigation_three : ∃ T, AvlTree three.tree T ∧
    cuAvlTreeNodeInOrderSuccessor three.tree 3 0 = .ok (some 2) ∧
    successors three.tree 3 (inorder T).length (some 0) = .ok (inorder T) := by
  obtain ⟨T, havl, hperm, -, hwalk⟩ := cuAvlTree_navigation three_reachable
  have hlive : three.live = [0, 1, 2] := by decide +kernel
  rw [hlive] at hperm
  obtain ⟨-, -, hall⟩ := hwalk 3 hperm.length_eq.le
  refine ⟨T, havl, by decide +kernel, hall 0 (hperm.mem_iff.mpr (by simp)) fun m hm ↦ ?_⟩
  have hleast : ∀ m ∈ [0, 1, 2], three.tree.compare (three.tree.node 0).key
    (three.tree.node m).key ≤ 0 := by decide +kernel
  exact hleast m (hperm.mem_iff.mp hm)

end RadixBench.Avl
