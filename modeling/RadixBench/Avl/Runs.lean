import RadixBench.Avl.Removal

namespace RadixBench.Avl

open Foundation CUavlTree

variable {N K V : Type} [DecidableEq N]

structure AvlState (N K V : Type) where
  tree : CUavlTree N K V
  live : List N

def AvlState.insert (s : AvlState N K V) (tree : CUavlTree N K V) (node : N) (existing : Bool) :
    AvlState N K V := ⟨tree, if existing then s.live else s.live ++ [node]⟩

def AvlState.remove (s : AvlState N K V) (tree : CUavlTree N K V) (node : N) : AvlState N K V :=
  ⟨tree, s.live.erase node⟩

inductive AvlOp (N K V : Type)
  | insertOrReturnExisting (node : N) (key : K) (value : V) (fuel : ℕ)
  | insert (node : N) (key : K) (value : V) (fuel : ℕ)
  | remove (node : N) (fuel : ℕ)

def avlStep (s : AvlState N K V) : AvlOp N K V → Exec (AvlState N K V)
  | .insertOrReturnExisting node key value fuel => do
    let (existing, tree) ← cuAvlTreeNodeInsertOrReturnExisting s.tree fuel node key value
    .ok (s.insert tree node (existing ≠ none))
  | .insert node key value fuel => do
    let (status, tree) ← cuAvlTreeNodeInsert s.tree fuel node key value
    .ok (s.insert tree node (status = .keyExists))
  | .remove node fuel => do
    let tree ← cuAvlTreeNodeRemove s.tree fuel node
    .ok (s.remove tree node)

/-- Nodes that are not in the tree are inserted and nodes in the tree are removed, for any
bound on the iterations of a loop that is not below the number of nodes. -/
def AvlLegal (s : AvlState N K V) : AvlOp N K V → Prop
  | .insertOrReturnExisting node _ _ fuel => node ∉ s.live ∧ s.live.length ≤ fuel
  | .insert node _ _ fuel => node ∉ s.live ∧ s.live.length ≤ fuel
  | .remove node fuel => node ∈ s.live ∧ s.live.length ≤ fuel

instance (s : AvlState N K V) (op : AvlOp N K V) : Decidable (AvlLegal s op) :=
  match op with
  | .insertOrReturnExisting node _ _ fuel =>
    inferInstanceAs (Decidable (node ∉ s.live ∧ s.live.length ≤ fuel))
  | .insert node _ _ fuel => inferInstanceAs (Decidable (node ∉ s.live ∧ s.live.length ≤ fuel))
  | .remove node fuel => inferInstanceAs (Decidable (node ∈ s.live ∧ s.live.length ≤ fuel))

def AvlInitial (s : AvlState N K V) : Prop :=
  ∃ nodes compare, TotalOrder compare ∧ s = ⟨cuAvlTreeInitialize nodes compare, []⟩

abbrev AvlReachable (s : AvlState N K V) := Reachable AvlInitial AvlLegal avlStep s

structure Sound (s : AvlState N K V) (T : BinaryTree N) : Prop where
  order : TotalOrder s.tree.compare
  avl : AvlTree s.tree T
  perm : (inorder T).Perm s.live

section

variable {s : AvlState N K V} {T : BinaryTree N}

omit [DecidableEq N] in
theorem AvlInitial.sound (h : AvlInitial s) : Sound s .nil := by
  obtain ⟨nodes, compare, ho, rfl⟩ := h
  exact ⟨ho, ⟨rfl, List.Pairwise.nil, trivial⟩, List.Perm.refl []⟩

omit [DecidableEq N] in
theorem Sound.mem_iff (h : Sound s T) (n : N) : n ∈ inorder T ↔ n ∈ s.live := h.perm.mem_iff

theorem Sound.inserts (h : Sound s T) {node : N} (hnode : node ∉ s.live) (key : K) (value : V)
    {fuel : ℕ} (hfuel : s.live.length ≤ fuel) : Inserts s.tree T node key value
      (cuAvlTreeNodeInsertOrReturnExisting s.tree fuel node key value) :=
  insertOrReturnExisting_inserts h.order h.avl ((h.mem_iff node).not.mpr hnode) key value
    (h.perm.length_eq.trans_le hfuel)

theorem Sound.removes (h : Sound s T) {node : N} (hnode : node ∈ s.live) {fuel : ℕ}
    (hfuel : s.live.length ≤ fuel) :
    Removes s.tree T node (cuAvlTreeNodeRemove s.tree fuel node) :=
  remove_removes h.order h.avl ((h.mem_iff node).mpr hnode) (h.perm.length_eq.trans_le hfuel)

theorem Sound.insert (h : Sound s T) {node : N} (hnode : node ∉ s.live) (key : K) (value : V)
    {fuel : ℕ} (hfuel : s.live.length ≤ fuel) : ∃ existing t' T',
      cuAvlTreeNodeInsertOrReturnExisting s.tree fuel node key value = .ok (existing, t') ∧
      Sound (s.insert t' node (existing ≠ none)) T' := by
  have hT := (h.mem_iff node).not.mpr hnode
  obtain ⟨x, -, -, hrun⟩ | ⟨t', T', l₁, l₂, hrun, havl, hold, hnew, -, -, hdata, -⟩ :=
    h.inserts hnode key value hfuel
  · exact ⟨some x, _, T, hrun, h.order, h.avl.setNode hT _, h.perm⟩
  · refine ⟨none, t', T', hrun, ?_, havl, ?_⟩
    · have hcompare : t'.compare = s.tree.compare := hdata.compare
      exact hcompare ▸ h.order
    · have hperm : (node :: (l₁ ++ l₂)).Perm (node :: s.live) := (hold ▸ h.perm).cons node
      rw [hnew]
      exact (List.perm_middle.trans hperm).trans (List.perm_append_singleton node s.live).symm

theorem Sound.remove (h : Sound s T) {node : N} (hnode : node ∈ s.live) {fuel : ℕ}
    (hfuel : s.live.length ≤ fuel) : ∃ t' T',
      cuAvlTreeNodeRemove s.tree fuel node = .ok t' ∧ Sound (s.remove t' node) T' := by
  obtain ⟨t', T', hrun, havl, hinorder, hdata, -⟩ := h.removes hnode hfuel
  exact ⟨t', T', hrun, hdata.compare ▸ h.order, havl, hinorder ▸ h.perm.erase node⟩

theorem cuAvlTreeNodeInsert_eq {t t' : CUavlTree N K V} {fuel : ℕ} {node : N} {key : K}
    {value : V} {existing : Option N}
    (h : cuAvlTreeNodeInsertOrReturnExisting t fuel node key value = .ok (existing, t')) :
    cuAvlTreeNodeInsert t fuel node key value =
      .ok (if existing ≠ none then .keyExists else .success, t') := by
  rw [cuAvlTreeNodeInsert, h, ok_bind]

theorem avlStep_sound (h : Sound s T) (op : AvlOp N K V) (hl : AvlLegal s op) :
    ∃ s', avlStep s op = .ok s' ∧ ∃ T', Sound s' T' := by
  cases op with
  | insertOrReturnExisting node key value fuel =>
    obtain ⟨existing, t', T', hrun, hs'⟩ := h.insert hl.1 key value hl.2
    exact ⟨_, by rw [avlStep, hrun, ok_bind], T', hs'⟩
  | insert node key value fuel =>
    obtain ⟨existing, t', T', hrun, hs'⟩ := h.insert hl.1 key value hl.2
    refine ⟨_, by rw [avlStep, cuAvlTreeNodeInsert_eq hrun, ok_bind], T', ?_⟩
    cases existing <;> exact hs'
  | remove node fuel =>
    obtain ⟨t', T', hrun, hs'⟩ := h.remove hl.1 hl.2
    exact ⟨_, by rw [avlStep, hrun, ok_bind], T', hs'⟩

theorem AvlReachable.sound (h : AvlReachable s) : ∃ T, Sound s T :=
  Reachable.invariant_of_returns (I := fun s ↦ ∃ T, Sound s T)
    (fun _ hinit ↦ ⟨.nil, hinit.sound⟩) (fun _ op ⟨_, hs⟩ hl ↦ avlStep_sound hs op hl) h

/-- In every run no call fails, and the nodes in memory form an AVL tree. -/
theorem cuAvlTree_avl (h : AvlReachable s) :
    (∃ T, AvlTree s.tree T ∧ (inorder T).Perm s.live) ∧
      ∀ op, AvlLegal s op → ∃ s', avlStep s op = .ok s' := by
  obtain ⟨T, hs⟩ := h.sound
  refine ⟨⟨T, hs.avl, hs.perm⟩, fun op hl ↦ ?_⟩
  obtain ⟨s', hstep, -⟩ := avlStep_sound hs op hl
  exact ⟨s', hstep⟩

/-- An insertion finds a node with an equal key and changes nothing but the node that was to be
inserted, or it puts the node between those with smaller and those with greater keys. A removal
takes the node out. Neither changes a key or a value of the other nodes. -/
theorem cuAvlTree_contents (h : AvlReachable s) : ∃ T, AvlTree s.tree T ∧
    (inorder T).Perm s.live ∧
    (∀ node key value fuel, node ∉ inorder T → (inorder T).length ≤ fuel →
      (∃ x ∈ inorder T, s.tree.compare key (s.tree.node x).key = 0 ∧ ∃ t',
        cuAvlTreeNodeInsertOrReturnExisting s.tree fuel node key value = .ok (some x, t') ∧
        cuAvlTreeNodeInsert s.tree fuel node key value = .ok (.keyExists, t') ∧
        t'.compare = s.tree.compare ∧ t'.root = s.tree.root ∧
        ∀ n, n ≠ node → t'.node n = s.tree.node n) ∨
      (∀ x ∈ inorder T, s.tree.compare key (s.tree.node x).key ≠ 0) ∧ ∃ t' T' l₁ l₂,
        cuAvlTreeNodeInsertOrReturnExisting s.tree fuel node key value = .ok (none, t') ∧
        cuAvlTreeNodeInsert s.tree fuel node key value = .ok (.success, t') ∧
        AvlTree t' T' ∧ inorder T = l₁ ++ l₂ ∧ inorder T' = l₁ ++ node :: l₂ ∧
        SameData (s.tree.setNode node (newNode key value)) t') ∧
    ∀ node fuel, node ∈ inorder T → (inorder T).length ≤ fuel → ∃ t' T',
      cuAvlTreeNodeRemove s.tree fuel node = .ok t' ∧ AvlTree t' T' ∧
      inorder T' = (inorder T).erase node ∧ SameData s.tree t' := by
  obtain ⟨T, hs⟩ := h.sound
  refine ⟨T, hs.avl, hs.perm, fun node key value fuel hnode hfuel ↦ ?_,
    fun node fuel hnode hfuel ↦ ?_⟩
  · obtain ⟨x, hx, heq, hrun⟩ | ⟨t', T', l₁, l₂, hrun, havl, hold, hnew, hbelow, habove, hdata, -⟩ :=
      insertOrReturnExisting_inserts hs.order hs.avl hnode key value hfuel
    · exact .inl ⟨x, hx, heq, _, hrun, cuAvlTreeNodeInsert_eq hrun, rfl, rfl, fun n hn ↦
        s.tree.node_setNode_of_ne _ hn⟩
    · refine .inr ⟨fun x hx ↦ ?_, t', T', l₁, l₂, hrun, cuAvlTreeNodeInsert_eq hrun, havl, hold,
        hnew, hdata⟩
      rw [hold] at hx
      rcases List.mem_append.mp hx with hx | hx
      · exact (hbelow x hx).ne'
      · exact (habove x hx).ne
  · obtain ⟨t', T', hrun, havl, hinorder, hdata, -⟩ :=
      remove_removes hs.order hs.avl hnode hfuel
    exact ⟨t', T', hrun, havl, hinorder, hdata⟩

end

def after (s : AvlState N K V) (op : AvlOp N K V) : AvlState N K V :=
  (avlStep s op).toOption.getD s

theorem AvlReachable.after {s : AvlState N K V} (h : AvlReachable s) (op : AvlOp N K V)
    (hl : AvlLegal s op) : AvlReachable (after s op) := by
  obtain ⟨T, hs⟩ := h.sound
  obtain ⟨s', hstep, -⟩ := avlStep_sound hs op hl
  have heq : Avl.after s op = s' := by
    rw [Avl.after, hstep]
    rfl
  exact heq ▸ .step h hl hstep

theorem totalOrder_sub : TotalOrder fun a b : ℤ ↦ a - b :=
  ⟨fun a b ↦ by omega, fun a b c hab hbc ↦ by omega⟩

def empty : AvlState ℕ ℤ ℕ :=
  ⟨cuAvlTreeInitialize (fun _ ↦ newNode 0 0) fun a b ↦ a - b, []⟩

theorem empty_reachable : AvlReachable empty := .init ⟨_, _, totalOrder_sub, rfl⟩

/-- The second insertion finds the key of the first one. -/
def three : AvlState ℕ ℤ ℕ :=
  after (after (after (after empty (.insert 0 5 0 9)) (.insertOrReturnExisting 3 5 1 9))
    (.insert 1 7 0 9)) (.insert 2 6 0 9)

theorem three_reachable : AvlReachable three :=
  (((empty_reachable.after (.insert 0 5 0 9) (by decide +kernel)).after
    (.insertOrReturnExisting 3 5 1 9) (by decide +kernel)).after (.insert 1 7 0 9)
    (by decide +kernel)).after (.insert 2 6 0 9) (by decide +kernel)

theorem cuAvlTree_avl_three : ∃ T, AvlTree three.tree T ∧ (inorder T).Perm three.live :=
  (cuAvlTree_avl three_reachable).1

theorem cuAvlTree_contents_three : ∃ T, AvlTree three.tree T ∧ (inorder T).Perm [0, 1, 2] ∧
    (∃ t', cuAvlTreeNodeInsertOrReturnExisting three.tree 3 4 6 0 = .ok (some 2, t') ∧
      cuAvlTreeNodeInsert three.tree 3 4 6 0 = .ok (.keyExists, t') ∧
      t'.root = three.tree.root ∧ ∀ n, n ≠ 4 → t'.node n = three.tree.node n) ∧
    (∃ t' T' l₁ l₂, cuAvlTreeNodeInsertOrReturnExisting three.tree 3 4 8 0 = .ok (none, t') ∧
      cuAvlTreeNodeInsert three.tree 3 4 8 0 = .ok (.success, t') ∧ AvlTree t' T' ∧
      inorder T = l₁ ++ l₂ ∧ inorder T' = l₁ ++ 4 :: l₂ ∧
      SameData (three.tree.setNode 4 (newNode 8 0)) t') ∧
    ∃ t' T', cuAvlTreeNodeRemove three.tree 3 2 = .ok t' ∧ AvlTree t' T' ∧
      inorder T' = (inorder T).erase 2 ∧ SameData three.tree t' := by
  obtain ⟨T, havl, hperm, hinsert, hremove⟩ := cuAvlTree_contents three_reachable
  rw [show three.live = [0, 1, 2] by decide +kernel] at hperm
  have hmem : ∀ x, x ∈ inorder T ↔ x ∈ [0, 1, 2] := fun x ↦ hperm.mem_iff
  have hfuel : (inorder T).length ≤ 3 := hperm.length_eq.le
  have hnew : 4 ∉ inorder T := (hmem 4).not.mpr (by decide)
  have hsix : ∀ x ∈ [0, 1, 2], three.tree.compare 6 (three.tree.node x).key = 0 ↔ x = 2 := by
    decide +kernel
  have height : ∀ x ∈ [0, 1, 2], three.tree.compare 8 (three.tree.node x).key ≠ 0 := by
    decide +kernel
  refine ⟨T, havl, hperm, ?_, ?_, hremove 2 3 ((hmem 2).mpr (by decide)) hfuel⟩
  · rcases hinsert 4 6 0 3 hnew hfuel with
      ⟨x, hx, hzero, t', hrun, hrun', -, hroot, hsame⟩ | ⟨hne, -⟩
    · obtain rfl := (hsix x ((hmem x).mp hx)).mp hzero
      exact ⟨t', hrun, hrun', hroot, hsame⟩
    · exact absurd ((hsix 2 (by decide)).mpr rfl) (hne 2 ((hmem 2).mpr (by decide)))
  · rcases hinsert 4 8 0 3 hnew hfuel with ⟨x, hx, hzero, -⟩ | ⟨-, hinserted⟩
    · exact absurd hzero (height x ((hmem x).mp hx))
    · exact hinserted

end RadixBench.Avl
