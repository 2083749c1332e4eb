import RadixBench.Avl.Rebalancing

namespace RadixBench.Avl

open Foundation CUavlTree

variable {N K V : Type} [DecidableEq N] {t t' : CUavlTree N K V} {c : Context N}
  {T : BinaryTree N}

/-- A comparator that says which of two keys is the greater one. -/
structure TotalOrder (compare : K → K → ℤ) : Prop where
  swap : ∀ a b, compare a b < 0 ↔ 0 < compare b a
  trans : ∀ a b c, compare a b ≤ 0 → compare b c ≤ 0 → compare a c ≤ 0

theorem TotalOrder.self {compare : K → K → ℤ} (h : TotalOrder compare) (a : K) :
    compare a a = 0 := by
  have hswap := h.swap a a
  omega

theorem TotalOrder.lt_trans {compare : K → K → ℤ} (h : TotalOrder compare) {a b c : K}
    (hab : compare a b < 0) (hbc : compare b c < 0) : compare a c < 0 := by
  by_contra hac
  have hca : compare c a ≤ 0 := by
    have hswap := h.swap a c
    omega
  have hba := h.trans b c a hbc.le hca
  have hswap := h.swap a b
  omega

def Ascending (t : CUavlTree N K V) (l : List N) : Prop :=
  l.Pairwise fun a b ↦ t.compare (t.node a).key (t.node b).key < 0

omit [DecidableEq N] in
theorem Ascending.congr {l : List N} (h : Ascending t l) (hcompare : t'.compare = t.compare)
    (hkey : ∀ n ∈ l, (t'.node n).key = (t.node n).key) : Ascending t' l := by
  refine List.Pairwise.imp_of_mem (fun {a b} ha hb hab ↦ ?_) h
  rw [hcompare, hkey a ha, hkey b hb]
  exact hab

omit [DecidableEq N] in
theorem Ascending.insert {l₁ l₂ : List N} {n : N} (h : Ascending t (l₁ ++ l₂))
    (h₁ : ∀ x ∈ l₁, t.compare (t.node x).key (t.node n).key < 0)
    (h₂ : ∀ x ∈ l₂, t.compare (t.node n).key (t.node x).key < 0) :
    Ascending t (l₁ ++ n :: l₂) := by
  obtain ⟨hl₁, hl₂, hlt⟩ := List.pairwise_append.mp h
  refine List.pairwise_append.mpr ⟨hl₁, List.pairwise_cons.mpr ⟨h₂, hl₂⟩, fun a ha b hb ↦ ?_⟩
  rcases List.mem_cons.mp hb with rfl | hb
  · exact h₁ a ha
  · exact hlt a ha b hb

/-- `T` is the tree in memory: its links, the order of its keys and the heights of its nodes. -/
structure AvlTree (t : CUavlTree N K V) (T : BinaryTree N) : Prop where
  laid : Laid (links t) .root T
  sorted : Ascending t (inorder T)
  balanced : Balanced (heightOf t) T

omit [DecidableEq N] in
theorem AvlTree.nodup (h : AvlTree t T) (ho : TotalOrder t.compare) : (inorder T).Nodup := by
  refine List.Pairwise.imp (fun {a b} hab heq ↦ ?_) h.sorted
  rw [heq, ho.self] at hab
  exact lt_irrefl 0 hab

theorem laid_setNode {s : Slot N} (h : Laid (links t) s T) {n : N} (hn : n ∉ inorder T)
    (hs : s.owner ≠ some n) (x : CUavlTreeNode N K V) : Laid (links (t.setNode n x)) s T := by
  have hnode : ∀ m ∈ inorder T, (t.setNode n x).node m = t.node m := fun m hm ↦
    t.node_setNode_of_ne x (ne_of_mem_of_not_mem hm hn)
  refine h.frame ?_ (fun m hm i ↦ ?_) fun m hm a hma ↦ ?_
  · cases s with
    | root => rfl
    | child m i =>
      have hm : m ≠ n := fun heq ↦ hs (congrArg some heq)
      exact congrFun (congrArg CUavlTreeNode.child (t.node_setNode_of_ne x hm)) i
  · exact congrFun (congrArg CUavlTreeNode.child (hnode m hm)) i
  · exact (congrArg CUavlTreeNode.parent (hnode m hm)).trans hma

theorem AvlTree.setNode (h : AvlTree t T) {n : N} (hn : n ∉ inorder T)
    (x : CUavlTreeNode N K V) : AvlTree (t.setNode n x) T := by
  have hnode : ∀ m ∈ inorder T, (t.setNode n x).node m = t.node m := fun m hm ↦
    t.node_setNode_of_ne x (ne_of_mem_of_not_mem hm hn)
  exact ⟨laid_setNode h.laid hn (Option.some_ne_none n).symm x,
    h.sorted.congr rfl fun m hm ↦ congrArg CUavlTreeNode.key (hnode m hm),
    h.balanced.congr fun m hm ↦ congrArg CUavlTreeNode.height (hnode m hm)⟩

/-- Where the search for `key` in the subtree `u`, which hangs in the slot `s`, ends: at a node
with an equal key, or at the empty place for the key. -/
def EndsAt (t : CUavlTree N K V) (key : K) (u : BinaryTree N) (r : Exec (Place N)) : Prop :=
  (∃ x ∈ inorder u, t.compare key (t.node x).key = 0 ∧ r = .ok (.existing x)) ∨
    ∃ c, c ≠ [] ∧ u = plug c .nil ∧ r = .ok (.below (hole c).owner (hole c)) ∧
      (∀ x ∈ before c, 0 < t.compare key (t.node x).key) ∧
      ∀ x ∈ after c, t.compare key (t.node x).key < 0

def continueAt (t : CUavlTree N K V) (key : K) (fuel : ℕ) (m : N) (side : Bool) :
    Exec (Place N) :=
  match t.load (.child m side) with
  | none => .ok (.below (some m) (.child m side))
  | some child => findPlace t key fuel (some child) (.child m side)

omit [DecidableEq N] in
theorem findPlace_of_ne {key : K} {m : N} (h : t.compare key (t.node m).key ≠ 0) (fuel : ℕ)
    (s : Slot N) : findPlace t key (fuel + 1) (some m) s =
      continueAt t key fuel m (decide (0 < t.compare key (t.node m).key)) := by
  rw [findPlace, if_neg h, cuAvlTreeNodeGetChildLinkPointer, check_of h, ok_bind, ok_bind]
  by_cases hlt : t.compare key (t.node m).key < 0
  · rw [if_pos hlt, decide_eq_false (by omega)]
    rfl
  · rw [if_neg hlt, decide_eq_true (by omega)]
    rfl

omit [DecidableEq N] in
theorem continueAt_endsAt (other : BinaryTree N) {key : K} {fuel : ℕ} {m : N} {side : Bool}
    {u : BinaryTree N}
    (h : Laid (links t) (.child m side) u)
    (hu : u ≠ .nil → EndsAt t key u (findPlace t key fuel (rootOf u) (.child m side)))
    (hbefore : ∀ x ∈ before [⟨m, side, other⟩], 0 < t.compare key (t.node x).key)
    (hafter : ∀ x ∈ after [⟨m, side, other⟩], t.compare key (t.node x).key < 0) :
    EndsAt t key (Frame.fill ⟨m, side, other⟩ u) (continueAt t key fuel m side) := by
  have hload : t.load (.child m side) = rootOf u := h.load_eq
  rw [continueAt, hload]
  cases u with
  | nil => exact .inr ⟨[⟨m, side, other⟩], List.cons_ne_nil _ _, rfl, rfl, hbefore, hafter⟩
  | node y a b =>
    obtain ⟨x, hx, heq, hrun⟩ | ⟨c, hc, htree, hrun, hbefore', hafter'⟩ := hu (by simp)
    · exact .inl ⟨x, mem_fill.mpr (.inr (.inr hx)), heq, hrun⟩
    · refine .inr ⟨c ++ [⟨m, side, other⟩], by simp, ?_, ?_, fun x hx ↦ ?_, fun x hx ↦ ?_⟩
      · rw [plug_concat, htree]
      · rw [hole_append hc]
        exact hrun
      · rw [before_concat] at hx
        exact (List.mem_append.mp hx).elim (hbefore x) (hbefore' x)
      · rw [after_concat] at hx
        refine (List.mem_append.mp hx).elim (hafter' x) fun hx ↦ hafter x ?_
        rw [after, after, List.append_nil]
        exact hx

omit [DecidableEq N] in
theorem findPlace_endsAt (ho : TotalOrder t.compare) (key : K) {s : Slot N} {u : BinaryTree N}
    {fuel : ℕ} (h : Laid (links t) s u)
    (hsorted : Ascending t (inorder u))
    (hu : u ≠ .nil) (hfuel : u.height ≤ fuel) :
    EndsAt t key u (findPlace t key fuel (rootOf u) s) := by
  induction u generalizing s fuel with
  | nil => exact absurd rfl hu
  | node m l r ihl ihr =>
    obtain ⟨fuel, rfl⟩ := Nat.exists_eq_succ_of_ne_zero (Nat.ne_of_gt (Nat.zero_lt_of_lt hfuel))
    obtain ⟨-, -, hl, hr⟩ := h
    rw [Ascending, inorder_node, List.pairwise_append, List.pairwise_cons] at hsorted
    obtain ⟨hsl, ⟨hmr, hsr⟩, hlm⟩ := hsorted
    have hheight : max l.height r.height ≤ fuel := Nat.le_of_succ_le_succ hfuel
    rw [rootOf_node]
    by_cases heq : t.compare key (t.node m).key = 0
    · refine .inl ⟨m, by simp, heq, ?_⟩
      rw [findPlace]
      exact if_pos heq
    · rw [findPlace_of_ne heq]
      by_cases hlt : t.compare key (t.node m).key < 0
      · rw [decide_eq_false (by omega)]
        refine continueAt_endsAt r hl (fun hne ↦ ihl hl hsl hne (by omega)) ?_ ?_
        · simp [before]
        · simp only [after, cond_false, List.append_nil, List.mem_cons, forall_eq_or_imp]
          exact ⟨hlt, fun x hx ↦ ho.lt_trans hlt (hmr x hx)⟩
      · rw [decide_eq_true (by omega)]
        have hgt : t.compare (t.node m).key key < 0 := (ho.swap _ _).mpr (by omega)
        refine continueAt_endsAt l hr (fun hne ↦ ihr hr hsr hne (by omega)) ?_ ?_
        · intro x hx
          rw [before, before, List.nil_append, cond_true, List.mem_append, List.mem_singleton] at hx
          refine (ho.swap _ _).mp ?_
          rcases hx with hx | rfl
          · exact ho.lt_trans (hlm x hx m List.mem_cons_self) hgt
          · exact hgt
        · simp [after]

theorem link_laid (h : Laid (links t) .root (plug c .nil))
    (hnodup : (inorder (plug c .nil)).Nodup) {n : N} (hn : n ∉ around c)
    (hchild : ∀ i, (t.node n).child i = none) :
    Laid (links ((t.store (hole c) (some n)).setParent n (hole c).owner)) .root
      (plug c (.node n .nil .nil)) := by
  set t' := (t.store (hole c) (some n)).setParent n (hole c).owner with ht'
  have hload : ∀ s, (links t').load s = if s = hole c then some n else t.load s := fun s ↦
    ((t.store (hole c) (some n)).load_setParent n _ s).trans (t.load_store (hole c) s _)
  have hparent : ∀ m, (t'.node m).parent = if m = n then (hole c).owner else (t.node m).parent := by
    intro m
    rw [ht', parent_setParent, parent_store]
  have hempty : ∀ i, (links t').load (.child n i) = none := fun i ↦
    (hload _).trans ((if_neg (child_ne_hole hn)).trans (hchild i))
  refine h.plug hnodup (fun s hs _ ↦ (hload s).trans (if_neg hs)) (fun m hm s hms ↦ ?_)
    ⟨(hload _).trans (if_pos rfl), (hparent n).trans (if_pos rfl), hempty false, hempty true⟩
  exact (hparent m).trans ((if_neg (ne_of_mem_of_not_mem hm hn)).trans hms)

def Inserts (t : CUavlTree N K V) (T : BinaryTree N) (node : N) (key : K) (value : V)
    (r : Exec (Option N × CUavlTree N K V)) : Prop :=
  (∃ x ∈ inorder T, t.compare key (t.node x).key = 0 ∧
    r = .ok (some x, t.setNode node (newNode key value))) ∨
  ∃ t' T' l₁ l₂, r = .ok (none, t') ∧ AvlTree t' T' ∧ inorder T = l₁ ++ l₂ ∧
    inorder T' = l₁ ++ node :: l₂ ∧ (∀ x ∈ l₁, 0 < t.compare key (t.node x).key) ∧
    (∀ x ∈ l₂, t.compare key (t.node x).key < 0) ∧
    SameData (t.setNode node (newNode key value)) t' ∧
    ∀ n, n ∉ inorder T' → t'.node n = t.node n

theorem findPlace_setNode (ho : TotalOrder t.compare) (h : AvlTree t T) {node : N}
    (hnode : node ∉ inorder T) (key : K) (value : V) {fuel : ℕ}
    (hfuel : (inorder T).length ≤ fuel) :
    (∃ x ∈ inorder T, t.compare key (t.node x).key = 0 ∧
      findPlace (t.setNode node (newNode key value)) key fuel t.root .root = .ok (.existing x)) ∨
    ∃ c, T = plug c .nil ∧
      findPlace (t.setNode node (newNode key value)) key fuel t.root .root =
        .ok (.below (hole c).owner (hole c)) ∧
      (∀ x ∈ before c, 0 < t.compare key (t.node x).key) ∧
      ∀ x ∈ after c, t.compare key (t.node x).key < 0 := by
  set t₀ := t.setNode node (newNode key value) with ht₀
  have h₀ : AvlTree t₀ T := h.setNode hnode _
  have hkey : ∀ x ∈ inorder T, (t₀.node x).key = (t.node x).key := fun x hx ↦
    congrArg CUavlTreeNode.key (t.node_setNode_of_ne _ (ne_of_mem_of_not_mem hx hnode))
  have hroot : t.root = rootOf T := h.laid.load_eq
  rw [hroot]
  by_cases hT : T = .nil
  · subst hT
    refine .inr ⟨[], rfl, ?_, by simp [before], by simp [after]⟩
    cases fuel <;> rfl
  · obtain ⟨x, hx, heq, hrun⟩ | ⟨c, -, rfl, hrun, hbefore, hafter⟩ :=
      findPlace_endsAt (t := t₀) ho key h₀.laid h₀.sorted hT ((height_le_length T).trans hfuel)
    · exact .inl ⟨x, hx, hkey x hx ▸ heq, hrun⟩
    · rw [inorder_plug, inorder_nil, List.append_nil] at hkey
      exact .inr ⟨c, rfl, hrun,
        fun x hx ↦ hkey x (List.mem_append_left _ hx) ▸ hbefore x hx,
        fun x hx ↦ hkey x (List.mem_append_right _ hx) ▸ hafter x hx⟩

/-- The tree that the rebalancing of an insertion begins with. -/
theorem link_pending (ho : TotalOrder t.compare) (h : AvlTree t (plug c .nil)) {node : N}
    (hnode : node ∉ inorder (plug c .nil)) (key : K) (value : V) :
    Pending false (((t.setNode node (newNode key value)).store (hole c) (some node)).setParent node
      (hole c).owner) c (.node node .nil .nil) 0 := by
  set t₀ := t.setNode node (newNode key value) with ht₀
  have h₀ : AvlTree t₀ (plug c .nil) := h.setNode hnode _
  have hself : t₀.node node = newNode key value := t.node_setNode_self node _
  have hnodup := h₀.nodup ho
  have hnc : node ∉ around c := fun hmem ↦ hnode (mem_plug.mpr (.inr hmem))
  have hheight : heightOf ((t₀.store (hole c) (some node)).setParent node (hole c).owner) =
      heightOf t₀ := funext fun m ↦ by rw [heightOf, height_setParent, height_store, heightOf]
  have hleaf : heightOf t₀ node = (BinaryTree.node node .nil .nil).height := by
    rw [heightOf, hself]
    rfl
  refine ⟨link_laid h₀.laid hnodup hnc fun i ↦ by rw [hself, newNode], ?_, ?_, ?_,
    .inr ⟨rfl, .inl rfl⟩⟩
  · exact nodup_plug.mpr ⟨by simp, (nodup_plug.mp hnodup).2.1, by simpa using hnc⟩
  · rw [hheight]
    exact ⟨hleaf, Nat.zero_le _, Nat.zero_le _, trivial, trivial⟩
  · rw [hheight]
    exact h₀.balanced.plug.2

theorem insertOrReturnExisting_inserts (ho : TotalOrder t.compare) (h : AvlTree t T) {node : N}
    (hnode : node ∉ inorder T) (key : K) (value : V) {fuel : ℕ}
    (hfuel : (inorder T).length ≤ fuel) :
    Inserts t T node key value (cuAvlTreeNodeInsertOrReturnExisting t fuel node key value) := by
  rw [cuAvlTreeNodeInsertOrReturnExisting]
  dsimp only
  have hroot : (t.setNode node (newNode key value)).root = t.root := rfl
  rw [hroot]
  obtain ⟨x, hx, heq, hrun⟩ | ⟨c, rfl, hrun, hbefore, hafter⟩ :=
    findPlace_setNode ho h hnode key value hfuel
  · refine .inl ⟨x, hx, heq, ?_⟩
    rw [hrun, ok_bind]
  · rw [hrun, ok_bind]
    dsimp only
    have hpending := link_pending ho h hnode key value
    set t₀ := t.setNode node (newNode key value) with ht₀
    set t₁ := (t₀.store (hole c) (some node)).setParent node (hole c).owner with ht₁
    have hlength : c.length ≤ fuel := by
      rw [(inorder_plug_perm c .nil).length_eq, inorder_nil, List.nil_append] at hfuel
      exact (length_le_around c).trans hfuel
    obtain ⟨t', v, hrun', hreshaped, hbal⟩ := hpending.run hlength
    have hdata : SameData t₀ t' :=
      (SameData.store _ _).trans ((SameData.setParent _ _).trans hreshaped.data)
    have hinorder : inorder v = before c ++ node :: after c := by
      rw [hreshaped.inorder_eq, inorder_plug]
      simp
    have hold : inorder (plug c .nil) = before c ++ after c := by
      rw [inorder_plug, inorder_nil, List.append_nil]
    refine .inr ⟨t', v, before c, after c, by rw [hrun', ok_bind], ⟨hreshaped.laid, ?_, hbal⟩, hold,
      hinorder, hbefore, hafter, hdata, fun n hn ↦ ?_⟩
    · refine Ascending.congr (t := t₀) ?_ hdata.compare fun n _ ↦ hdata.key n
      have hkeys : ∀ x ∈ before c ++ after c, (t₀.node x).key = (t.node x).key := fun x hx ↦
        congrArg CUavlTreeNode.key
          (t.node_setNode_of_ne _ (ne_of_mem_of_not_mem (hold ▸ hx) hnode))
      have hself : (t₀.node node).key = key :=
        congrArg CUavlTreeNode.key (t.node_setNode_self node _)
      have hsorted := (h.setNode hnode (newNode key value)).sorted
      rw [hold] at hsorted
      rw [hinorder]
      refine hsorted.insert (fun x hx ↦ ?_) fun x hx ↦ ?_
      · rw [hself, hkeys x (List.mem_append_left _ hx)]
        exact (ho.swap _ _).mpr (hbefore x hx)
      · rw [hself, hkeys x (List.mem_append_right _ hx)]
        exact hafter x hx
    · have hn₁ : n ∉ inorder (plug c (.node node .nil .nil)) := hreshaped.inorder_eq ▸ hn
      have hnn : n ≠ node := fun heq ↦ hn (by simp [hinorder, heq])
      have hnh : (hole c).owner ≠ some n := fun heq ↦
        hn₁ (mem_plug.mpr (.inr (owner_hole heq)))
      rw [hreshaped.same n hn, ht₁, node_setParent_of_ne _ _ hnn, node_store_of_ne _ _ hnh, ht₀,
        node_setNode_of_ne _ _ hnn]

end RadixBench.Avl
