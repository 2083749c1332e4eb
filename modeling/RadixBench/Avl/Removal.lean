import RadixBench.Avl.Insertion

namespace RadixBench.Avl

open Foundation CUavlTree

variable {N K V : Type} [DecidableEq N] {t t' : CUavlTree N K V} {c : Context N}
  {T : BinaryTree N}

omit [DecidableEq N] in
theorem leftMost_eq {s : Slot N} {u : BinaryTree N} {n : N} {fuel : ℕ} (h : Laid (links t) s u)
    (hn : rootOf u = some n) (hfuel : u.height ≤ fuel + 1) :
    ∃ c m r, u = plug c (.node m .nil r) ∧ before c = [] ∧ leftMost t fuel n = .ok m := by
  induction u generalizing s n fuel with
  | nil => cases hn
  | node m l r ihl ihr =>
    obtain rfl := Option.some.inj hn
    obtain ⟨-, -, hl, -⟩ := h
    have hleft : t.left m = rootOf l := hl.load_eq
    rw [leftMost, hleft]
    cases l with
    | nil => exact ⟨[], m, r, rfl, rfl, rfl⟩
    | node x a b =>
      have hheight : (BinaryTree.node x a b).height ≤ fuel := by
        rw [BinaryTree.height] at hfuel
        omega
      obtain ⟨fuel, rfl⟩ :=
        Nat.exists_eq_succ_of_ne_zero (Nat.ne_of_gt (Nat.zero_lt_of_lt hheight))
      obtain ⟨c, y, r', htree, hbefore, hrun⟩ := ihl hl rfl hheight
      refine ⟨c ++ [⟨m, false, r⟩], y, r', ?_, ?_, hrun⟩
      · rw [plug_concat, ← htree]
        rfl
      · rw [before_concat, hbefore]
        rfl

theorem splice_laid {u w : BinaryTree N} {s : Slot N} {n : N}
    (h : Laid (links t) .root (plug c w)) (hnodup : (inorder (plug c w)).Nodup)
    (hu : Laid (links t) s u) (hsub : ∀ y ∈ inorder u, y ∈ inorder w)
    (hndu : (inorder u).Nodup) (hn : n ∈ inorder w) (hnu : n ∉ inorder u) :
    Laid (links ((t.store (hole c) (rootOf u)).setParentOf (rootOf u) (hole c).owner)) .root
      (plug c u) := by
  set t' := (t.store (hole c) (rootOf u)).setParentOf (rootOf u) (hole c).owner with ht'
  have hload : ∀ a, (links t').load a = if a = hole c then rootOf u else t.load a := fun a ↦
    ((t.store _ _).load_setParentOf _ _ a).trans (t.load_store (hole c) a _)
  have hparent : ∀ y, (t'.node y).parent =
      if rootOf u = some y then (hole c).owner else (t.node y).parent := by
    intro y
    rw [ht', parent_setParentOf, parent_store]
  refine laid_splice h hnodup hu hsub hndu ((hload _).trans (if_pos rfl))
    (fun a ha _ ↦ (hload a).trans (if_neg ha)) hn hnu (fun y hy ↦ ?_) fun y _ hy a hya ↦ ?_
  · exact (hparent y).trans (if_pos hy)
  · exact (hparent y).trans ((if_neg hy).trans hya)

/-- The links after a node `s` outside of the tree has taken the place that `link` points to,
with the children `l` and `r`. -/
def adopt (t : CUavlTree N K V) (link : Slot N) (s : N) (l r : Option N) : CUavlTree N K V :=
  (((((t.store link (some s)).setParent s link.owner).store (.child s false) l).setParentOf l
    (some s)).store (.child s true) r).setParentOf r (some s)

section

variable (t) (link : Slot N) (s : N) (l r : Option N)

theorem load_adopt (a : Slot N) : (adopt t link s l r).load a =
    if a = .child s true then r else if a = .child s false then l
    else if a = link then some s else t.load a := by
  rw [adopt, load_setParentOf, load_store, load_setParentOf, load_store, load_setParent, load_store]

theorem parent_adopt (y : N) : ((adopt t link s l r).node y).parent =
    if r = some y then some s else if l = some y then some s else if y = s then link.owner
    else (t.node y).parent := by
  rw [adopt, parent_setParentOf, parent_store, parent_setParentOf, parent_store, parent_setParent,
    parent_store]

theorem height_adopt : heightOf (adopt t link s l r) = heightOf t := by
  funext y
  rw [heightOf, adopt, height_setParentOf, height_store, height_setParentOf, height_store,
    height_setParent, height_store, heightOf]

theorem adopt_data : SameData t (adopt t link s l r) :=
  (SameData.store _ _).trans ((SameData.setParent _ _).trans ((SameData.store _ _).trans
    ((SameData.setParentOf _ _).trans ((SameData.store _ _).trans (.setParentOf _ _)))))

theorem node_adopt_of_ne {y : N} (hlink : link.owner ≠ some y) (hs : y ≠ s) (hl : l ≠ some y)
    (hr : r ≠ some y) : (adopt t link s l r).node y = t.node y := by
  have hchild : ∀ {i}, (Slot.child s i).owner ≠ some y := fun heq ↦ hs (Option.some.inj heq).symm
  rw [adopt, node_setParentOf_of_ne _ _ hr, node_store_of_ne _ _ hchild,
    node_setParentOf_of_ne _ _ hl, node_store_of_ne _ _ hchild, node_setParent_of_ne _ _ hs,
    node_store_of_ne _ _ hlink]

end

theorem adopt_laid {n s : N} {l r : BinaryTree N}
    (h : Laid (links t) .root (plug c (.node n l r)))
    (hnodup : (inorder (plug c (.node n l r))).Nodup)
    (hs : s ∉ inorder (plug c (.node n l r))) :
    Laid (links (adopt t (hole c) s (rootOf l) (rootOf r))) .root (plug c (.node s l r)) := by
  have hload := load_adopt t (hole c) s (rootOf l) (rootOf r)
  have hparent := parent_adopt t (hole c) s (rootOf l) (rootOf r)
  have hs' := hs
  rw [mem_plug, inorder_node, List.mem_append, List.mem_cons, not_or, not_or, not_or] at hs'
  obtain ⟨⟨hsl, -, hsr⟩, hsc⟩ := hs'
  refine laid_replace h hnodup hs ?_ ?_ ?_ ?_ (fun a ha has _ ↦ ?_) (fun y hy ↦ ?_) (fun y hy ↦ ?_)
    fun y hys _ hyl hyr a hya ↦ ?_
  · refine (hload _).trans ?_
    rw [if_neg (child_ne_hole hsc).symm, if_neg (child_ne_hole hsc).symm, if_pos rfl]
  · refine (hparent s).trans ?_
    rw [if_neg fun heq ↦ hsr (rootOf_mem heq), if_neg fun heq ↦ hsl (rootOf_mem heq), if_pos rfl]
  · refine (hload (.child s false)).trans ?_
    rw [if_neg (by simp), if_pos rfl]
  · exact (hload (.child s true)).trans (if_pos rfl)
  · have hchild : ∀ {i}, a ≠ .child s i := fun heq ↦ has (heq ▸ rfl)
    refine (hload a).trans ?_
    rw [if_neg hchild, if_neg hchild, if_neg ha]
    rfl
  · refine (hparent y).trans ?_
    rw [if_pos hy, ite_self]
    rfl
  · exact (hparent y).trans (if_pos hy)
  · refine (hparent y).trans ?_
    rw [if_neg hyr, if_neg hyl, if_neg hys]
    exact hya

theorem erase_plug_node {n : N} {l r : BinaryTree N}
    (hnodup : (inorder (plug c (.node n l r))).Nodup) :
    (inorder (plug c (.node n l r))).erase n = before c ++ (inorder l ++ inorder r) ++ after c := by
  obtain ⟨hnode, -, hapart⟩ := nodup_plug.mp hnodup
  rw [inorder_node, List.nodup_append'] at hnode
  have hnl : n ∉ inorder l := fun hmem ↦ hnode.2.2 hmem List.mem_cons_self
  have hnc : n ∉ before c := fun hmem ↦ hapart n (by simp) (List.mem_append_left _ hmem)
  rw [inorder_plug, inorder_node, List.append_assoc, List.append_assoc, List.cons_append,
    List.erase_append_right _ hnc, List.erase_append_right _ hnl, List.erase_cons_head]
  simp only [List.append_assoc]

/-- `node` has been taken out of the tree `T`, with `u` in a hole where the height was `k`, and
rebalancing is to begin at `start`. -/
structure Unlinked (t t' : CUavlTree N K V) (T : BinaryTree N) (node : N) (start : Option N)
    (c : Context N) (u : BinaryTree N) (k : ℕ) : Prop where
  laid : Laid (links t') .root (plug c u)
  inorder_eq : inorder (plug c u) = (inorder T).erase node
  data : SameData t t'
  height : heightOf t' = heightOf t
  balanced : Balanced (heightOf t) u
  around : BalancedAround (heightOf t) c k
  changed : Changed true k u
  start_eq : start = (hole c).owner ∨ u ≠ .nil ∧ start = rootOf u
  same : ∀ m, m ∉ inorder T → t'.node m = t.node m

theorem splice_unlinked {n : N} {l r u : BinaryTree N} {s : Slot N}
    (h : AvlTree t (plug c (.node n l r))) (hnodup : (inorder (plug c (.node n l r))).Nodup)
    (hu : Laid (links t) s u) (hbal : Balanced (heightOf t) u)
    (hinorder : inorder u = inorder l ++ inorder r)
    (hheight : (BinaryTree.node n l r).height = u.height + 1) {start : Option N}
    (hstart : start = (hole c).owner ∨ u ≠ .nil ∧ start = rootOf u) :
    Unlinked t ((t.store (hole c) (rootOf u)).setParentOf (rootOf u) (hole c).owner)
      (plug c (.node n l r)) n start c u (u.height + 1) := by
  have hnode := (nodup_plug.mp hnodup).1
  have hperm : (inorder (.node n l r)).Perm (n :: inorder u) := by
    rw [hinorder]
    exact List.perm_middle
  have hndu : n ∉ inorder u ∧ (inorder u).Nodup := List.nodup_cons.mp (hperm.nodup_iff.mp hnode)
  have hsub : ∀ y ∈ inorder u, y ∈ inorder (.node n l r) := fun y hy ↦
    hperm.mem_iff.mpr (List.mem_cons_of_mem n hy)
  refine ⟨splice_laid h.laid hnodup hu hsub hndu.2 (by simp) hndu.1, ?_,
    (SameData.store _ _).trans (.setParentOf _ _), funext fun m ↦ ?_, hbal,
    hheight ▸ h.balanced.plug.2, .inr rfl, hstart, fun m hm ↦ ?_⟩
  · rw [erase_plug_node hnodup, inorder_plug, hinorder]
  · rw [heightOf, height_setParentOf, height_store, heightOf]
  · rw [mem_plug, not_or] at hm
    rw [node_setParentOf_of_ne _ _ fun heq ↦ hm.1 (hsub m (rootOf_mem heq)),
      node_store_of_ne _ _ fun heq ↦ hm.2 (owner_hole heq)]

def Removes (t : CUavlTree N K V) (T : BinaryTree N) (node : N)
    (r : Exec (CUavlTree N K V)) : Prop :=
  ∃ t' T', r = .ok t' ∧ AvlTree t' T' ∧ inorder T' = (inorder T).erase node ∧ SameData t t' ∧
    ∀ n, n ∉ inorder T → t'.node n = t.node n

/-- The tree that the rebalancing of a removal begins with, after the node has been cleared. -/
theorem Unlinked.pending {node : N} {start : Option N} {u : BinaryTree N} {k : ℕ}
    (hun : Unlinked t t' T node start c u k) (hnodup : (inorder T).Nodup) : Pending true
      (t'.setNode node { t'.node node with child := fun _ ↦ none, parent := none }) c u k := by
  set t₁ := t'.setNode node { t'.node node with child := fun _ ↦ none, parent := none } with ht₁
  have hout : node ∉ inorder (plug c u) := by
    rw [hun.inorder_eq]
    exact hnodup.not_mem_erase
  have hheight : heightOf t₁ = heightOf t := by
    refine Eq.trans (funext fun m ↦ ?_) hun.height
    by_cases hm : m = node
    · rw [hm, heightOf, ht₁, node_setNode_self, heightOf]
    · rw [heightOf, ht₁, node_setNode_of_ne _ _ hm, heightOf]
  refine ⟨laid_setNode hun.laid hout (Option.some_ne_none node).symm _, ?_,
    hheight ▸ hun.balanced, hheight ▸ hun.around, hun.changed⟩
  rw [hun.inorder_eq]
  exact hnodup.erase node

theorem Unlinked.removes {node : N} {start : Option N} {u : BinaryTree N} {k fuel : ℕ}
    (hun : Unlinked t t' T node start c u k) (h : AvlTree t T) (hnodup : (inorder T).Nodup)
    (hnode : node ∈ inorder T) (hfuel : (inorder T).length ≤ fuel) :
    Removes t T node (cuAvlTreeNodeRebalance true fuel
      (t'.setNode node { t'.node node with child := fun _ ↦ none, parent := none }) start) := by
  have hpending := hun.pending hnodup
  set t₁ := t'.setNode node { t'.node node with child := fun _ ↦ none, parent := none } with ht₁
  have hdata : SameData t t₁ := hun.data.trans (.setNode rfl rfl)
  have hlength : c.length < fuel := by
    have hlt := List.length_erase_of_mem hnode
    have hpos := List.length_pos_of_mem hnode
    have hperm := (inorder_plug_perm c u).length_eq
    have hc := length_le_around c
    rw [hun.inorder_eq, List.length_append] at hperm
    omega
  have hrun : ∃ t'' v, cuAvlTreeNodeRebalance true fuel t₁ start = .ok t'' ∧
      Reshaped t₁ t'' [] (plug c u) v ∧ Balanced (heightOf t'') v := by
    obtain rfl | ⟨hne, rfl⟩ := hun.start_eq
    · exact hpending.run hlength.le
    · cases u with
      | nil => exact absurd rfl hne
      | node x l r => exact hpending.visiting_root.run hlength
  obtain ⟨t'', v, hrun, hreshaped, hbal'⟩ := hrun
  have hinorder : inorder v = (inorder T).erase node :=
    hreshaped.inorder_eq.trans hun.inorder_eq
  have hdata' := hdata.trans hreshaped.data
  refine ⟨t'', v, hrun, ⟨hreshaped.laid, ?_, hbal'⟩, hinorder, hdata', fun m hm ↦ ?_⟩
  · refine Ascending.congr (t := t) ?_ hdata'.compare fun m _ ↦ hdata'.key m
    rw [hinorder]
    exact List.Pairwise.sublist List.erase_sublist h.sorted
  · have hmv : m ∉ inorder v := fun hmem ↦ hm (List.mem_of_mem_erase (hinorder ▸ hmem))
    have hmn : m ≠ node := fun heq ↦ hm (heq ▸ hnode)
    rw [hreshaped.same m hmv, ht₁, node_setNode_of_ne _ _ hmn, hun.same m hm]

theorem adopt_run {t : CUavlTree N K V} {n m x : N} {link : Slot N} {l r : Option N}
    (hparent : (t.node n).parent = link.owner) (hlink : ∀ i, Slot.child n i ≠ link) (hnm : n ≠ m)
    (hl : t.load (.child n false) = l) (hr : t.load (.child n true) = r) (hx : l = some x)
    (rebalance : Option N) :
    (do
      let t := t.store link (some m)
      let t := t.setParent m (t.node n).parent
      let t := t.store (.child m false) (t.left n)
      let left ← deref (t.left m)
      let t := t.setParent left (some m)
      let t := t.store (.child m true) (t.right n)
      .ok (t.setParentOf (t.right m) (some m), rebalance)) =
      (.ok (adopt t link m l r, rebalance) : Exec _) := by
  subst hx
  set t₁ := t.store link (some m) with ht₁
  set t₂ := t₁.setParent m link.owner with ht₂
  set t₃ := t₂.store (.child m false) (some x) with ht₃
  set t₄ := t₃.setParent x (some m) with ht₄
  set t₅ := t₄.store (.child m true) r with ht₅
  have hslot : ∀ i j, Slot.child n i ≠ .child m j := fun i j heq ↦ hnm (Slot.child.inj heq).1
  have h₁ : (t₁.node n).parent = link.owner := by rw [ht₁, parent_store, hparent]
  have h₂ : t₂.left n = some x := by
    have hload : t₂.load (.child n false) = some x := by
      rw [ht₂, load_setParent, ht₁, load_store, if_neg (hlink false), hl]
    exact hload
  have h₃ : t₃.left m = some x := by
    have hload : t₃.load (.child m false) = some x := by rw [ht₃, load_store, if_pos rfl]
    exact hload
  have h₄ : t₄.right n = r := by
    have hload : t₄.load (.child n true) = r := by
      rw [ht₄, load_setParent, ht₃, load_store, if_neg (hslot true false), ht₂, load_setParent, ht₁,
        load_store, if_neg (hlink true), hr]
    exact hload
  have h₅ : t₅.right m = r := by
    have hload : t₅.load (.child m true) = r := by rw [ht₅, load_store, if_pos rfl]
    exact hload
  dsimp only
  rw [h₁, ← ht₂, h₂, ← ht₃, h₃, deref_some, ok_bind, ← ht₄, h₄, ← ht₅, h₅]
  rfl

/-- The run of `replaceWithSuccessor`. The successor `m` is taken out of the slot `s` first, which
leaves the tree `t₁`. -/
theorem replaceWithSuccessor_run {t₁ : CUavlTree N K V} {n m x y : N} {link s : Slot N}
    {l r u : Option N} {fuel : ℕ} (ht₁ : (t.store s u).setParentOf u s.owner = t₁)
    (hm : leftMost t fuel y = .ok m) (hs : cuAvlTreeNodeGetLinkPointer t m = .ok s)
    (hu : t.load (.child m true) = u) (hms : Slot.child m true ≠ s) (hum : u ≠ some m)
    (hmparent : (t.node m).parent = s.owner) (hparent : (t₁.node n).parent = link.owner)
    (hlink : ∀ i, Slot.child n i ≠ link) (hnm : n ≠ m) (hl : t₁.load (.child n false) = l)
    (hr : t₁.load (.child n true) = r) (hx : l = some x) :
    replaceWithSuccessor t fuel n y link =
      .ok (adopt t₁ link m l r, if some n ≠ s.owner then s.owner else some m) := by
  have h₁ : t.right m = u := hu
  have h₂ : (t.store s u).right m = u := by
    have hload : (t.store s u).load (.child m true) = u := by rw [load_store, if_neg hms, hu]
    exact hload
  have h₃ : ((t.store s u).node m).parent = s.owner := by rw [parent_store, hmparent]
  have h₄ : (t₁.node m).parent = s.owner := by rw [← ht₁, parent_setParentOf, if_neg hum, h₃]
  rw [replaceWithSuccessor, hm, ok_bind, hs, ok_bind]
  dsimp only
  rw [h₁, h₂, h₃, ht₁, h₄]
  exact adopt_run hparent hlink hnm hl hr hx _

theorem owner_hole_successor {c₁ : Context N} {n m : N} {l : BinaryTree N}
    (hne : ∀ z ∈ around c₁, n ≠ z) :
    (if some n ≠ (hole (c₁ ++ ⟨n, true, l⟩ :: c)).owner then (hole (c₁ ++ ⟨n, true, l⟩ :: c)).owner
      else some m) = (hole (c₁ ++ ⟨m, true, l⟩ :: c)).owner := by
  cases c₁ with
  | nil => exact if_neg (not_not.mpr rfl)
  | cons f c₁ =>
    exact if_pos fun heq ↦ hne f.node (mem_around_cons.mpr (.inl rfl)) (Option.some.inj heq)

theorem replaceWithSuccessor_unlinked {n x y : N} {l r : BinaryTree N} {fuel : ℕ}
    (h : AvlTree t (plug c (.node n l r))) (hnodup : (inorder (plug c (.node n l r))).Nodup)
    (hx : rootOf l = some x) (hy : rootOf r = some y) (hfuel : r.height ≤ fuel + 1) :
    ∃ t' start c' u k, replaceWithSuccessor t fuel n y (hole c) = .ok (t', start) ∧
      Unlinked t t' (plug c (.node n l r)) n start c' u k := by
  obtain ⟨-, -, -, -, hr⟩ := laid_plug.mp h.laid
  obtain ⟨c₁, m, u, rfl, hbefore, hleft⟩ := leftMost_eq hr hy hfuel
  have hplug : ∀ z v, plug (c₁ ++ ⟨z, true, l⟩ :: c) v = plug c (.node z l (plug c₁ v)) :=
    fun z v ↦ plug_append c₁ _ v
  have hlaid := h.laid
  have hbal := h.balanced
  have hnd := hnodup
  rw [← hplug] at hlaid hbal hnd
  set d := c₁ ++ (⟨n, true, l⟩ : Frame N) :: c with hd
  obtain ⟨hmu, hnu, hmd, hapart⟩ : m ∉ inorder u ∧ (inorder u).Nodup ∧ m ∉ around d ∧
      ∀ z ∈ inorder u, z ∉ around d := by
    obtain ⟨hnode, -, hapart⟩ := nodup_plug.mp hnd
    have hnode' := List.nodup_cons.mp hnode
    exact ⟨hnode'.1, hnode'.2, hapart m (by simp), fun z hz ↦ hapart z (by simp [hz])⟩
  obtain ⟨-, -, hmparent, -, hmu'⟩ := laid_plug.mp hlaid
  set t₁ := (t.store (hole d) (rootOf u)).setParentOf (rootOf u) (hole d).owner with ht₁
  have hlaid₁ : Laid (links t₁) .root (plug d u) :=
    splice_laid (n := m) hlaid hnd hmu' (fun z hz ↦ by simp [hz]) hnu (by simp) hmu
  have hnd₁ : (inorder (plug d u)).Nodup :=
    nodup_plug.mpr ⟨hnu, (nodup_plug.mp hnd).2.1, hapart⟩
  have hm₁ : m ∉ inorder (plug d u) := by
    rw [mem_plug, not_or]
    exact ⟨hmu, hmd⟩
  have hadopt := hlaid₁
  rw [hd, hplug] at hadopt hnd₁ hm₁
  obtain ⟨-, -, hnparent, hl₁, hr₁⟩ := laid_plug.mp hadopt
  obtain ⟨hnode₁, -, hapart₁⟩ := nodup_plug.mp hnd₁
  have hnm : n ≠ m := fun heq ↦ hm₁ (mem_plug.mpr (.inl (by simp [heq])))
  have hnslot : ∀ i, Slot.child n i ≠ hole c := fun i ↦ child_ne_hole (hapart₁ n (by simp))
  have hrun := replaceWithSuccessor_run ht₁.symm hleft (linkPointer_eq hlaid hnd rfl) hmu'.load_eq
    (child_ne_hole hmd) (fun heq ↦ hmu (rootOf_mem heq)) hmparent hnparent hnslot hnm hl₁.load_eq
    hr₁.load_eq hx
  have hne : ∀ z ∈ around c₁, n ≠ z := by
    have hnode := (nodup_plug.mp hnodup).1
    rw [inorder_node, List.nodup_append', List.nodup_cons] at hnode
    intro z hz heq
    exact hnode.2.1.1 (mem_plug.mpr (.inr (heq ▸ hz)))
  refine ⟨_, _, c₁ ++ ⟨m, true, l⟩ :: c, u, (BinaryTree.node m .nil u).height, hrun, ?_⟩
  rw [hd, owner_hole_successor hne]
  refine ⟨?_, ?_, ?_, ?_, ?_, ?_, ?_, .inl rfl, fun z hz ↦ ?_⟩
  · rw [plug_append]
    exact adopt_laid hadopt hnd₁ hm₁
  · rw [erase_plug_node hnodup, plug_append]
    simp [inorder_plug, Frame.fill, hbefore]
  · exact ((SameData.store _ _).trans (.setParentOf _ _)).trans (adopt_data ..)
  · refine (height_adopt ..).trans (funext fun z ↦ ?_)
    rw [heightOf, ht₁, height_setParentOf, height_store, heightOf]
  · exact hbal.plug.1.2.2.2.2
  · exact hbal.plug.2.relabel
  · exact .inr (by simp [BinaryTree.height])
  · have hzd := hz
    rw [← hplug, mem_plug, inorder_node, inorder_nil, List.nil_append, List.mem_cons, not_or,
      not_or] at hzd
    obtain ⟨⟨hzm, hzu⟩, hzd⟩ := hzd
    simp only [mem_plug, inorder_node, List.mem_append, List.mem_cons, not_or] at hz
    have hzr : z ∉ inorder (plug c₁ u) := fun hmem ↦
      (mem_plug.mp hmem).elim hzu hz.1.2.2.2
    rw [node_adopt_of_ne t₁ (hole c) m _ _ (fun heq ↦ hz.2 (owner_hole heq)) hzm
      (fun heq ↦ hz.1.1 (rootOf_mem heq)) fun heq ↦ hzr (rootOf_mem heq), ht₁,
      node_setParentOf_of_ne _ _ fun heq ↦ hzu (rootOf_mem heq),
      node_store_of_ne _ _ fun heq ↦ hzd (owner_hole heq)]

theorem replaceWithChild_run {n x : N} {side : Bool} {link : Slot N} {p : Option N}
    (hparent : (t.node n).parent = p) (hx : t.load (.child n side) = some x)
    (hlink : Slot.child n side ≠ link) : replaceWithChild t n side link =
      .ok ((t.store link (some x)).setParentOf (some x) p, some x) := by
  have h₁ : (t.node n).child side = some x := hx
  have h₂ : ((t.store link (some x)).node n).child side = some x := by
    have hload : (t.store link (some x)).load (.child n side) = some x := by
      rw [load_store, if_neg hlink, hx]
    exact hload
  have h₃ : ((t.store link (some x)).node n).parent = p := by rw [parent_store, hparent]
  rw [replaceWithChild, h₁, h₂, h₃, deref_some, ok_bind]
  rfl

theorem unlinkNode_unlinked {n : N} {l r : BinaryTree N} {fuel : ℕ}
    (h : AvlTree t (plug c (.node n l r))) (hnodup : (inorder (plug c (.node n l r))).Nodup)
    (hfuel : r.height ≤ fuel + 1) :
    ∃ t' start c' u k, unlinkNode t fuel n (hole c) = .ok (t', start) ∧
      Unlinked t t' (plug c (.node n l r)) n start c' u k := by
  obtain ⟨-, -, hparent, hl, hr⟩ := laid_plug.mp h.laid
  obtain ⟨-, -, -, hbl, hbr⟩ := h.balanced.plug.1
  have hparent : (t.node n).parent = (hole c).owner := hparent
  have hleft : t.left n = rootOf l := hl.load_eq
  have hright : t.right n = rootOf r := hr.load_eq
  have hslot : ∀ i, Slot.child n i ≠ hole c := fun i ↦
    child_ne_hole ((nodup_plug.mp hnodup).2.2 n (by simp))
  rw [unlinkNode, hleft, hright]
  cases l with
  | nil =>
    cases r with
    | nil =>
      refine ⟨_, _, c, .nil, 1, rfl, ?_⟩
      exact splice_unlinked (u := .nil) h hnodup hl trivial rfl rfl (.inl hparent)
    | node y a b =>
      refine ⟨_, _, c, .node y a b, (BinaryTree.node y a b).height + 1,
        replaceWithChild_run hparent hr.load_eq (hslot true), ?_⟩
      refine splice_unlinked h hnodup hr hbr rfl ?_ (.inr ⟨by simp, rfl⟩)
      simp [BinaryTree.height]
  | node x a b =>
    cases r with
    | nil =>
      refine ⟨_, _, c, .node x a b, (BinaryTree.node x a b).height + 1,
        replaceWithChild_run hparent hl.load_eq (hslot false), ?_⟩
      refine splice_unlinked h hnodup hl hbl (List.append_nil _).symm ?_ (.inr ⟨by simp, rfl⟩)
      simp [BinaryTree.height]
    | node y a' b' => exact replaceWithSuccessor_unlinked h hnodup rfl rfl hfuel

theorem unlinkNode_run (h : AvlTree t T) (hnodup : (inorder T).Nodup) {node : N}
    (hnode : node ∈ inorder T) {fuel : ℕ} (hfuel : (inorder T).length ≤ fuel) :
    ∃ link t' start c u k, cuAvlTreeNodeGetLinkPointer t node = .ok link ∧
      unlinkNode t fuel node link = .ok (t', start) ∧ Unlinked t t' T node start c u k := by
  obtain ⟨c, l, r, rfl⟩ := exists_plug hnode
  have hheight : r.height ≤ fuel + 1 := by
    have hlength := (inorder_plug_node_perm c node l r).length_eq
    have hle := height_le_length r
    simp only [List.length_cons, List.length_append] at hlength
    omega
  obtain ⟨t', start, c', u, k, hrun, hun⟩ := unlinkNode_unlinked h hnodup hheight
  exact ⟨hole c, t', start, c', u, k, linkPointer_eq h.laid hnodup rfl, hrun, hun⟩

theorem remove_removes (ho : TotalOrder t.compare) (h : AvlTree t T) {node : N}
    (hnode : node ∈ inorder T) {fuel : ℕ} (hfuel : (inorder T).length ≤ fuel) :
    Removes t T node (cuAvlTreeNodeRemove t fuel node) := by
  have hnodup := h.nodup ho
  obtain ⟨link, t', start, c, u, k, hlink, hrun, hun⟩ := unlinkNode_run h hnodup hnode hfuel
  rw [cuAvlTreeNodeRemove, hlink, ok_bind, hrun, ok_bind]
  exact hun.removes h hnodup hnode hfuel

end RadixBench.Avl
